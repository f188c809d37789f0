/-
  ReversePolish.Text.Quoted — a text in double quotes, for inspection.

  A double quote and a backslash follow a backslash; newline, return, tab and NUL have a
  letter of their own; every other character that is not printable is written as
  `\u` with its code point in hexadecimal, in braces. All else, the single quote
  included, stands for itself.
-/

import ReversePolish.Text.Printable

namespace ReversePolish.Text

def escape (c : Char) : List Char :=
  if c = '"' then ['\\', '"']
  else if c = '\\' then ['\\', '\\']
  else if c = '\n' then ['\\', 'n']
  else if c = '\r' then ['\\', 'r']
  else if c = '\t' then ['\\', 't']
  else if c = '\x00' then ['\\', '0']
  else if isPrintable c then [c]
  else ['\\', 'u', '\x7b'] ++ Nat.toDigits 16 c.toNat ++ ['\x7d']

def quote (s : String) : String :=
  "\"" ++ String.ofList (s.toList.flatMap escape) ++ "\""

end ReversePolish.Text
