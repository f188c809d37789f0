/-
  ReversePolish.Double.Literal — number literals.

  A token that begins with `0x`, `h`, `b` or `o` is an integer in radix 16, 16, 2 or 8,
  or no literal at all: an optional sign, digits in either case, and a value that
  fits a signed word of 64 bits. Every other token is a decimal or no literal: an
  optional sign, then `inf`, `infinity` or `nan` in any case, or digits with at most
  one point and at least one digit, and an optional exponent. The value is the double
  nearest to the exact value, ties to even. An integer in a radix is never -0, since
  it is an integer first; a decimal keeps its sign. An exponent grows with its digits
  until it has reached 2^16; digits after that are read, and do not count.
-/

import ReversePolish.Double.Rounding

namespace ReversePolish.Double.Literal

/-- The sign in front, if there is one: whether it is a minus, and the rest. -/
def splitSign : List Char → Bool × List Char
  | '-' :: rest => (true, rest)
  | '+' :: rest => (false, rest)
  | text => (false, text)

/-! ## Integers in a radix -/

/-- The value of a digit up to radix 36, in either case; 36 for any other character. -/
def digitValue (c : Char) : Nat :=
  if '0' ≤ c ∧ c ≤ '9' then c.toNat - '0'.toNat
  else if 'a' ≤ c ∧ c ≤ 'z' then c.toNat - 'a'.toNat + 10
  else if 'A' ≤ c ∧ c ≤ 'Z' then c.toNat - 'A'.toNat + 10
  else 36

def ofDigits (base : Nat) (digits : List Char) : Nat :=
  digits.foldl (fun n c => base * n + digitValue c) 0

/-- Whether a signed word of 64 bits holds the number. -/
def fitsWord (n : Int) : Bool := -(signBit : Int) ≤ n && n < (signBit : Int)

/-- An optional sign and at least one digit, within a signed word of 64 bits. -/
def word? (base : Nat) (text : List Char) : Option Int :=
  let (negative, digits) := splitSign text
  if digits.isEmpty || digits.any (base ≤ digitValue ·) then none
  else
    let n : Int := ofDigits base digits
    let n := if negative then -n else n
    if fitsWord n then some n else none

/-! ## Decimals -/

/-- An unsigned decimal: `significand · 10 ^ exponent`. -/
structure Numeral where
  significand : Nat
  exponent : Int
  deriving DecidableEq, Repr

/-- An exponent does not grow any further once it is this great. -/
def exponentBound : Nat := 0x10000

/-- The magnitude of an exponent; digits beyond the bound do not count. -/
def exponentOfDigits (digits : List Char) : Nat :=
  digits.foldl (fun n c => if n < exponentBound then 10 * n + digitValue c else n) 0

def exponent? (text : List Char) : Option Int :=
  let (negative, digits) := splitSign text
  if digits.isEmpty || !digits.all Char.isDigit then none
  else
    let n : Int := exponentOfDigits digits
    some (if negative then -n else n)

def exponentPart? : List Char → Option Int
  | [] => some 0
  | c :: rest => if c = 'e' ∨ c = 'E' then exponent? rest else none

/-- Digits, at most one point among them, and an optional exponent. -/
def numeral? (text : List Char) : Option Numeral :=
  let whole := text.takeWhile Char.isDigit
  let rest := text.dropWhile Char.isDigit
  let (fraction, rest) :=
    match rest with
    | '.' :: rest => (rest.takeWhile Char.isDigit, rest.dropWhile Char.isDigit)
    | rest => ([], rest)
  if whole.isEmpty && fraction.isEmpty then none
  else
    (exponentPart? rest).map fun exponent =>
      { significand := Nat.ofDigitChars 10 (whole ++ fraction) 0
        exponent := exponent - fraction.length }

def named? (negative : Bool) (text : List Char) : Option Float :=
  if text = ['i', 'n', 'f'] ∨ text = ['i', 'n', 'f', 'i', 'n', 'i', 't', 'y'] then
    some (ofRank negative infinityRank)
  else if text = ['n', 'a', 'n'] then some nan
  else none

def decimal? (text : List Char) : Option Float :=
  let (negative, text) := splitSign text
  match named? negative (text.map Char.toLower) with
  | some x => some x
  | none =>
    (numeral? text).map fun n =>
      ofRank negative (decimalRank n.significand n.exponent)

/-! ## All literals -/

/-- The radix that the beginning of a token commits it to, with the digits after it. -/
def radix? : List Char → Option (Nat × List Char)
  | '0' :: 'x' :: digits => some (16, digits)
  | 'h' :: digits => some (16, digits)
  | 'b' :: digits => some (2, digits)
  | 'o' :: digits => some (8, digits)
  | _ => none

def ofChars? (text : List Char) : Option Float :=
  match radix? text with
  | some (base, digits) => (word? base digits).map ofInt
  | none => decimal? text

def parse? (token : String) : Option Float := ofChars? token.toList

end ReversePolish.Double.Literal
