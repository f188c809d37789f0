/-
  ReversePolish.Main — the program: its outcome is printed, and its code returned.
-/

import ReversePolish.CommandLine

open ReversePolish in
def main (arguments : List String) : IO UInt32 := do
  let outcome := CommandLine.run (some Target.host) arguments
  IO.print outcome.stdout
  IO.eprint outcome.stderr
  return outcome.code
