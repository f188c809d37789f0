/-
  ReversePolish.Fault — what must not happen while a built expression is evaluated.

  Building an expression reports errors; evaluating one does not fail. A fault is
  evidence of misuse (a routine called or released after its release, `fetch` applied to
  operands) or of a program that is not a program (an operand, a stack entry or a node
  that is not there). The machines check every access and answer with a fault instead of
  an arbitrary value.
-/

namespace ReversePolish

inductive Fault where
  /-- `fetch` has no operands to be applied to. -/
  | fetchApplied
  | calledAfterRelease
  | releasedTwice
  /-- More fetches than operands. -/
  | operandMissing
  /-- An operator met fewer than two values. -/
  | stackUnderflow
  /-- More values than the stack has places for. -/
  | stackOverflow
  /-- A tree node refers to one that does not come before it. -/
  | nodeMissing
  /-- Nothing was left on the stack. -/
  | resultMissing
  deriving DecidableEq, Repr

namespace Fault

def message : Fault → String
  | fetchApplied => "do not know how to apply op: #"
  | calledAfterRelease => "native routine called after its code region was released"
  | releasedTwice => "executable region released twice"
  | operandMissing => "program has one operand per fetch"
  | stackUnderflow => "program is stack balanced"
  | stackOverflow => "program fits its stack"
  | nodeMissing => "tree nodes follow their children"
  | resultMissing => "program leaves one value"

end Fault

end ReversePolish
