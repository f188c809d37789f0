/-
  ReversePolish.Error — why an expression is not built.

  A value token may have no source, an operator may meet fewer than two values, the
  values left at the end may be none or more than one, and native code may be refused.
  Positions count the non-empty tokens from 0. How large native code gets depends on
  its generator, so messages leave the size blank.
-/

import ReversePolish.Source

namespace ReversePolish

inductive NativeError where
  | unsupported (o : Operator)
  | tooLarge (size limit : Nat)
  /-- There is no generator of native code. -/
  | unavailable
  deriving DecidableEq, Repr

def NativeError.message : NativeError → String
  | unsupported o => "Unsupported operator for native code: '" ++ o.symbol ++ "'"
  | tooLarge _ limit =>
    "Generated code is _ bytes, limit is " ++ toString limit ++ " bytes"
  | unavailable => "JIT support was not compiled in"

inductive BuildError where
  /-- The token is no literal, and there is no resolver or it has no source for it. -/
  | unresolved (symbol : String) (cause : Option ResolveError)
  /-- The operator at `position` found `available` values. -/
  | malformed (position : Nat) (token : String) (available : Nat)
  /-- `remaining` values were left at the end. -/
  | unbalanced (remaining : Nat)
  /-- No value was left at the end. -/
  | empty
  | native (error : NativeError)
  deriving DecidableEq, Repr

namespace BuildError

def message : BuildError → String
  | unresolved symbol none =>
    "Unresolved symbol '" ++ symbol ++ "': no symbol resolver is set"
  | unresolved symbol (some cause) => "Unresolved symbol '" ++ symbol ++ "': " ++ cause.message
  | malformed position token available =>
    "Malformed expression: operator '" ++ token ++ "' at token " ++ toString position ++
      " needs 2 operands, found " ++ toString available
  | unbalanced remaining =>
    "Unbalanced expression: expected 1 value on the stack, got " ++ toString remaining
  | empty => "Empty expression"
  | native error => "Code generation failed: " ++ error.message

def cause? : BuildError → Option String
  | unresolved _ cause => cause.map ResolveError.message
  | native error => some error.message
  | _ => none

end BuildError

/-- A build's result, the resolver's state after it, and the events it reported, in order. -/
structure Report (τ α : Type) where
  result : Except BuildError α
  lookups : τ
  events : List Event := []

end ReversePolish
