/-
  ReversePolish.Expression — a built expression, ready to be evaluated many times.

  An expression keeps the text it was built from, its program, one evaluator of it, and a
  memory. While memoization is on, the first value is kept and answered from then on
  without running the evaluator, so no loader is read; `invalidate` drops it and so does
  turning memoization off. An evaluation asks for a kept value only and not for
  the flag: a value is kept only while the flag is on.
-/

import ReversePolish.Double.Text
import ReversePolish.Evaluator
import ReversePolish.Text.Quoted

namespace ReversePolish

structure Expression (ι : Type) where
  text : String
  program : Program ι
  evaluator : Evaluator ι
  memoize : Bool := false
  cached : Option Float := none

namespace Expression

variable {ι σ : Type}

def backend (e : Expression ι) : Backend := e.evaluator.backend

def eval (read : Reader ι σ) (e : Expression ι) (outside : σ) :
    Except Fault (Float × Expression ι × σ) :=
  match e.cached with
  | some x => .ok (x, e, outside)
  | none =>
    match e.evaluator.run read outside with
    | .error fault => .error fault
    | .ok (x, evaluator, outside) =>
      .ok (x, { e with evaluator, cached := if e.memoize then some x else none }, outside)

def setMemoization (e : Expression ι) (enabled : Bool) : Bool × Expression ι :=
  (e.memoize, { e with memoize := enabled, cached := if enabled then e.cached else none })

def invalidate (e : Expression ι) : Expression ι := { e with cached := none }

def drop (e : Expression ι) : List Event := e.evaluator.drop

def inspect (e : Expression ι) : String :=
  let cached :=
    match e.cached with
    | none => "None"
    | some x => "Some(" ++ Double.exact x ++ ")"
  "CompiledExpression \x7b description: " ++ Text.quote e.text ++
    ", backend: " ++ e.backend.label ++
    ", memoize: " ++ toString e.memoize ++
    ", cached: " ++ cached ++ " \x7d"

end Expression

end ReversePolish
