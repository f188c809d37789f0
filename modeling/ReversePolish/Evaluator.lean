/-
  ReversePolish.Evaluator — the three ways of evaluating a program.

  An evaluator is the flat stack machine, the call tree or a native routine, with the
  state it keeps between runs. All three evaluate the same program; which of them it is
  shows in the backend alone.
-/

import ReversePolish.Config
import ReversePolish.Evaluator.CallTree
import ReversePolish.Evaluator.Interpreter
import ReversePolish.Evaluator.Routine

namespace ReversePolish

inductive Evaluator (ι : Type) where
  | flat (machine : Interpreter ι)
  | tree (tree : CallTree ι)
  | native (routine : Routine ι)

namespace Evaluator

variable {ι σ : Type}

def backend : Evaluator ι → Backend
  | flat _ => .interpreter
  | tree _ => .tree
  | native _ => .native

def run (read : Reader ι σ) : Evaluator ι → σ → Except Fault (Float × Evaluator ι × σ)
  | flat machine, outside =>
    match machine.run read outside with
    | .error e => .error e
    | .ok (x, machine, outside) => .ok (x, flat machine, outside)
  | tree t, outside =>
    match t.eval read outside with
    | .error e => .error e
    | .ok (x, outside) => .ok (x, tree t, outside)
  | native routine, outside =>
    match routine.call read outside with
    | .error e => .error e
    | .ok (x, routine, outside) => .ok (x, native routine, outside)

def drop : Evaluator ι → List Event
  | native routine => routine.drop
  | _ => []

end Evaluator

end ReversePolish
