/-
  ReversePolish.Evaluator.Interpreter — the flat stack machine.

  An interpreter owns one stack of as many places as the program's depth and uses it
  again for every run. A fetch reads its operand when it is its turn, so loads and
  operators take turns as the program has them. Every access is checked: a program
  that is none ends in a fault.
-/

import ReversePolish.Program
import ReversePolish.Stack

namespace ReversePolish

structure Interpreter (ι : Type) where
  program : Program ι
  stack : Stack

namespace Interpreter

variable {ι σ : Type}

def ofProgram (p : Program ι) : Interpreter ι :=
  { program := p, stack := .ofSize p.maxDepth }

/-- The machine in the middle of a run. -/
structure Frame (σ : Type) where
  stack : Stack
  fetched : Nat := 0
  outside : σ

def step (read : Reader ι σ) (operands : Array (Operand ι)) (f : Frame σ) :
    Instruction → Except Fault (Frame σ)
  | .fetch =>
    match operands[f.fetched]? with
    | none => .error .operandMissing
    | some operand =>
      let (x, outside) := operand.source.load read f.outside
      (f.stack.push x).map fun stack => { stack, fetched := f.fetched + 1, outside }
  | .apply o => (f.stack.combine o.apply).map fun stack => { f with stack }

def steps (read : Reader ι σ) (operands : Array (Operand ι)) :
    List Instruction → Frame σ → Except Fault (Frame σ)
  | [], f => .ok f
  | i :: rest, f =>
    match step read operands f i with
    | .ok f => steps read operands rest f
    | .error e => .error e

def run (read : Reader ι σ) (m : Interpreter ι) (outside : σ) :
    Except Fault (Float × Interpreter ι × σ) :=
  let start : Frame σ := { stack := m.stack.clear, outside }
  match steps read m.program.operands m.program.ops.toList start with
  | .error e => .error e
  | .ok f => f.stack.top.map fun x => (x, { m with stack := f.stack }, f.outside)

end Interpreter

end ReversePolish
