/-
  ReversePolish.Program — the stack program that every evaluator runs.

  A program is a list of instructions with a list of operands; the k-th `fetch` pushes
  the k-th operand, an operator replaces the two topmost values by one. An operand keeps
  the token it comes from, or the text of the constant it was folded to, as its name.
  The depth of the stack is found by going through the instructions once.
-/

import ReversePolish.Error

namespace ReversePolish

structure Operand (ι : Type) where
  name : String
  source : Source ι
  deriving DecidableEq

structure Program (ι : Type) where
  ops : Array Instruction
  operands : Array (Operand ι)
  /-- The most values that are on the stack at once. -/
  maxDepth : Nat
  folded : Nat
  deriving DecidableEq

namespace Program

variable {ι : Type}

/-! ## The depth of the stack -/

/-- The present depth and the greatest so far, after one more instruction. -/
def depthStep (d : Nat × Nat) : Instruction → Nat × Nat
  | .fetch => (d.1 + 1, max d.2 (d.1 + 1))
  | .apply _ => (d.1 - 1, d.2)

def stackDepth (ops : List Instruction) : Nat := (ops.foldl depthStep (0, 0)).2

def ofParts (ops : Array Instruction) (operands : Array (Operand ι)) (folded : Nat) :
    Program ι :=
  { ops, operands, maxDepth := stackDepth ops.toList, folded }

/-! ## Questions -/

/-- The places of the operands that are read anew on every evaluation. -/
def dynamicSlots (p : Program ι) : List Nat :=
  p.operands.toList.zipIdx.filterMap fun (operand, slot) =>
    if operand.source.isConstant then none else some slot

def contains (p : Program ι) (o : Operator) : Bool := p.ops.contains (.apply o)

/-- The value, if the program is a single constant. -/
def constant? (p : Program ι) : Option Float :=
  match p.ops.toList, p.operands.toList with
  | [.fetch], [operand] => operand.source.constant?
  | _, _ => none

/-- The first operator that has no native instruction. -/
def unsupported? (p : Program ι) : Option Operator :=
  p.ops.toList.findSome? fun
    | .fetch => none
    | .apply o => if o.isNative then none else some o

def builtEvent (p : Program ι) : Event :=
  .programBuilt p.ops.size p.operands.size p.folded p.maxDepth

end Program

end ReversePolish
