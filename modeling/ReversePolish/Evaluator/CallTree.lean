/-
  ReversePolish.Evaluator.CallTree — the program as a tree, evaluated by recursion.

  The nodes are kept in one array, in the order of the instructions they come from: a
  fetch gives a leaf with the operand's source, an operator a node that refers to its
  two operands by index. The root is the last node. Children come before their parent,
  which is what ends the recursion: a reference that does not point back is a fault. A
  leaf has depth 1, and loads happen from left to right.
-/

import ReversePolish.Program

namespace ReversePolish

/-- A node of a call tree; an operator refers to its operands by their index. -/
inductive TreeNode (ι : Type) where
  | leaf (source : Source ι)
  | apply (o : Operator) (lhs rhs : Nat)
  deriving DecidableEq

structure CallTree (ι : Type) where
  nodes : Array (TreeNode ι)
  root : Nat
  depth : Nat
  deriving DecidableEq

namespace CallTree

variable {ι σ : Type}

structure Growth (ι : Type) where
  nodes : Array (TreeNode ι) := #[]
  /-- The subtrees not yet taken by an operator, the last first: index and depth. -/
  roots : List (Nat × Nat) := []
  operands : List (Operand ι)

namespace Growth

/-- One more node, whose subtree is not yet taken. -/
def add (g : Growth ι) (node : TreeNode ι) (depth : Nat) : Growth ι :=
  let index := g.nodes.size
  { g with nodes := g.nodes.push node, roots := (index, depth) :: g.roots }

def step (g : Growth ι) : Instruction → Except Fault (Growth ι)
  | .fetch =>
    match g.operands with
    | [] => .error .operandMissing
    | operand :: operands => .ok ({ g with operands }.add (.leaf operand.source) 1)
  | .apply o =>
    match g.roots with
    | (rhs, rhsDepth) :: (lhs, lhsDepth) :: rest =>
      .ok ({ g with roots := rest }.add (.apply o lhs rhs) (max lhsDepth rhsDepth + 1))
    | _ => .error .stackUnderflow

def steps : List Instruction → Growth ι → Except Fault (Growth ι)
  | [], g => .ok g
  | i :: rest, g =>
    match g.step i with
    | .ok g => steps rest g
    | .error e => .error e

end Growth

def ofProgram (p : Program ι) : Except Fault (CallTree ι) :=
  match Growth.steps p.ops.toList { operands := p.operands.toList } with
  | .error e => .error e
  | .ok g =>
    match g.roots with
    | [] => .error .resultMissing
    | (root, depth) :: _ => .ok { nodes := g.nodes, root, depth }

def valueAt (read : Reader ι σ) (nodes : Array (TreeNode ι)) (i : Nat) (outside : σ) :
    Except Fault (Float × σ) :=
  match nodes[i]? with
  | none => .error .nodeMissing
  | some (.leaf source) => .ok (source.load read outside)
  | some (.apply o lhs rhs) =>
    -- the operands of a node come before it, which is why the recursion ends
    if lhs < i ∧ rhs < i then
      match valueAt read nodes lhs outside with
      | .error e => .error e
      | .ok (x, outside) =>
        match valueAt read nodes rhs outside with
        | .error e => .error e
        | .ok (y, outside) => .ok (o.apply x y, outside)
    else .error .nodeMissing
termination_by i

def eval (read : Reader ι σ) (t : CallTree ι) (outside : σ) : Except Fault (Float × σ) :=
  valueAt read t.nodes t.root outside

end CallTree

end ReversePolish
