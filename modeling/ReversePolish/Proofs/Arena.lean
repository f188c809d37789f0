/-
  ReversePolish.Proofs.Arena — the call tree of a program is its term.

  The nodes of a term at some offset (`arena`) are those of its left operand, those of its
  right operand and the operator, which refers to the last node of each. Growing a tree
  from the instructions of a term appends just these nodes (`steps_instructions`), so the
  tree of a program is the arena of its folded term, with the term's height as its depth
  (`ofProgram_ofTerm`). Evaluating it from the root is evaluating the term
  (`eval_ofTerm`), since every reference points back.

  How deep an evaluation recurs is told by evaluating with a bound on the calls that have
  not returned (`valueWithin`). It takes just as many as the tree is deep
  (`evalWithin_ofTerm`).
-/

import ReversePolish.Evaluator.CallTree
import ReversePolish.Proofs.Assembly

namespace ReversePolish

variable {ι σ : Type}

namespace Term

protected def height {α : Type} : Term α → Nat
  | leaf _ => 1
  | node _ l r => max l.height r.height + 1

/-- The nodes of a term, the first of them at `offset`. -/
def arena (offset : Nat) : Term (Operand ι) → List (TreeNode ι)
  | leaf operand => [.leaf operand.source]
  | node o l r =>
    l.arena offset ++ r.arena (offset + l.size) ++
      [.apply o (offset + l.size - 1) (offset + l.size + r.size - 1)]

theorem two_mul_height_le {α : Type} (t : Term α) : 2 * t.height ≤ t.size + 1 := by
  induction t with
  | leaf a => exact Nat.le_refl _
  | node o l r hl hr =>
    have hlp := l.size_pos
    have hrp := r.size_pos
    simp only [Term.height, size]
    omega

@[simp] theorem length_arena (t : Term (Operand ι)) (offset : Nat) : (t.arena offset).length = t.size := by
  induction t generalizing offset with
  | leaf operand => rfl
  | node o l r hl hr => simp only [arena, size, List.length_append, hl, hr, List.length_singleton]

end Term

namespace CallTree

/-- The instructions of a term append its nodes and leave their last as a root. -/
theorem steps_instructions (t : Term (Operand ι)) (rest : List Instruction) (after : List (Operand ι))
    (nodes : Array (TreeNode ι)) (roots : List (Nat × Nat)) :
    Growth.steps (t.instructions ++ rest) { nodes, roots, operands := t.leaves ++ after } =
      Growth.steps rest
        { nodes := nodes ++ (t.arena nodes.size).toArray
          roots := (nodes.size + t.size - 1, t.height) :: roots
          operands := after } := by
  induction t generalizing rest after nodes roots with
  | leaf operand => simp [Term.instructions, Term.leaves, Growth.steps, Growth.step, Growth.add, Term.arena, Term.size,
      Term.height]
  | node o l r ihl ihr =>
    simp only [Term.instructions, Term.leaves, List.append_assoc]
    rw [ihl, ihr]
    have hroot : nodes.size + (l.size + (r.size + 1)) - 1 = nodes.size + (l.size + r.size) := by omega
    simp only [List.singleton_append, Growth.steps, Growth.step, Growth.add, Term.arena, Term.size, Term.height]
    simp [Nat.add_assoc, hroot]

theorem ofProgram_ofTerm (t : Term (Operand ι)) :
    ofProgram (.ofTerm t) =
      .ok { nodes := (t.fold.arena 0).toArray, root := t.fold.size - 1, depth := t.fold.height } := by
  have h := steps_instructions t.fold [] [] #[] []
  rw [List.append_nil, List.append_nil] at h
  simp only [ofProgram, Program.ofTerm, Program.ofParts, h, Growth.steps]
  simp

theorem depth_of_ofProgram {t : Term (Operand ι)} {tree : CallTree ι} (h : ofProgram (.ofTerm t) = .ok tree) :
    tree.depth = t.fold.height := by
  rw [ofProgram_ofTerm] at h
  exact (congrArg depth (Except.ok.inj h)).symm

/-! ## Nodes of a term among others -/

def Stands (nodes : Array (TreeNode ι)) (before : List (TreeNode ι)) (t : Term (Operand ι)) : Prop :=
  ∃ after, nodes.toList = before ++ t.arena before.length ++ after

theorem stands_arena (t : Term (Operand ι)) : Stands (t.arena 0).toArray [] t := ⟨[], by simp⟩

section Standing

variable {nodes : Array (TreeNode ι)} {before : List (TreeNode ι)} {operand : Operand ι} {o : Operator}
  {l r : Term (Operand ι)}

theorem Stands.leaf (h : Stands nodes before (.leaf operand)) :
    nodes[before.length]? = some (.leaf operand.source) := by
  obtain ⟨after, h⟩ := h
  rw [← Array.getElem?_toList, h]
  simp [Term.arena]

theorem Stands.left (h : Stands nodes before (.node o l r)) : Stands nodes before l := by
  obtain ⟨after, h⟩ := h
  exact ⟨r.arena (before.length + l.size) ++ [.apply o (before.length + l.size - 1)
    (before.length + l.size + r.size - 1)] ++ after, by rw [h]; simp [Term.arena]⟩

theorem Stands.right (h : Stands nodes before (.node o l r)) : Stands nodes (before ++ l.arena before.length) r := by
  obtain ⟨after, h⟩ := h
  exact ⟨[.apply o (before.length + l.size - 1) (before.length + l.size + r.size - 1)] ++ after, by
    rw [h]; simp [Term.arena]⟩

theorem Stands.top (h : Stands nodes before (.node o l r)) :
    nodes[before.length + (l.size + r.size)]? =
      some (.apply o (before.length + l.size - 1) (before.length + l.size + r.size - 1)) := by
  obtain ⟨after, h⟩ := h
  rw [← Array.getElem?_toList, h]
  simp [Term.arena]

end Standing

/-- The operands of an operator end before it. -/
theorem ends_before (k : Nat) {α : Type} (l r : Term α) :
    k + l.size - 1 < k + (l.size + r.size) ∧ k + l.size + r.size - 1 < k + (l.size + r.size) := by
  have hlp := l.size_pos
  have hrp := r.size_pos
  omega

/-! ## Evaluation -/

/-- The value of the node at an index, with no more than `frames` calls at once; none if they do not suffice. -/
def valueWithin (read : Reader ι σ) (nodes : Array (TreeNode ι)) :
    Nat → Nat → σ → Option (Except Fault (Float × σ))
  | 0, _, _ => none
  | frames + 1, i, outside =>
    match nodes[i]? with
    | none => some (.error .nodeMissing)
    | some (.leaf source) => some (.ok (source.load read outside))
    | some (.apply o lhs rhs) =>
      if lhs < i ∧ rhs < i then
        match valueWithin read nodes frames lhs outside with
        | none => none
        | some (.error e) => some (.error e)
        | some (.ok (x, outside)) =>
          match valueWithin read nodes frames rhs outside with
          | none => none
          | some (.error e) => some (.error e)
          | some (.ok (y, outside)) => some (.ok (o.apply x y, outside))
      else some (.error .nodeMissing)

def evalWithin (read : Reader ι σ) (frames : Nat) (t : CallTree ι) (outside : σ) :
    Option (Except Fault (Float × σ)) :=
  valueWithin read t.nodes frames t.root outside

/-- Where the frames suffice, their number does not matter. -/
theorem valueAt_of_valueWithin {read : Reader ι σ} {nodes : Array (TreeNode ι)} {frames i : Nat} {outside : σ}
    {result : Except Fault (Float × σ)} (h : valueWithin read nodes frames i outside = some result) :
    valueAt read nodes i outside = result := by
  fun_induction valueWithin read nodes frames i outside generalizing result with
  | case1 => cases h
  | case2 frames i outside hn =>
    cases h
    rw [valueAt, hn]
  | case3 frames i outside source hn =>
    cases h
    rw [valueAt, hn]
  | case4 frames i outside o lhs rhs hn hi hl => cases h
  | case5 frames i outside o lhs rhs hn hi e hl ihl =>
    cases h
    rw [valueAt, hn]
    simp only [hi, and_self, if_true, ihl hl]
  | case6 frames i outside o lhs rhs hn hi x outside' hl hr => cases h
  | case7 frames i outside o lhs rhs hn hi x outside' hl e hr ihl ihr =>
    cases h
    rw [valueAt, hn]
    simp only [hi, and_self, if_true, ihl hl, ihr hr]
  | case8 frames i outside o lhs rhs hn hi x outside' hl y outside'' hr ihl ihr =>
    cases h
    rw [valueAt, hn]
    simp only [hi, and_self, if_true, ihl hl, ihr hr]
  | case9 frames i outside o lhs rhs hn hi =>
    cases h
    rw [valueAt, hn]
    simp only [hi, if_false]

/-- Wherever the nodes of a term stand, evaluating the last of them takes as many calls at once as the term is
    high. -/
theorem valueWithin_of_stands (read : Reader ι σ) {t : Term (Operand ι)} {nodes : Array (TreeNode ι)}
    {before : List (TreeNode ι)} (h : Stands nodes before t) (frames : Nat) (outside : σ) :
    valueWithin read nodes frames (before.length + t.size - 1) outside =
      if t.height ≤ frames then some (.ok (t.eval read outside)) else none := by
  induction t generalizing before frames outside with
  | leaf operand =>
    cases frames with
    | zero => rfl
    | succ frames =>
      have hh : (Term.leaf operand).height ≤ frames + 1 := Nat.le_add_left 1 frames
      simp only [Term.size, Nat.add_sub_cancel, valueWithin, h.leaf, if_pos hh]
      rfl
  | node o l r ihl ihr =>
    have hl := ihl h.left
    have hr := ihr h.right
    rw [List.length_append, Term.length_arena] at hr
    have hi : before.length + (Term.node o l r).size - 1 = before.length + (l.size + r.size) := by
      simp only [Term.size]; omega
    cases frames with
    | zero => rfl
    | succ frames =>
      have hh : (Term.node o l r).height ≤ frames + 1 ↔ l.height ≤ frames ∧ r.height ≤ frames := by
        simp only [Term.height]
        omega
      simp only [hi, valueWithin, h.top, if_pos (ends_before before.length l r), hl, hh]
      -- one frame is the operator, the others are there for each of its operands in turn
      by_cases hlf : l.height ≤ frames
      · by_cases hrf : r.height ≤ frames
        · simp only [hlf, hr, hrf, and_self, if_true]
          rfl
        · simp only [hlf, hr, hrf, and_false, if_true, if_false]
      · simp only [hlf, false_and, if_false]

theorem valueAt_of_stands (read : Reader ι σ) {t : Term (Operand ι)} {nodes : Array (TreeNode ι)}
    {before : List (TreeNode ι)} (h : Stands nodes before t) (outside : σ) :
    valueAt read nodes (before.length + t.size - 1) outside = .ok (t.eval read outside) := by
  have hw := valueWithin_of_stands read h t.height outside
  rw [if_pos (Nat.le_refl _)] at hw
  exact valueAt_of_valueWithin hw

/-- The call tree of the program of a term evaluates the term. -/
theorem eval_ofTerm (read : Reader ι σ) {t : Term (Operand ι)} {tree : CallTree ι}
    (h : ofProgram (.ofTerm t) = .ok tree) (outside : σ) : tree.eval read outside = .ok (t.eval read outside) := by
  rw [ofProgram_ofTerm] at h
  cases h
  have hv := valueAt_of_stands read (stands_arena t.fold) outside
  simp only [List.length_nil, Nat.zero_add] at hv
  rw [eval, hv, Term.eval_fold]

/-- It takes as many calls at once as the tree is deep. -/
theorem evalWithin_ofTerm (read : Reader ι σ) {t : Term (Operand ι)} {tree : CallTree ι}
    (h : ofProgram (.ofTerm t) = .ok tree) (frames : Nat) (outside : σ) :
    tree.evalWithin read frames outside = if tree.depth ≤ frames then some (tree.eval read outside) else none := by
  rw [eval_ofTerm read h outside]
  rw [ofProgram_ofTerm] at h
  cases h
  have hw := valueWithin_of_stands read (stands_arena t.fold) frames outside
  simp only [List.length_nil, Nat.zero_add] at hw
  rw [evalWithin, hw, Term.eval_fold]

end CallTree

end ReversePolish
