/-
  ReversePolish.Proofs.Shape — the nodes of a call tree are a tree, and how great it is.

  The nodes refer to each other by index, so an array of them might be read twice or run in
  a circle. Those of a term do not. References point back (`lt_of_mem_children_arena`), and
  all of them together are the indices of all nodes but the last, each once
  (`children_arena_perm`); so every node but the root has one parent. The leaves hold the
  sources of the operands in order.

  Two ways of going through the nodes are told apart. An evaluation that also writes down
  where it is (`valueVisiting`) comes by every node once, whatever is read
  (`visits_perm`). And the nodes can be read back as a term, each leaf with the operand
  of as many fetches as there are leaves before it (`termAt`): it is the term that they were
  made from (`termAt_of_stands`), and its height is the depth that the tree states.

  A term is never higher than half its size, and needs no more places than it is high.
  `call_tree_shaped` states all of this of the program of a text.
-/

import Mathlib.Data.List.Nodup
import Mathlib.Logic.ExistsUnique
import ReversePolish.Proofs.Arena

namespace ReversePolish

variable {τ ι σ : Type}

namespace TreeNode

def children : TreeNode ι → List Nat
  | leaf _ => []
  | apply _ lhs rhs => [lhs, rhs]

def source? : TreeNode ι → Option (Source ι)
  | leaf source => some source
  | apply _ _ _ => none

end TreeNode

namespace Term

/-! ## Size, height and need -/

/-- There is one leaf more than there are operators. -/
theorem size_add_one {α : Type} (t : Term α) : t.size + 1 = 2 * t.leaves.length := by
  induction t with
  | leaf a => rfl
  | node o l r hl hr =>
    simp only [size, leaves, List.length_append]
    omega

theorem need_le_height {α : Type} (t : Term α) : t.need ≤ t.height := by
  induction t with
  | leaf a => exact Nat.le_refl _
  | node o l r hl hr =>
    simp only [need, Term.height]
    omega

/-! ## References -/

theorem source?_arena (t : Term (Operand ι)) (offset : Nat) :
    (t.arena offset).filterMap TreeNode.source? = t.leaves.map Operand.source := by
  induction t generalizing offset with
  | leaf operand => rfl
  | node o l r hl hr =>
    simp only [arena, leaves, List.filterMap_append, hl, hr, List.map_append]
    exact List.append_nil _

/-- References point back. -/
theorem lt_of_mem_children_arena {t : Term (Operand ι)} {offset i : Nat} {node : TreeNode ι}
    (h : (t.arena offset)[i]? = some node) : ∀ child ∈ node.children, child < offset + i := by
  induction t generalizing offset i with
  | leaf operand =>
    cases List.mem_singleton.mp (List.mem_of_getElem? h)
    exact List.forall_mem_nil _
  | node o l r ihl ihr =>
    have hlp := l.size_pos
    have hrp := r.size_pos
    simp only [arena, List.getElem?_append, List.length_append, length_arena] at h
    by_cases hr : i < l.size + r.size
    · rw [if_pos hr] at h
      by_cases hl : i < l.size
      · rw [if_pos hl] at h
        exact ihl h
      · rw [if_neg hl] at h
        intro child hc
        have := ihr h child hc
        omega
    · rw [if_neg hr] at h
      cases List.mem_singleton.mp (List.mem_of_getElem? h)
      intro child hc
      simp only [TreeNode.children, List.mem_cons, List.not_mem_nil, or_false] at hc
      omega

theorem range'_sub_one_append {k n : Nat} (h : 0 < n) :
    List.range' k (n - 1) ++ [k + n - 1] = List.range' k n := by
  obtain ⟨m, rfl⟩ := Nat.exists_eq_succ_of_ne_zero (Nat.ne_of_gt h)
  have hk : k + m.succ - 1 = k + 1 * m := by omega
  rw [Nat.succ_sub_one, hk, ← List.range'_concat]

/-- Every node but the last is referred to once. -/
theorem children_arena_perm (t : Term (Operand ι)) (offset : Nat) :
    ((t.arena offset).flatMap TreeNode.children).Perm (List.range' offset (t.size - 1)) := by
  induction t generalizing offset with
  | leaf operand => exact List.Perm.refl _
  | node o l r hl hr =>
    simp only [arena, List.flatMap_append, List.flatMap_singleton, TreeNode.children, size, Nat.add_sub_cancel]
    rw [← List.range'_append_1, ← range'_sub_one_append l.size_pos, ← range'_sub_one_append r.size_pos,
      List.append_assoc, List.append_assoc, List.singleton_append]
    -- the last of the left operand moves before the nodes of the right one
    exact (hl offset).append (((hr _).append_right _).trans List.perm_middle)

/-! ## The way through the nodes -/

/-- The indices of the nodes in the order of their evaluation, the operator before its operands. -/
def visits (offset : Nat) : Term (Operand ι) → List Nat
  | leaf _ => [offset]
  | node _ l r => (offset + (l.size + r.size)) :: (l.visits offset ++ r.visits (offset + l.size))

theorem visits_perm (t : Term (Operand ι)) (offset : Nat) :
    (t.visits offset).Perm (List.range' offset t.size) := by
  induction t generalizing offset with
  | leaf operand => exact List.Perm.refl _
  | node o l r hl hr =>
    rw [visits, size, List.range'_concat, Nat.one_mul, ← List.range'_append_1]
    exact (((hl offset).append (hr _)).cons _).trans (List.perm_append_singleton _ _).symm

end Term

namespace CallTree

def valueVisiting (read : Reader ι σ) (nodes : Array (TreeNode ι)) (i : Nat) (outside : σ) :
    Except Fault ((Float × σ) × List Nat) :=
  match nodes[i]? with
  | none => .error .nodeMissing
  | some (.leaf source) => .ok (source.load read outside, [i])
  | some (.apply o lhs rhs) =>
    if lhs < i ∧ rhs < i then
      match valueVisiting read nodes lhs outside with
      | .error e => .error e
      | .ok ((x, outside), left) =>
        match valueVisiting read nodes rhs outside with
        | .error e => .error e
        | .ok ((y, outside), right) => .ok ((o.apply x y, outside), i :: (left ++ right))
    else .error .nodeMissing
termination_by i

/-- Writing the indices down does not change the value. -/
theorem valueAt_of_valueVisiting (read : Reader ι σ) (nodes : Array (TreeNode ι)) (i : Nat) (outside : σ) :
    valueAt read nodes i outside = (valueVisiting read nodes i outside).map Prod.fst := by
  fun_induction valueVisiting read nodes i outside with
  | case1 i outside hn => rw [valueAt, hn]; rfl
  | case2 i outside source hn => rw [valueAt, hn]; rfl
  | case3 i outside o lhs rhs hn hi e hl ihl =>
    rw [hl] at ihl
    rw [valueAt, hn]
    simp only [hi, and_self, if_true, ihl]
    rfl
  | case4 i outside o lhs rhs hn hi x outside' left hl e hr ihl ihr =>
    rw [hl] at ihl
    rw [hr] at ihr
    rw [valueAt, hn]
    simp only [hi, and_self, if_true, ihl, Except.map, ihr]
  | case5 i outside o lhs rhs hn hi x outside' left hl y outside'' right hr ihl ihr =>
    rw [hl] at ihl
    rw [hr] at ihr
    rw [valueAt, hn]
    simp only [hi, and_self, if_true, ihl, Except.map, ihr]
  | case6 i outside o lhs rhs hn hi =>
    rw [valueAt, hn]
    simp only [hi, if_false]
    rfl

/-- Wherever the nodes of a term stand, evaluating the last of them comes by all of them. -/
theorem valueVisiting_of_stands (read : Reader ι σ) {t : Term (Operand ι)} {nodes : Array (TreeNode ι)}
    {before : List (TreeNode ι)} (h : Stands nodes before t) (outside : σ) :
    valueVisiting read nodes (before.length + t.size - 1) outside =
      .ok (t.eval read outside, t.visits before.length) := by
  induction t generalizing before outside with
  | leaf operand =>
    simp only [Term.size, Nat.add_sub_cancel]
    rw [valueVisiting, h.leaf]
    rfl
  | node o l r ihl ihr =>
    have hl := ihl h.left
    have hr := ihr h.right
    rw [List.length_append, Term.length_arena] at hr
    have hi : before.length + (Term.node o l r).size - 1 = before.length + (l.size + r.size) := by
      simp only [Term.size]; omega
    rw [hi, valueVisiting, h.top]
    simp only [if_pos (ends_before before.length l r), hl, hr]
    rfl

/-! ## The nodes read back -/

def leavesBefore (nodes : Array (TreeNode ι)) (i : Nat) : Nat :=
  ((nodes.toList.take i).filterMap TreeNode.source?).length

/-- The term of the node at an index. A leaf stands for the operand of its fetch: of as many fetches as there are
    leaves before it. -/
def termAt (nodes : Array (TreeNode ι)) (operands : List (Operand ι)) (i : Nat) : Option (Term (Operand ι)) :=
  match nodes[i]? with
  | none => none
  | some (.leaf _) => operands[leavesBefore nodes i]?.map .leaf
  | some (.apply o lhs rhs) =>
    if lhs < i ∧ rhs < i then
      match termAt nodes operands lhs, termAt nodes operands rhs with
      | some l, some r => some (.node o l r)
      | _, _ => none
    else none
termination_by i

theorem termAt_of_stands {t : Term (Operand ι)} {nodes : Array (TreeNode ι)} {before : List (TreeNode ι)}
    (h : Stands nodes before t) (fetched after : List (Operand ι))
    (hf : fetched.length = (before.filterMap TreeNode.source?).length) :
    termAt nodes (fetched ++ t.leaves ++ after) (before.length + t.size - 1) = some t := by
  induction t generalizing before fetched after with
  | leaf operand =>
    have hb : leavesBefore nodes before.length = fetched.length := by
      obtain ⟨rest, hn⟩ := h
      rw [leavesBefore, hn, List.append_assoc, List.take_left, hf]
    simp only [Term.size, Nat.add_sub_cancel]
    rw [termAt, h.leaf]
    simp [hb, Term.leaves]
  | node o l r ihl ihr =>
    have hl := ihl h.left fetched (r.leaves ++ after) hf
    have hr := ihr h.right (fetched ++ l.leaves) after (by
      simp only [List.length_append, List.filterMap_append, hf, Term.source?_arena, List.length_map])
    rw [List.length_append, Term.length_arena] at hr
    have hi : before.length + (Term.node o l r).size - 1 = before.length + (l.size + r.size) := by
      simp only [Term.size]; omega
    simp only [Term.leaves, ← List.append_assoc] at hl ⊢
    rw [hi, termAt, h.top]
    simp only [if_pos (ends_before before.length l r), hl, hr]

/-! ## Parents -/

def IsParent (nodes : Array (TreeNode ι)) (parent child : Nat) : Prop :=
  ∃ node : TreeNode ι, nodes[parent]? = some node ∧ child ∈ node.children

/-- If all references together are the numbers below a bound, each once, each number below it has one parent. -/
theorem existsUnique_parent {nodes : Array (TreeNode ι)} {n : Nat}
    (h : (nodes.toList.flatMap TreeNode.children).Perm (List.range n)) {i : Nat} (hi : i < n) :
    ∃! j, IsParent nodes j i := by
  obtain ⟨node, hmem, hc⟩ := List.mem_flatMap.mp (h.mem_iff.mpr (List.mem_range.mpr hi))
  obtain ⟨j, hj, hnode⟩ := List.mem_iff_getElem.mp hmem
  have hdisjoint := List.pairwise_iff_getElem.mp (List.nodup_flatMap.mp (h.nodup_iff.mpr List.nodup_range)).2
  refine ⟨j, ⟨node, by rw [← Array.getElem?_toList, List.getElem?_eq_getElem hj, hnode], hc⟩, ?_⟩
  intro k hk
  obtain ⟨other, hother, hc'⟩ := hk
  rw [← Array.getElem?_toList] at hother
  obtain ⟨hk, hother⟩ := List.getElem?_eq_some_iff.mp hother
  rw [← hnode] at hc
  rw [← hother] at hc'
  rcases Nat.lt_trichotomy k j with hlt | heq | hlt
  · exact absurd hc (hdisjoint k j hk hj hlt hc')
  · exact heq
  · exact absurd hc' (hdisjoint j k hj hk hlt hc)

/-! ## The tree of a program -/

structure Shaped (p : Program ι) (tree : CallTree ι) : Prop where
  size : tree.nodes.size = p.ops.size
  /-- The root is the last node. -/
  root : tree.root + 1 = tree.nodes.size
  back : ∀ i o lhs rhs, tree.nodes[i]? = some (TreeNode.apply o lhs rhs) → lhs < i ∧ rhs < i
  parent : ∀ i < tree.nodes.size, i ≠ tree.root → ∃! j, IsParent tree.nodes j i
  /-- No node is referred to twice, not by the same operator either, and the root is not at all. -/
  references : (tree.nodes.toList.flatMap TreeNode.children).Perm (List.range tree.root)
  leaves : tree.nodes.toList.filterMap TreeNode.source? = p.operands.toList.map Operand.source
  /-- An evaluation ends, and evaluates every node once. -/
  visits : ∀ {σ : Type} (read : Reader ι σ) (outside : σ), ∃ result visited,
    valueVisiting read tree.nodes tree.root outside = .ok (result, visited) ∧
      tree.eval read outside = .ok result ∧ visited.Perm (List.range tree.nodes.size)
  height : ∃ t, termAt tree.nodes p.operands.toList tree.root = some t ∧ t.size = tree.nodes.size ∧
    tree.depth = t.height
  stack : p.maxDepth ≤ tree.depth
  depth : 2 * tree.depth ≤ p.ops.size + 1
  operands : p.ops.size = 2 * p.operands.size - 1

/-- The nodes of the folded term stand alone in the tree of its program. -/
theorem termAt_ofTerm {t : Term (Operand ι)} {tree : CallTree ι} (h : ofProgram (.ofTerm t) = .ok tree) :
    termAt tree.nodes (Program.ofTerm t).operands.toList tree.root = some t.fold := by
  rw [ofProgram_ofTerm] at h
  cases h
  have ht := termAt_of_stands (stands_arena t.fold) [] [] rfl
  simp only [List.nil_append, List.append_nil, List.length_nil, Nat.zero_add] at ht
  exact ht

theorem shaped_ofTerm {t : Term (Operand ι)} {tree : CallTree ι} (h : ofProgram (.ofTerm t) = .ok tree) :
    Shaped (.ofTerm t) tree := by
  have hback := termAt_ofTerm h
  rw [ofProgram_ofTerm] at h
  cases h
  have hp := t.fold.size_pos
  have hsize : (t.fold.arena 0).toArray.size = t.fold.size := by rw [List.size_toArray, Term.length_arena]
  have hops : (Program.ofTerm t).ops.size = t.fold.size := by
    rw [Program.ofTerm, Program.ofParts, List.size_toArray, Term.length_instructions]
  have hoperands : (Program.ofTerm t).operands.size = t.fold.leaves.length := by
    rw [Program.ofTerm, Program.ofParts, List.size_toArray]
  have hreferences : ((t.fold.arena 0).flatMap TreeNode.children).Perm (List.range (t.fold.size - 1)) := by
    rw [List.range_eq_range']
    exact t.fold.children_arena_perm 0
  refine
    { size := by rw [hsize, hops]
      root := by rw [hsize]; exact Nat.sub_add_cancel hp
      back := ?_
      parent := ?_
      references := hreferences
      leaves := t.fold.source?_arena 0
      visits := ?_
      height := ⟨t.fold, hback, hsize.symm, rfl⟩
      stack := by rw [Program.maxDepth_ofTerm]; exact t.fold.need_le_height
      depth := by rw [hops]; exact t.fold.two_mul_height_le
      operands := by rw [hops, hoperands]; have := t.fold.size_add_one; omega }
  · intro i o lhs rhs hi
    rw [List.getElem?_toArray] at hi
    have hc := Term.lt_of_mem_children_arena hi
    rw [Nat.zero_add] at hc
    exact ⟨hc lhs List.mem_cons_self, hc rhs (List.mem_cons_of_mem _ List.mem_cons_self)⟩
  · intro i hi hroot
    rw [hsize] at hi
    exact existsUnique_parent hreferences (Nat.lt_of_le_of_ne (Nat.le_sub_one_of_lt hi) hroot)
  · intro σ read outside
    have hv := valueVisiting_of_stands read (stands_arena t.fold) outside
    rw [List.length_nil, Nat.zero_add] at hv
    refine ⟨_, _, hv, ?_, ?_⟩
    · rw [eval, valueAt_of_valueVisiting, hv]
      rfl
    · rw [hsize, List.range_eq_range']
      exact t.fold.visits_perm 0

end CallTree

/-- The tree of every program of a text is as high as half the program at most, and is gone through once. -/
theorem call_tree_shaped {resolver : Option (Resolver τ ι)} {text : String} {lookups : τ} {p : Program ι}
    (h : (Program.parse resolver text lookups).result = .ok p) :
    ∃ tree, CallTree.ofProgram p = .ok tree ∧ CallTree.Shaped p tree := by
  obtain ⟨t, -, -, -, rfl⟩ := Program.parse_eq_ok_iff.mp h
  exact ⟨_, CallTree.ofProgram_ofTerm t, CallTree.shaped_ofTerm (CallTree.ofProgram_ofTerm t)⟩

/-- Four operands joined in pairs, one of them folded, make seven nodes. -/
theorem call_tree_shaped_pairs :
    ∃ p, (Program.parse (some Resolver.itself) "a b + 1 2 * d + -" ()).result = .ok p ∧ p.ops.size = 7 ∧
      ∃ tree, CallTree.ofProgram p = .ok tree ∧ CallTree.Shaped p tree := by
  have hs : (Program.parse (some Resolver.itself) "a b + 1 2 * d + -" ()).result.toOption.map (fun p => p.ops.size) =
      some 7 := by
    decide +kernel
  cases hp : (Program.parse (some Resolver.itself) "a b + 1 2 * d + -" ()).result with
  | error e => rw [hp] at hs; cases hs
  | ok p =>
    rw [hp] at hs
    exact ⟨p, rfl, Option.some.inj hs, call_tree_shaped hp⟩

end ReversePolish
