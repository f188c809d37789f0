/-
  ReversePolish.Proofs.Blocks — what an assembler keeps true of itself.

  However tokens were offered to it, taken or refused, its instructions are consecutive
  blocks, one for every entry of the construction stack. A block leaves one value, and
  there is only one way to cut the instructions so (`Cut.unique`): no block ends in
  another one. The entry of a block is a constant exactly if the block is a single fetch
  of one, so two constant entries on top stand for the last two instructions and the
  last two operands. The two counters and the two lists agree on how many tokens there
  were (`ofTokens_coherent`).
-/

import Mathlib.Data.List.Induction
import ReversePolish.Proofs.Depth

namespace ReversePolish

variable {τ ι : Type}

/-! ## Blocks -/

namespace Program

/-- The instructions are cut into blocks, each of which leaves one value on an empty stack. -/
structure Cut (ops : List Instruction) (blocks : List (List Instruction)) : Prop where
  flatten : blocks.flatten = ops
  leavesOne : ∀ block ∈ blocks, depthAfter? block 0 = some 1

/-- A block that ends in a block is that block. -/
theorem eq_nil_of_leavesOne {before block : List Instruction} (h : depthAfter? (before ++ block) 0 = some 1)
    (hb : depthAfter? block 0 = some 1) : before = [] := by
  rw [depthAfter?_append] at h
  obtain ⟨d, hd, h⟩ := Option.bind_eq_some_iff.mp h
  have hadd := depthAfter?_add hb d
  rw [Nat.zero_add, h] at hadd
  obtain rfl : d = 0 := by
    have := Option.some.inj hadd
    omega
  exact eq_nil_of_depthAfter? hd

theorem Cut.unique {ops : List Instruction} {bs cs : List (List Instruction)} (hb : Cut ops bs) (hc : Cut ops cs) :
    bs = cs := by
  obtain ⟨rfl, hb⟩ := hb
  obtain ⟨hf, hc⟩ := hc
  -- The last blocks of both end the same instructions, so neither is longer than the other.
  induction bs using List.reverseRecOn generalizing cs with
  | nil =>
    rw [List.flatten_nil, List.flatten_eq_nil_iff] at hf
    match cs, hf, hc with
    | [], _, _ => rfl
    | c :: cs, hf, hc =>
      have h := hc c List.mem_cons_self
      rw [hf c List.mem_cons_self] at h
      cases h
  | append_singleton bs b ih =>
    have hb1 : depthAfter? b 0 = some 1 := hb b (by simp)
    cases cs using List.reverseRecOn with
    | nil =>
      simp only [List.flatten_nil, List.flatten_append, List.flatten_singleton, List.nil_eq,
        List.append_eq_nil_iff] at hf
      rw [hf.2] at hb1
      cases hb1
    | append_singleton cs c =>
      have hc1 : depthAfter? c 0 = some 1 := hc c (by simp)
      simp only [List.flatten_append, List.flatten_singleton] at hf
      have hsame : cs.flatten = bs.flatten ∧ c = b := by
        rcases List.append_eq_append_iff.mp hf with ⟨x, hx, rfl⟩ | ⟨x, hx, rfl⟩
        · obtain rfl := eq_nil_of_leavesOne hc1 hb1
          exact ⟨by rw [hx, List.append_nil], rfl⟩
        · obtain rfl := eq_nil_of_leavesOne hb1 hc1
          exact ⟨by rw [hx, List.append_nil], rfl⟩
      obtain ⟨hflat, rfl⟩ := hsame
      rw [ih (fun block h => hb block (by simp [h])) hflat fun block h => hc block (by simp [h])]

end Program

open Program

theorem Term.cut_instructions {α : Type} (ts : List (Term α)) :
    Cut (ts.flatMap Term.instructions) (ts.map Term.instructions) where
  flatten := List.flatMap_def.symm
  leavesOne := by
    intro block h
    obtain ⟨t, -, rfl⟩ := List.mem_map.mp h
    exact t.depthAfter?_instructions 0

/-! ## What an assembler keeps -/

def operatorsOf (tokens : List String) : Nat := tokens.countP fun token => (Operator.ofSymbol? token).isSome

def valuesOf (tokens : List String) : Nat := tokens.countP fun token => (Operator.ofSymbol? token).isNone

namespace Assembler

/-- There is a block for every entry, the bottom one first. The entry is a constant exactly if the
    block is a single fetch and its operand, the next after those of the blocks before, is one. -/
structure Entries (a : Assembler ι) (blocks : List (List Instruction)) : Prop where
  length : blocks.length = a.pending.length
  entry : ∀ k block, blocks[k]? = some block → ∃ entry, a.pending.reverse[k]? = some entry ∧
    ∀ x, entry = some x ↔ block = [.fetch] ∧
      ∃ name, a.operands[(blocks.take k).flatten.count .fetch]? = some { name, source := .constant x }

structure Coherent (a : Assembler ι) (taken : List String) : Prop where
  fetches : a.ops.toList.count .fetch = a.operands.size
  depth : depthAfter? a.ops.toList 0 = some a.pending.length
  blocks : ∃ blocks, Cut a.ops.toList blocks ∧ (∀ others, Cut a.ops.toList others → others = blocks) ∧ a.Entries blocks
  position : a.position = a.ops.size + 2 * a.folded
  tokens : a.position = valuesOf taken + operatorsOf taken
  values : a.operands.size + a.folded = valuesOf taken

/-- The fetches of two constants were the last two instructions, these were the last two operands,
    and nothing else was taken back for the fetch of the operator's value. -/
def FoldsLast (a a' : Assembler ι) (o : Operator) (lhs rhs value : Float) : Prop :=
  value = o.apply lhs rhs ∧ ∃ ops operands l r,
    a.ops.toList = ops ++ [.fetch, .fetch] ∧
    a.operands.toList = operands ++ [{ name := l, source := .constant lhs }, { name := r, source := .constant rhs }] ∧
    a'.ops.toList = ops ++ [.fetch] ∧
    a'.operands.toList = operands ++ [{ name := Double.plain value, source := .constant value }]

/-! ## The assembler of some terms -/

theorem ops_ofTerms (ts : List (Term (Operand ι))) :
    (ofTerms ts).ops.toList = (ts.map Term.fold).reverse.flatMap Term.instructions := by
  rw [← List.map_reverse, List.flatMap_map]
  rfl

theorem operands_ofTerms (ts : List (Term (Operand ι))) :
    (ofTerms ts).operands.toList = (ts.map Term.fold).reverse.flatMap Term.leaves := by
  rw [← List.map_reverse, List.flatMap_map]
  rfl

theorem pending_ofTerms (ts : List (Term (Operand ι))) :
    (ofTerms ts).pending.reverse = (ts.map Term.fold).reverse.map Term.constant? := by
  simp [ofTerms, List.map_reverse, Function.comp_def]

end Assembler

namespace Term

theorem count_fetch_flatMap {α : Type} (ts : List (Term α)) :
    (ts.flatMap instructions).count .fetch = (ts.flatMap leaves).length := by
  simp only [List.count_flatMap, List.length_flatMap, Function.comp_def, count_fetch_instructions]

/-- A term is a constant exactly if it is one fetch, and the operand at its place is a constant. -/
theorem constant?_iff_fetch {ts : List (Term (Operand ι))} {k : Nat} {t : Term (Operand ι)} (h : ts[k]? = some t)
    (x : Float) :
    t.constant? = some x ↔ t.instructions = [.fetch] ∧
      ∃ name, (ts.flatMap leaves)[((ts.take k).flatMap instructions).count .fetch]? =
        some { name, source := .constant x } := by
  obtain ⟨hk, rfl⟩ := List.getElem?_eq_some_iff.mp h
  have hsplit :
      ts.flatMap leaves = (ts.take k).flatMap leaves ++ (ts[k].leaves ++ (ts.drop (k + 1)).flatMap leaves) := by
    rw [← List.flatMap_cons, List.getElem_cons_drop, ← List.flatMap_append, List.take_append_drop]
  rw [count_fetch_flatMap, hsplit, List.getElem?_append_right (Nat.le_refl _), Nat.sub_self]
  cases ts[k] with
  | leaf operand =>
    obtain ⟨name, source⟩ := operand
    cases source <;> simp [instructions, leaves]
  | node o l r =>
    have hn : (node o l r).instructions ≠ [.fetch] := by
      intro he
      have := congrArg List.length he
      simp only [length_instructions, size, List.length_singleton] at this
      have := l.size_pos
      omega
    simp [hn]

theorem valuesOf_names {t : Term (Operand ι)} (h : t.Valued) : valuesOf t.names = t.leaves.length := by
  induction t with
  | leaf operand => simp [valuesOf, tokens, leaves, valued_leaf.mp h]
  | node o l r hl hr =>
    obtain ⟨hvl, hvr⟩ := valued_node.mp h
    simp only [valuesOf, names, tokens, leaves, List.countP_append, List.length_append] at hl hr ⊢
    rw [hl hvl, hr hvr]
    simp

theorem valuesOf_namesAll {ts : List (Term (Operand ι))} (h : ∀ t ∈ ts, t.Valued) :
    valuesOf (namesAll ts) = total (fun t => t.leaves.length) ts := by
  induction ts with
  | nil => rfl
  | cons t ts ih =>
    have ht := valuesOf_names (h t List.mem_cons_self)
    have hts := ih fun u hu => h u (List.mem_cons_of_mem _ hu)
    simp only [valuesOf] at ht hts
    simp only [valuesOf, namesAll_cons, List.countP_append, total, ht, hts, Nat.add_comm]

theorem length_namesAll (ts : List (Term (Operand ι))) : (namesAll ts).length = total size ts := by
  induction ts with
  | nil => rfl
  | cons t ts ih => simp only [namesAll_cons, List.length_append, length_tokens, total, ih, Nat.add_comm]

end Term

theorem valuesOf_add_operatorsOf (tokens : List String) : valuesOf tokens + operatorsOf tokens = tokens.length := by
  induction tokens with
  | nil => rfl
  | cons token rest ih =>
    simp only [valuesOf, operatorsOf, List.countP_cons, List.length_cons] at ih ⊢
    cases Operator.ofSymbol? token <;> simp <;> omega

namespace Assembler

theorem position_ofTerms (ts : List (Term (Operand ι))) :
    (ofTerms ts).position = (ofTerms ts).ops.size + 2 * (ofTerms ts).folded := by
  induction ts with
  | nil => rfl
  | cons t ts ih =>
    have ht := t.size_fold
    simp only [ofTerms, List.size_toArray, List.reverse_cons, List.flatMap_append, List.flatMap_singleton,
      List.length_append, Term.length_instructions, Term.total] at ih ⊢
    omega

theorem size_operands_ofTerms (ts : List (Term (Operand ι))) :
    (ofTerms ts).operands.size + (ofTerms ts).folded = Term.total (fun t => t.leaves.length) ts := by
  induction ts with
  | nil => rfl
  | cons t ts ih =>
    have ht := t.length_leaves_fold
    simp only [ofTerms, List.size_toArray, List.reverse_cons, List.flatMap_append, List.flatMap_singleton,
      List.length_append, Term.total] at ih ⊢
    omega

theorem entries_ofTerms (ts : List (Term (Operand ι))) :
    (ofTerms ts).Entries ((ts.map Term.fold).reverse.map Term.instructions) where
  length := by simp [ofTerms]
  entry := by
    intro k block hb
    rw [List.getElem?_map] at hb
    obtain ⟨t, ht, rfl⟩ := Option.map_eq_some_iff.mp hb
    refine ⟨t.constant?, ?_, ?_⟩
    · rw [pending_ofTerms, List.getElem?_map, ht]
      rfl
    · intro x
      rw [Term.constant?_iff_fetch ht, ← List.map_take, ← List.flatMap_def, ← Array.getElem?_toList, operands_ofTerms]

theorem coherent_ofTerms {ts : List (Term (Operand ι))} (h : ∀ t ∈ ts, t.Valued) :
    (ofTerms ts).Coherent (Term.namesAll ts) where
  fetches := by
    rw [ops_ofTerms, Term.count_fetch_flatMap, ← operands_ofTerms, Array.length_toList]
  depth := by
    rw [ops_ofTerms, Term.depthAfter?_flatMap]
    simp [ofTerms]
  blocks := by
    have hcut := Term.cut_instructions (ts.map Term.fold).reverse
    rw [← ops_ofTerms] at hcut
    exact ⟨_, hcut, fun others ho => ho.unique hcut, entries_ofTerms ts⟩
  position := position_ofTerms ts
  tokens := by
    rw [valuesOf_add_operatorsOf, Term.length_namesAll]
    rfl
  values := by
    rw [size_operands_ofTerms, Term.valuesOf_namesAll h]

/-! ## Folding -/

theorem foldsLast_ofTerms (ts : List (Term (Operand ι))) (o : Operator) {l r : Term (Operand ι)} {x y : Float}
    (hl : l.fold.constant? = some x) (hr : r.fold.constant? = some y) :
    FoldsLast (ofTerms (r :: l :: ts)) (ofTerms (.node o l r :: ts)) o x y (o.apply x y) := by
  obtain ⟨lname, el⟩ := Term.eq_of_constant? hl
  obtain ⟨rname, er⟩ := Term.eq_of_constant? hr
  refine ⟨rfl, (ts.map Term.fold).reverse.flatMap Term.instructions, (ts.map Term.fold).reverse.flatMap Term.leaves,
    lname, rname, ?_, ?_, ?_, ?_⟩
  · simp [ops_ofTerms, el, er, Term.instructions]
  · simp [operands_ofTerms, el, er, Term.leaves]
  · simp [ops_ofTerms, Term.fold, Term.combine, el, er, Term.ofFloat, Term.instructions]
  · simp [operands_ofTerms, Term.fold, Term.combine, el, er, Term.ofFloat, Term.leaves]

/-- Reading a value folds nothing. -/
theorem operationFolded_notMem_readValue (resolver : Option (Resolver τ ι)) (token : String) (lookups : τ)
    (o : Operator) (lhs rhs value : Float) :
    .operationFolded o lhs rhs value ∉ (readValue resolver token lookups).events := by
  unfold readValue
  cases Double.Literal.parse? token with
  | some x => exact List.not_mem_nil
  | none =>
    cases resolver with
    | none => exact List.not_mem_nil
    | some resolve => rcases h : resolve token lookups with ⟨cause | source, s⟩ <;> simp [h]

/-- A token folds only two constants that the last two instructions fetch. -/
theorem foldsLast_push {resolver : Option (Resolver τ ι)} {token : String} {ts : List (Term (Operand ι))} {lookups : τ}
    {o : Operator} {lhs rhs value : Float}
    (h : .operationFolded o lhs rhs value ∈ ((ofTerms ts).push resolver token lookups).1.events) :
    FoldsLast (ofTerms ts) ((ofTerms ts).push resolver token lookups).2 o lhs rhs value := by
  unfold push at h ⊢
  cases ho : Operator.ofSymbol? token with
  | some o' =>
    simp only [ho] at h ⊢
    match ts, h with
    | [], h => rw [pushOperator_few [] (by simp)] at h; cases h
    | [t], h => rw [pushOperator_few [t] (by simp)] at h; cases h
    | r :: l :: ts, h =>
      rw [pushOperator_ofTerms] at h ⊢
      simp only [joinEvents] at h
      split at h
      · rename_i x y hx hy
        cases List.mem_singleton.mp h
        exact foldsLast_ofTerms ts o hx hy
      · cases h
  | none =>
    have hno := operationFolded_notMem_readValue resolver token lookups o lhs rhs value
    simp only [ho] at h
    rcases hr : readValue resolver token lookups with ⟨e | source, s, events⟩
    · rw [hr] at h hno
      exact absurd h hno
    · rw [hr] at h hno
      exact absurd h hno

end Assembler

/-- Whatever tokens were offered, those refused included, the assembler is coherent, and the next
    token folds nothing but the last two fetches. -/
theorem ofTokens_coherent (resolver : Option (Resolver τ ι)) (tokens : List String) (lookups : τ) :
    (Use.ofTokens resolver tokens lookups).assembler.Coherent (Use.ofTokens resolver tokens lookups).taken ∧
      ∀ (token : String) (s : τ) (o : Operator) (lhs rhs value : Float),
        .operationFolded o lhs rhs value ∈
          ((Use.ofTokens resolver tokens lookups).assembler.push resolver token s).1.events →
        (Use.ofTokens resolver tokens lookups).assembler.FoldsLast
          ((Use.ofTokens resolver tokens lookups).assembler.push resolver token s).2 o lhs rhs value := by
  obtain ⟨ts, ha, ht, hv⟩ := Use.holds_ofTokens resolver tokens lookups
  rw [ha, ht]
  refine ⟨Assembler.coherent_ofTerms hv, ?_⟩
  intro token s o lhs rhs value h
  exact Assembler.foldsLast_push h

end ReversePolish
