/-
  ReversePolish.Proofs.Depth — how high instructions build the stack.

  `depthAfter?` goes through instructions as a stack would: a fetch adds a value, an
  operator needs two and leaves one. Values that lie deeper take no part
  (`depthAfter?_add`). The instructions of a term leave one value, and at some point
  of them the stack is as high as the term needs (`exists_depth_eq_need`), so the depth
  that a program states is reached. Where no operator finds too few values, counting
  with `depthStep` gives the same depths (`foldl_depthStep_of_depthAfter?`).

  Tokens build the same stack before anything is folded: a value token stands for a fetch,
  and the height of some tokens is the depth after them (`height_of_depthAfter?`).
-/

import ReversePolish.Proofs.Usage

namespace ReversePolish

namespace Program

/-- How many values are on the stack after some instructions; an operator needs two. -/
def depthAfter? : List Instruction → Nat → Option Nat
  | [], d => some d
  | .fetch :: rest, d => depthAfter? rest (d + 1)
  | .apply _ :: rest, d => if 2 ≤ d then depthAfter? rest (d - 1) else none

theorem depthAfter?_append (before after : List Instruction) (d : Nat) :
    depthAfter? (before ++ after) d = (depthAfter? before d).bind (depthAfter? after) := by
  induction before generalizing d with
  | nil => rfl
  | cons i rest ih =>
    cases i with
    | fetch => exact ih (d + 1)
    | apply o =>
      simp only [List.cons_append, depthAfter?]
      split
      · exact ih (d - 1)
      · rfl

/-- Values below take no part. -/
theorem depthAfter?_add {ops : List Instruction} {d e : Nat} (h : depthAfter? ops d = some e) (below : Nat) :
    depthAfter? ops (d + below) = some (e + below) := by
  induction ops generalizing d with
  | nil =>
    cases h
    rfl
  | cons i rest ih =>
    cases i with
    | fetch =>
      have := ih (d := d + 1) h
      rwa [Nat.add_right_comm] at this
    | apply o =>
      simp only [depthAfter?] at h ⊢
      split at h
      · rename_i hd
        rw [if_pos (by omega), Nat.sub_add_comm (by omega)]
        exact ih h
      · cases h

theorem depthAfter?_pos {ops : List Instruction} {d e : Nat} (hd : 0 < d) (h : depthAfter? ops d = some e) : 0 < e := by
  induction ops generalizing d with
  | nil =>
    cases h
    exact hd
  | cons i rest ih =>
    cases i with
    | fetch => exact ih (Nat.succ_pos d) h
    | apply o =>
      simp only [depthAfter?] at h
      split at h
      · exact ih (by omega) h
      · cases h

/-- Only no instructions leave nothing. -/
theorem eq_nil_of_depthAfter? {ops : List Instruction} (h : depthAfter? ops 0 = some 0) : ops = [] := by
  match ops, h with
  | [], _ => rfl
  | .fetch :: rest, h => exact absurd (depthAfter?_pos Nat.one_pos h) (Nat.lt_irrefl 0)

theorem foldl_depthStep_of_depthAfter? {ops : List Instruction} {d e : Nat} (h : depthAfter? ops d = some e) (m : Nat) :
    (ops.foldl depthStep (d, m)).1 = e := by
  induction ops generalizing d m with
  | nil =>
    cases h
    rfl
  | cons i rest ih =>
    cases i with
    | fetch => exact ih h _
    | apply o =>
      simp only [depthAfter?] at h
      split at h
      · exact ih h _
      · cases h

/-- Where an operator finds two values, counting down stays above zero. -/
theorem foldl_depthStep_pos {before after : List Instruction} {o : Operator} {d e : Nat}
    (h : depthAfter? (before ++ .apply o :: after) d = some e) (m : Nat) :
    0 < (before.foldl depthStep (d, m)).1 := by
  rw [depthAfter?_append] at h
  obtain ⟨c, hc, h⟩ := Option.bind_eq_some_iff.mp h
  rw [foldl_depthStep_of_depthAfter? hc]
  simp only [depthAfter?] at h
  split at h
  · omega
  · cases h

end Program

open Program

namespace Term

variable {α ι : Type}

theorem depthAfter?_instructions (t : Term α) (d : Nat) : depthAfter? t.instructions d = some (d + 1) := by
  induction t generalizing d with
  | leaf a => rfl
  | node o l r hl hr =>
    simp only [instructions, depthAfter?_append, hl, hr, Option.bind_some, depthAfter?]
    rw [if_pos (by omega)]
    rfl

theorem depthAfter?_flatMap (ts : List (Term α)) (d : Nat) :
    depthAfter? (ts.flatMap instructions) d = some (d + ts.length) := by
  induction ts generalizing d with
  | nil => rfl
  | cons t ts ih =>
    rw [List.flatMap_cons, depthAfter?_append, depthAfter?_instructions, Option.bind_some, ih, List.length_cons]
    congr 1
    omega

/-- The stack is as high as the term needs at some point of its instructions. -/
theorem exists_depth_eq_need (t : Term α) (d : Nat) :
    ∃ before after, t.instructions = before ++ after ∧ depthAfter? before d = some (d + t.need) := by
  induction t generalizing d with
  | leaf a => exact ⟨[.fetch], [], rfl, rfl⟩
  | node o l r ihl ihr =>
    by_cases hlr : r.need + 1 ≤ l.need
    · obtain ⟨before, after, hi, hd⟩ := ihl d
      refine ⟨before, after ++ r.instructions ++ [.apply o], ?_, ?_⟩
      · simp only [instructions, hi, List.append_assoc]
      · rw [hd, need, Nat.max_eq_left hlr]
    · obtain ⟨before, after, hi, hd⟩ := ihr (d + 1)
      refine ⟨l.instructions ++ before, after ++ [.apply o], ?_, ?_⟩
      · simp only [instructions, hi, List.append_assoc]
      · rw [depthAfter?_append, depthAfter?_instructions, Option.bind_some, hd, need, Nat.max_eq_right (by omega)]
        congr 1
        omega

end Term

/-! ## Tokens -/

/-- The instruction that a token stands for before anything is folded. -/
def Instruction.ofToken (token : String) : Instruction :=
  match Operator.ofSymbol? token with
  | some o => .apply o
  | none => .fetch

theorem height_of_depthAfter? {tokens : List String} {d e : Nat}
    (h : depthAfter? (tokens.map Instruction.ofToken) d = some e) : height tokens = e - d := by
  induction tokens generalizing d with
  | nil =>
    cases h
    simp [height]
  | cons token rest ih =>
    cases ho : Operator.ofSymbol? token with
    | none =>
      simp only [List.map_cons, Instruction.ofToken, ho, depthAfter?] at h
      simp only [height, ho, ih h, Option.isSome_none, Bool.false_eq_true, if_false]
      omega
    | some o =>
      simp only [List.map_cons, Instruction.ofToken, ho, depthAfter?] at h
      split at h
      · simp only [height, ho, ih h, Option.isSome_some, if_true]
        omega
      · cases h

namespace Term

variable {ι : Type}

theorem map_ofToken_names {t : Term (Operand ι)} (h : t.Valued) : t.names.map Instruction.ofToken = t.instructions := by
  induction t with
  | leaf operand => simp only [tokens, instructions, List.map_singleton, Instruction.ofToken, valued_leaf.mp h]
  | node o l r hl hr =>
    obtain ⟨hvl, hvr⟩ := valued_node.mp h
    simp only [names, tokens, instructions, List.map_append, List.map_singleton, Instruction.ofToken,
      Operator.ofSymbol?_symbol] at hl hr ⊢
    rw [← hl hvl, ← hr hvr]

/-- The tokens of a term reach what the term needs, and so at least what is left of it needs. -/
theorem exists_height_eq_need {t : Term (Operand ι)} (h : t.Valued) :
    ∃ k, ReversePolish.height (t.names.take k) = t.need := by
  obtain ⟨before, after, hi, hd⟩ := t.exists_depth_eq_need 0
  rw [← map_ofToken_names h] at hi
  obtain ⟨bs, as, hn, rfl, -⟩ := List.map_eq_append_iff.mp hi
  refine ⟨bs.length, ?_⟩
  rw [hn, List.take_left, height_of_depthAfter? hd]
  omega

end Term

end ReversePolish
