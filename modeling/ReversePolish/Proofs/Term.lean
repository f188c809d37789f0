/-
  ReversePolish.Proofs.Term — expressions as trees, and what folding does to a tree.

  A term is a tree of operators over leaves. Its tokens and its instructions are its
  postorder: the left operand, the right one, the operator. Folding replaces an operator
  whose two folded operands are constants by the constant of its value, from the leaves
  up, so a folded term has no operator over two constants (`folded_fold`) and folding it
  again changes nothing (`fold_eq_self`).

  Evaluating a term reads its leaves from left to right and every one of them once,
  under a condition that is false as well. A constant reads nothing, so a folded term has
  the same value, the same readings and the same outside state (`eval_fold`).

  `need` is how many places a stack must have for a term. It is what one pass over the
  instructions finds (`stackDepth_instructions`).
-/

import ReversePolish.Double.Text
import ReversePolish.Program

namespace ReversePolish

/-! ## Readings -/

namespace Source

variable {ι σ : Type}

def loader? : Source ι → Option ι
  | constant _ => none
  | dynamic loader => some loader

@[simp] theorem loader?_constant (x : Float) : (constant x : Source ι).loader? = none := rfl

@[simp] theorem loader?_dynamic (loader : ι) : (dynamic loader).loader? = some loader := rfl

end Source

/-- The reader that also writes down what it reads, in order. -/
def Reader.logged {ι σ : Type} (read : Reader ι σ) : Reader ι (σ × List ι) :=
  fun loader s => ((read loader s.1).1, (read loader s.1).2, s.2 ++ [loader])

theorem Source.load_logged {ι σ : Type} (read : Reader ι σ) (source : Source ι) (s : σ) (log : List ι) :
    source.load read.logged (s, log) =
      ((source.load read s).1, (source.load read s).2, log ++ source.loader?.toList) := by
  cases source with
  | constant x => simp
  | dynamic loader => rfl

/-! ## Terms -/

inductive Term (α : Type) where
  | leaf (a : α)
  | node (o : Operator) (lhs rhs : Term α)
  deriving DecidableEq

namespace Term

variable {α β ι σ : Type}

def map (f : α → β) : Term α → Term β
  | leaf a => leaf (f a)
  | node o l r => node o (l.map f) (r.map f)

def leaves : Term α → List α
  | leaf a => [a]
  | node _ l r => l.leaves ++ r.leaves

/-- How many leaves and operators there are. -/
def size : Term α → Nat
  | leaf _ => 1
  | node _ l r => l.size + r.size + 1

def total (count : Term α → Nat) : List (Term α) → Nat
  | [] => 0
  | t :: ts => count t + total count ts

/-- The tokens in postorder, where `spell` is the token of a leaf. -/
def tokens (spell : α → String) : Term α → List String
  | leaf a => [spell a]
  | node o l r => l.tokens spell ++ r.tokens spell ++ [o.symbol]

def instructions : Term α → List Instruction
  | leaf _ => [.fetch]
  | node o l r => l.instructions ++ r.instructions ++ [.apply o]

/-- How many places a stack needs: the left value waits while the right one is computed. -/
def need : Term α → Nat
  | leaf _ => 1
  | node _ l r => max l.need (r.need + 1)

@[simp] theorem length_tokens (spell : α → String) (t : Term α) :
    (t.tokens spell).length = t.size := by
  induction t with
  | leaf a => rfl
  | node o l r hl hr => simp only [tokens, size, List.length_append, hl, hr, List.length_singleton]

theorem tokens_map (f : α → β) (spell : β → String) (t : Term α) :
    (t.map f).tokens spell = t.tokens (spell ∘ f) := by
  induction t with
  | leaf a => rfl
  | node o l r hl hr => simp only [map, tokens, hl, hr]

theorem leaves_map (f : α → β) (t : Term α) : (t.map f).leaves = t.leaves.map f := by
  induction t with
  | leaf a => rfl
  | node o l r hl hr => simp only [map, leaves, hl, hr, List.map_append]

theorem length_instructions (t : Term α) : t.instructions.length = t.size := by
  induction t with
  | leaf a => rfl
  | node o l r hl hr => simp only [instructions, size, List.length_append, hl, hr, List.length_singleton]

theorem count_fetch_instructions (t : Term α) : t.instructions.count .fetch = t.leaves.length := by
  induction t with
  | leaf a => rfl
  | node o l r hl hr =>
    have ho : [Instruction.apply o].count .fetch = 0 := rfl
    simp only [instructions, leaves, List.count_append, List.length_append, hl, hr, ho, Nat.add_zero]

theorem size_pos (t : Term α) : 0 < t.size := by
  cases t with
  | leaf a => exact Nat.one_pos
  | node o l r => exact Nat.succ_pos _

theorem need_pos (t : Term α) : 0 < t.need := by
  cases t with
  | leaf a => exact Nat.one_pos
  | node o l r => simp only [need]; omega

theorem foldl_depthStep (t : Term α) (d m : Nat) (h : d ≤ m) :
    t.instructions.foldl Program.depthStep (d, m) = (d + 1, max m (d + t.need)) := by
  induction t generalizing d m with
  | leaf a => rfl
  | node o l r hl hr =>
    have hp := r.need_pos
    have hle : d + 1 ≤ max m (d + l.need) := by
      have := l.need_pos
      omega
    simp only [instructions, List.foldl_append, hl d m h, hr _ _ hle, List.foldl_cons, List.foldl_nil,
      Program.depthStep, need, Prod.mk.injEq]
    omega

theorem stackDepth_instructions (t : Term α) : Program.stackDepth t.instructions = t.need := by
  have h := foldl_depthStep t 0 0 (Nat.le_refl 0)
  simp only [Program.stackDepth, h]
  omega

/-! ## Evaluation -/

def eval (read : Reader ι σ) : Term (Operand ι) → σ → Float × σ
  | leaf operand, outside => operand.source.load read outside
  | node o l r, outside =>
    let (x, outside) := l.eval read outside
    let (y, outside) := r.eval read outside
    (o.apply x y, outside)

def loaders (t : Term (Operand ι)) : List ι :=
  t.leaves.filterMap fun operand => operand.source.loader?

theorem eval_logged (read : Reader ι σ) (t : Term (Operand ι)) (s : σ) (log : List ι) :
    t.eval read.logged (s, log) = ((t.eval read s).1, (t.eval read s).2, log ++ t.loaders) := by
  induction t generalizing s log with
  | leaf operand =>
    simp only [eval, loaders, leaves, Source.load_logged]
    cases h : operand.source.loader? <;> simp [h]
  | node o l r hl hr =>
    simp only [eval, hl, hr, loaders, leaves, List.filterMap_append, List.append_assoc]

/-! ## Folding -/

/-- The value of a leaf that is a constant; an operator is none. -/
def constant? : Term (Operand ι) → Option Float
  | leaf operand => operand.source.constant?
  | node _ _ _ => none

@[simp] theorem constant?_leaf (operand : Operand ι) : (leaf operand).constant? = operand.source.constant? := rfl

@[simp] theorem constant?_node (o : Operator) (l r : Term (Operand ι)) : (node o l r).constant? = none := rfl

def ofFloat (x : Float) : Term (Operand ι) :=
  leaf { name := Double.plain x, source := .constant x }

/-- An operator over two folded operands, itself folded. -/
def combine (o : Operator) (l r : Term (Operand ι)) : Term (Operand ι) :=
  match l.constant?, r.constant? with
  | some x, some y => ofFloat (o.apply x y)
  | _, _ => node o l r

def fold : Term (Operand ι) → Term (Operand ι)
  | leaf operand => leaf operand
  | node o l r => combine o l.fold r.fold

def foldings : Term (Operand ι) → Nat
  | leaf _ => 0
  | node _ l r =>
    l.foldings + r.foldings + if l.fold.constant?.isSome && r.fold.constant?.isSome then 1 else 0

theorem eq_of_constant? {t : Term (Operand ι)} {x : Float} (h : t.constant? = some x) :
    ∃ name, t = leaf { name, source := .constant x } := by
  cases t with
  | node o l r => cases h
  | leaf operand =>
    obtain ⟨name, source⟩ := operand
    cases source with
    | dynamic loader => cases h
    | constant y => cases h; exact ⟨name, rfl⟩

theorem eval_of_constant? {t : Term (Operand ι)} {x : Float} (h : t.constant? = some x)
    (read : Reader ι σ) (outside : σ) : t.eval read outside = (x, outside) := by
  obtain ⟨name, rfl⟩ := eq_of_constant? h
  rfl

theorem eval_combine (o : Operator) (l r : Term (Operand ι)) (read : Reader ι σ) (outside : σ) :
    (combine o l r).eval read outside = (node o l r).eval read outside := by
  unfold combine
  split
  · rename_i x y hx hy
    simp only [eval, eval_of_constant? hx, eval_of_constant? hy]
    rfl
  · rfl

/-- Folding changes neither the value nor the readings nor the outside state. -/
theorem eval_fold (t : Term (Operand ι)) (read : Reader ι σ) (outside : σ) :
    t.fold.eval read outside = t.eval read outside := by
  induction t generalizing outside with
  | leaf operand => rfl
  | node o l r hl hr => simp only [fold, eval_combine, eval, hl, hr]

/-- No operator has two constant operands. -/
def Folded : Term (Operand ι) → Prop
  | leaf _ => True
  | node _ l r => (l.constant? = none ∨ r.constant? = none) ∧ l.Folded ∧ r.Folded

theorem folded_combine (o : Operator) {l r : Term (Operand ι)} (hl : l.Folded) (hr : r.Folded) :
    (combine o l r).Folded := by
  unfold combine
  split
  · trivial
  · rename_i h
    refine ⟨?_, hl, hr⟩
    cases hx : l.constant? with
    | none => exact Or.inl rfl
    | some x =>
      cases hy : r.constant? with
      | none => exact Or.inr rfl
      | some y => exact absurd hy (h x y hx)

theorem folded_fold (t : Term (Operand ι)) : t.fold.Folded := by
  induction t with
  | leaf operand => trivial
  | node o l r hl hr => exact folded_combine o hl hr

theorem combine_of_folded {o : Operator} {l r : Term (Operand ι)} (h : l.constant? = none ∨ r.constant? = none) :
    combine o l r = node o l r := by
  unfold combine
  rcases h with h | h
  · simp [h]
  · simp [h]

/-- An operator is folded away over two constants, and kept otherwise. -/
theorem fold_node_cases (o : Operator) (l r : Term (Operand ι)) :
    (∃ x y, l.fold.constant? = some x ∧ r.fold.constant? = some y ∧ (node o l r).fold = ofFloat (o.apply x y) ∧
      (node o l r).foldings = l.foldings + r.foldings + 1) ∨
    (node o l r).fold = node o l.fold r.fold ∧ (node o l r).foldings = l.foldings + r.foldings := by
  cases hl : l.fold.constant? with
  | none => exact Or.inr ⟨combine_of_folded (Or.inl hl), by simp [foldings, hl]⟩
  | some x =>
    cases hr : r.fold.constant? with
    | none => exact Or.inr ⟨combine_of_folded (Or.inr hr), by simp [foldings, hr]⟩
    | some y => exact Or.inl ⟨x, y, rfl, rfl, by simp [fold, combine, hl, hr], by simp [foldings, hl, hr]⟩

theorem size_of_constant? {t : Term (Operand ι)} {x : Float} (h : t.constant? = some x) :
    t.size = 1 ∧ t.leaves.length = 1 := by
  obtain ⟨name, rfl⟩ := eq_of_constant? h
  exact ⟨rfl, rfl⟩

/-- With an operator that is folded away an operand goes as well. -/
theorem size_fold (t : Term (Operand ι)) : t.fold.size + 2 * t.foldings = t.size := by
  induction t with
  | leaf operand => rfl
  | node o l r hl hr =>
    rcases fold_node_cases o l r with ⟨x, y, hx, hy, hf, hn⟩ | ⟨hf, hn⟩
    · have hl1 := (size_of_constant? hx).1
      have hr1 := (size_of_constant? hy).1
      simp only [hf, hn, ofFloat, size]
      omega
    · simp only [hf, hn, size]
      omega

theorem length_leaves_fold (t : Term (Operand ι)) : t.fold.leaves.length + t.foldings = t.leaves.length := by
  induction t with
  | leaf operand => rfl
  | node o l r hl hr =>
    rcases fold_node_cases o l r with ⟨x, y, hx, hy, hf, hn⟩ | ⟨hf, hn⟩
    · have hl1 := (size_of_constant? hx).2
      have hr1 := (size_of_constant? hy).2
      simp only [hf, hn, ofFloat, leaves, List.length_append, List.length_singleton]
      omega
    · simp only [hf, hn, leaves, List.length_append]
      omega

/-- A folded term needs no more places. -/
theorem need_fold_le (t : Term (Operand ι)) : t.fold.need ≤ t.need := by
  induction t with
  | leaf operand => exact Nat.le_refl _
  | node o l r hl hr =>
    rcases fold_node_cases o l r with ⟨x, y, -, -, hf, -⟩ | ⟨hf, -⟩
    · rw [hf]
      exact Nat.succ_le_of_lt (need_pos _)
    · simp only [hf, need]
      omega

/-- A folded term is its own folding, and nothing is folded in it. -/
theorem fold_eq_self {t : Term (Operand ι)} (h : t.Folded) : t.fold = t ∧ t.foldings = 0 := by
  induction t with
  | leaf operand => exact ⟨rfl, rfl⟩
  | node o l r ihl ihr =>
    obtain ⟨hc, hl, hr⟩ := h
    obtain ⟨fl, nl⟩ := ihl hl
    obtain ⟨fr, nr⟩ := ihr hr
    refine ⟨by rw [fold, fl, fr, combine_of_folded hc], ?_⟩
    simp only [foldings, fl, fr, nl, nr]
    rcases hc with h | h
    · simp [h]
    · simp [h]

end Term

end ReversePolish
