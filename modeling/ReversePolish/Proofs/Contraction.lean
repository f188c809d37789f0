/-
  ReversePolish.Proofs.Contraction — what folding takes away, and what it leaves.

  An assembler folds where two entries next to each other are constants. What comes of it
  is said of the whole term. A term is constant if all its leaves are; `contract` replaces
  every largest constant subterm by one constant, going down from the root. A single leaf
  keeps its name, a larger subterm is named by the text of its value (`value?`), and what
  is not within a constant subterm stays where it was. Folding from the leaves up comes to
  the same (`fold_eq_contract`), and what it takes away are the operators over constants
  alone (`foldings_eq_constantOperators`).

  So every operator that is left has an operand that is read anew somewhere below it
  (`exists_dynamic_of_apply`), and a program is one constant if and only if nothing in it
  is read anew. `parse_contracts` states this of the program of a text and the one term that
  its tokens spell.
-/

import ReversePolish.Program.Text
import ReversePolish.Proofs.Composition
import ReversePolish.Proofs.Depth

namespace ReversePolish

variable {τ ι : Type}

namespace Term

variable {α : Type}

/-! ## Terms within a term -/

def operator? : Term α → Option Operator
  | leaf _ => none
  | node o _ _ => some o

/-- The terms within a term, in the order of the tokens that they end with. -/
def subterms : Term α → List (Term α)
  | leaf a => [leaf a]
  | node o l r => l.subterms ++ r.subterms ++ [node o l r]

/-- Where an operator stands among the instructions, those of its two operands end before it. -/
theorem exists_operands_of_instructions {t : Term α} {before after : List Instruction} {o : Operator}
    (h : t.instructions = before ++ .apply o :: after) :
    ∃ l r lead first last, node o l r ∈ t.subterms ∧ before = lead ++ l.instructions ++ r.instructions ∧
      t.leaves = first ++ (l.leaves ++ r.leaves) ++ last ∧ first.length = lead.count .fetch := by
  induction t generalizing before after with
  | leaf a =>
    have hmem : Instruction.apply o ∈ (leaf a).instructions := by rw [h]; simp
    cases List.mem_singleton.mp hmem
  | node o' x y ihx ihy =>
    simp only [instructions] at h
    rcases List.eq_nil_or_concat after with rfl | ⟨after, i, rfl⟩
    · -- the operator of the term itself
      obtain ⟨rfl, ho⟩ := List.append_inj' h rfl
      cases ho
      exact ⟨x, y, [], [], [], by simp [subterms], rfl, by simp [leaves], rfl⟩
    · have hxy : x.instructions ++ y.instructions = before ++ .apply o :: after := by
        rw [List.concat_eq_append, ← List.cons_append, ← List.append_assoc] at h
        exact (List.append_inj' h rfl).1
      rcases List.append_eq_append_iff.mp hxy with ⟨before, rfl, hy⟩ | ⟨rest, hx, hrest⟩
      · obtain ⟨l, r, lead, first, last, hm, rfl, hl, hf⟩ := ihy hy
        refine ⟨l, r, x.instructions ++ lead, x.leaves ++ first, last, ?_, ?_, ?_, ?_⟩
        · simp [subterms, hm]
        · simp only [List.append_assoc]
        · simp only [leaves, hl, List.append_assoc]
        · rw [List.length_append, List.count_append, count_fetch_instructions, hf]
      · cases rest with
        | nil =>
          -- no operand begins with an operator
          have hd := y.depthAfter?_instructions 0
          rw [← List.nil_append y.instructions, ← hrest] at hd
          cases hd
        | cons i rest =>
          obtain ⟨rfl, -⟩ := List.cons.inj hrest
          obtain ⟨l, r, lead, first, last, hm, hb, hl, hf⟩ := ihx hx
          refine ⟨l, r, lead, first, last ++ y.leaves, ?_, hb, ?_, hf⟩
          · simp [subterms, hm]
          · simp only [leaves, hl, List.append_assoc]

/-! ## Constant terms -/

/-- No leaf is read anew. -/
def isConstant (t : Term (Operand ι)) : Bool := t.leaves.all fun operand => operand.source.isConstant

@[simp] theorem isConstant_leaf (operand : Operand ι) : (leaf operand).isConstant = operand.source.isConstant := by
  simp [isConstant, leaves]

@[simp] theorem isConstant_node (o : Operator) (l r : Term (Operand ι)) :
    (node o l r).isConstant = (l.isConstant && r.isConstant) := List.all_append

@[simp] theorem isConstant_ofFloat (x : Float) : (ofFloat x : Term (Operand ι)).isConstant = true := rfl

theorem exists_dynamic {t : Term (Operand ι)} (h : t.isConstant = false) :
    ∃ (k : Nat) (operand : Operand ι), t.leaves[k]? = some operand ∧ operand.source.isConstant = false := by
  rw [isConstant, List.all_eq_false] at h
  obtain ⟨operand, hm, hd⟩ := h
  obtain ⟨k, hk⟩ := List.mem_iff_getElem?.mp hm
  exact ⟨k, operand, hk, Bool.eq_false_iff.mpr hd⟩

def value? : Term (Operand ι) → Option Float
  | leaf operand => operand.source.constant?
  | node o l r =>
    match l.value?, r.value? with
    | some x, some y => some (o.apply x y)
    | _, _ => none

theorem isSome_value? (t : Term (Operand ι)) : t.value?.isSome = t.isConstant := by
  induction t with
  | leaf operand => rw [isConstant_leaf]; rfl
  | node o l r hl hr =>
    rw [isConstant_node, ← hl, ← hr, value?]
    cases l.value? <;> cases r.value? <;> rfl

/-! ## Contraction -/

/-- Every largest constant subterm becomes one constant, which a leaf is already. -/
def contract : Term (Operand ι) → Term (Operand ι)
  | leaf operand => leaf operand
  | node o l r =>
    match (node o l r).value? with
    | some x => ofFloat x
    | none => node o l.contract r.contract

/-- How many operators have only constants below them. -/
def constantOperators (t : Term (Operand ι)) : Nat :=
  t.subterms.countP fun u => u.operator?.isSome && u.isConstant

theorem constant?_fold_eq_value? (t : Term (Operand ι)) : t.fold.constant? = t.value? := by
  induction t with
  | leaf operand => rfl
  | node o l r hl hr =>
    simp only [fold, combine, value?, hl, hr]
    cases l.value? <;> cases r.value? <;> rfl

theorem fold_eq_contract (t : Term (Operand ι)) : t.fold = t.contract := by
  induction t with
  | leaf operand => rfl
  | node o l r hl hr =>
    simp only [fold, combine, contract, value?, constant?_fold_eq_value?]
    cases l.value? <;> cases r.value? <;> simp only [hl, hr]

theorem foldings_eq_constantOperators (t : Term (Operand ι)) : t.foldings = t.constantOperators := by
  induction t with
  | leaf operand => rfl
  | node o l r hl hr =>
    simp only [foldings, constant?_fold_eq_value?, isSome_value?, hl, hr, constantOperators, subterms,
      List.countP_append, List.countP_singleton, isConstant_node, operator?, Option.isSome_some, Bool.true_and]

/-! ## What is left -/

theorem isConstant_fold (t : Term (Operand ι)) : t.fold.isConstant = t.isConstant := by
  induction t with
  | leaf operand => rfl
  | node o l r hl hr =>
    rcases fold_node_cases o l r with ⟨x, y, hx, hy, hf, -⟩ | ⟨hf, -⟩
    · rw [constant?_fold_eq_value?] at hx hy
      have hl := isSome_value? l
      have hr := isSome_value? r
      rw [hx] at hl
      rw [hy] at hr
      rw [hf, isConstant_node, ← hl, ← hr]
      rfl
    · rw [hf, isConstant_node, isConstant_node, hl, hr]

/-- An operator left by folding has a leaf below it that is read anew. -/
theorem isConstant_eq_false_of_mem_subterms_fold {t u : Term (Operand ι)} (h : u ∈ t.fold.subterms)
    (ho : u.operator?.isSome = true) : u.isConstant = false := by
  induction t with
  | leaf operand =>
    obtain rfl := List.mem_singleton.mp h
    cases ho
  | node o l r ihl ihr =>
    rcases fold_node_cases o l r with ⟨x, y, -, -, hf, -⟩ | ⟨hf, -⟩
    · rw [hf] at h
      obtain rfl := List.mem_singleton.mp h
      cases ho
    · rw [hf] at h
      simp only [subterms, List.mem_append, List.mem_singleton] at h
      rcases h with (h | h) | rfl
      · exact ihl h
      · exact ihr h
      · -- the operator was kept, so the term it stems from has no value
        have hnone := constant?_fold_eq_value? (node o l r)
        have hc := isSome_value? (node o l r)
        rw [hf, constant?_node] at hnone
        rw [← isConstant_fold, hf, ← hnone] at hc
        exact hc.symm

/-! ## The term of a text -/

def ReadFrom (resolver : Option (Resolver τ ι)) (text : String) (lookups : τ) (t : Term (Operand ι)) : Prop :=
  ∃ lookups', Reads resolver lookups t lookups' ∧ t.names = tokenize text

theorem ReadFrom.unique {resolver : Option (Resolver τ ι)} {text : String} {lookups : τ} {t u : Term (Operand ι)}
    (ht : ReadFrom resolver text lookups t) (hu : ReadFrom resolver text lookups u) : t = u := by
  obtain ⟨s, ht, hnt⟩ := ht
  obtain ⟨s', hu, hnu⟩ := hu
  have h := takeAll_eq_singleton_iff.mpr ⟨ht, hnt⟩
  rw [takeAll_eq_singleton_iff.mpr ⟨hu, hnu⟩] at h
  cases h
  rfl

end Term

namespace Program

theorem exists_readFrom {resolver : Option (Resolver τ ι)} {text : String} {lookups : τ} {p : Program ι}
    (h : (parse resolver text lookups).result = .ok p) : ∃ t, Term.ReadFrom resolver text lookups t ∧ p = ofTerm t := by
  obtain ⟨t, lookups', hr, hn, rfl⟩ := parse_eq_ok_iff.mp h
  exact ⟨t, ⟨lookups', hr, hn⟩, rfl⟩

theorem dynamicSlots_eq_nil_iff (p : Program ι) :
    p.dynamicSlots = [] ↔ ∀ operand ∈ p.operands.toList, operand.source.isConstant = true := by
  simp only [dynamicSlots, List.filterMap_eq_nil_iff, Prod.forall, List.mk_mem_zipIdx_iff_getElem?, ite_eq_left_iff,
    reduceCtorEq, imp_false, Bool.not_eq_true, Bool.not_eq_false]
  constructor
  · intro h operand hm
    obtain ⟨k, hk⟩ := List.mem_iff_getElem?.mp hm
    exact h operand k hk
  · intro h operand k hk
    exact h operand (List.mem_of_getElem? hk)

theorem dynamicSlots_ofTerm (t : Term (Operand ι)) : (ofTerm t).dynamicSlots = [] ↔ t.isConstant = true := by
  rw [dynamicSlots_eq_nil_iff, ← Term.isConstant_fold, Term.isConstant, List.all_eq_true]
  rfl

/-- Each operator of the program stands after the instructions of its two operands, and one of the
    operands that these fetch is read anew. -/
theorem exists_dynamic_of_apply (t : Term (Operand ι)) {before after : List Instruction} {o : Operator}
    (h : (ofTerm t).ops.toList = before ++ .apply o :: after) :
    ∃ lead lhs rhs, before = lead ++ lhs ++ rhs ∧ depthAfter? lhs 0 = some 1 ∧ depthAfter? rhs 0 = some 1 ∧
      ∃ (k : Nat) (operand : Operand ι), lead.count .fetch ≤ k ∧ k < before.count .fetch ∧
        (ofTerm t).operands[k]? = some operand ∧ operand.source.isConstant = false := by
  obtain ⟨l, r, lead, first, last, hm, rfl, hl, hf⟩ := Term.exists_operands_of_instructions h
  obtain ⟨k, operand, hk, hd⟩ := Term.exists_dynamic (Term.isConstant_eq_false_of_mem_subterms_fold hm rfl)
  have hlt : k < (l.leaves ++ r.leaves).length := (List.getElem?_eq_some_iff.mp hk).1
  refine ⟨lead, l.instructions, r.instructions, rfl, l.depthAfter?_instructions 0, r.depthAfter?_instructions 0,
    first.length + k, operand, by omega, ?_, ?_, hd⟩
  · rw [List.length_append] at hlt
    simp only [List.count_append, Term.count_fetch_instructions, hf]
    omega
  · have hleaves : (ofTerm t).operands.toList = first ++ ((l.leaves ++ r.leaves) ++ last) := by
      rw [← List.append_assoc, ← hl]
      rfl
    rw [← Array.getElem?_toList, hleaves, List.getElem?_append_right (by omega), Nat.add_sub_cancel_left,
      List.getElem?_append_left hlt]
    exact hk

structure Contracts (p : Program ι) (t : Term (Operand ι)) : Prop where
  folded : p.folded = t.constantOperators
  ops : p.ops.toList = t.contract.instructions
  operands : p.operands.toList = t.contract.leaves
  /-- No operator has two constants for operands, whatever instructions they are made of. -/
  dynamic : ∀ before o after, p.ops.toList = before ++ .apply o :: after →
    ∃ lead lhs rhs, before = lead ++ lhs ++ rhs ∧ depthAfter? lhs 0 = some 1 ∧ depthAfter? rhs 0 = some 1 ∧
      ∃ (k : Nat) (operand : Operand ι), lead.count .fetch ≤ k ∧ k < before.count .fetch ∧
        p.operands[k]? = some operand ∧ operand.source.isConstant = false
  value : p.constant? = t.value?
  constant : p.constant?.isSome = true ↔ p.dynamicSlots = []
  slots : p.dynamicSlots = [] ↔ ∀ operand ∈ t.leaves, operand.source.isConstant = true

theorem contracts_ofTerm (t : Term (Operand ι)) : (ofTerm t).Contracts t where
  folded := t.foldings_eq_constantOperators
  ops := by rw [← Term.fold_eq_contract]; rfl
  operands := by rw [← Term.fold_eq_contract]; rfl
  dynamic _ _ _ h := exists_dynamic_of_apply t h
  value := by rw [constant?_ofTerm, Term.constant?_fold_eq_value?]
  constant := by rw [dynamicSlots_ofTerm, constant?_ofTerm, Term.constant?_fold_eq_value?, Term.isSome_value?]
  slots := by rw [dynamicSlots_ofTerm, Term.isConstant, List.all_eq_true]

end Program

/-- The program of a text is the one term that its tokens spell, with its largest constant subterms contracted. -/
theorem parse_contracts {resolver : Option (Resolver τ ι)} {text : String} {lookups : τ} {p : Program ι}
    (h : (Program.parse resolver text lookups).result = .ok p) :
    ∃ t, Term.ReadFrom resolver text lookups t ∧ (∀ u, Term.ReadFrom resolver text lookups u → u = t) ∧
      p.Contracts t := by
  obtain ⟨t, ht, rfl⟩ := Program.exists_readFrom h
  refine ⟨t, ht, ?_, Program.contracts_ofTerm t⟩
  intro u hu
  exact hu.unique ht

/-- Two operators over constants are folded to a 5 beside a name, and a constant that is alone keeps its own name. -/
theorem parse_contracts_beside_names :
    ∃ p, (Program.parse (some Resolver.itself) "x 0x2 3 + 1 * + y 0x4 if *" ()).result = .ok p ∧
      p.text = "x 5 + y 0x4 if *" ∧
      ∃ t, Term.ReadFrom (some Resolver.itself) "x 0x2 3 + 1 * + y 0x4 if *" () t ∧
        (∀ u, Term.ReadFrom (some Resolver.itself) "x 0x2 3 + 1 * + y 0x4 if *" () u → u = t) ∧ p.Contracts t := by
  have ht : (Program.parse (some Resolver.itself) "x 0x2 3 + 1 * + y 0x4 if *" ()).result.toOption.map Program.text =
      some "x 5 + y 0x4 if *" := by
    decide +kernel
  cases hp : (Program.parse (some Resolver.itself) "x 0x2 3 + 1 * + y 0x4 if *" ()).result with
  | error e => rw [hp] at ht; cases ht
  | ok p =>
    rw [hp] at ht
    exact ⟨p, rfl, Option.some.inj ht, parse_contracts hp⟩

end ReversePolish
