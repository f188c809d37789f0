/-
  ReversePolish.Proofs.Assembly — what an assembler holds, as a stack of terms.

  The assembler that has taken the tokens of some terms is a function of these terms
  alone (`ofTerms`): its instructions and operands are those of the folded terms one after
  another, an entry of the construction stack is the constant of its folded term, and
  the two counters count tokens and foldings. A token then is an operation on the stack of
  terms: a value adds a leaf, an operator joins the two topmost terms (`take`). `push` does
  just that (`push_ofTerms`), and a refused token leaves the assembler as it was. In
  particular, when two constants are folded, the two fetches taken back are those of
  the two terms that are joined.

  So the program of an expression is the folded postorder of the one term whose tokens
  these are (`parse_eq_ok_iff`). When the resolver goes by the name, its state does not
  matter (`takeAll_byName`).
-/

import ReversePolish.Program.Assembler
import ReversePolish.Proofs.Term

namespace ReversePolish

variable {τ ι : Type}

theorem Operator.eq_symbol {token : String} {o : Operator} (h : ofSymbol? token = some o) : token = o.symbol := by
  unfold ofSymbol? at h
  split at h <;> cases h <;> rfl

/-! ## The assembler of some terms -/

def Program.ofTerm (t : Term (Operand ι)) : Program ι :=
  .ofParts t.fold.instructions.toArray t.fold.leaves.toArray t.foldings

theorem Program.maxDepth_ofTerm (t : Term (Operand ι)) : (ofTerm t).maxDepth = t.fold.need :=
  Term.stackDepth_instructions _

namespace Assembler

/-- The assembler that has taken the tokens of some terms, the last term first. -/
def ofTerms (ts : List (Term (Operand ι))) : Assembler ι :=
  { ops := (ts.reverse.flatMap fun t => t.fold.instructions).toArray
    operands := (ts.reverse.flatMap fun t => t.fold.leaves).toArray
    pending := ts.map fun t => t.fold.constant?
    position := Term.total Term.size ts
    folded := Term.total Term.foldings ts }

def joinEvents (o : Operator) (l r : Term (Operand ι)) : List Event :=
  match l.constant?, r.constant? with
  | some x, some y => [.operationFolded o x y (o.apply x y)]
  | _, _ => []

theorem ofTerms_nil : (ofTerms [] : Assembler ι) = {} := rfl

theorem pushValue_ofTerms (ts : List (Term (Operand ι))) (name : String) (source : Source ι) :
    (ofTerms ts).pushValue name source = ofTerms (.leaf { name, source } :: ts) := by
  simp only [ofTerms, pushValue, Term.fold, Term.instructions, Term.leaves, Term.constant?, Term.size, Term.foldings,
    List.reverse_cons, List.flatMap_append, List.flatMap_singleton, List.map_cons, Term.total, List.push_toArray,
    Assembler.mk.injEq, true_and]
  omega

/-- An operator over two constants takes their two fetches back. -/
theorem fold_ofTerms (ts : List (Term (Operand ι))) (o : Operator) {l r : Term (Operand ι)} {x y : Float}
    (hl : l.fold.constant? = some x) (hr : r.fold.constant? = some y) :
    (ofTerms (r :: l :: ts)).fold (o.apply x y) (ts.map fun t => t.fold.constant?) = ofTerms (.node o l r :: ts) := by
  obtain ⟨lname, el⟩ := Term.eq_of_constant? hl
  obtain ⟨rname, er⟩ := Term.eq_of_constant? hr
  simp only [ofTerms, fold, Term.fold, Term.combine, Term.foldings, Term.size, el, er, Term.constant?,
    Source.constant?_constant, Term.ofFloat, Term.instructions, Term.leaves, List.reverse_cons, List.flatMap_append,
    List.flatMap_singleton, List.pop_toArray, List.push_toArray, List.dropLast_concat, List.map_cons, Term.total,
    Assembler.mk.injEq, true_and, Option.isSome_some, Bool.and_self, if_true]
  omega

/-- An operator over operands that are not both constants is emitted. -/
theorem emit_ofTerms (ts : List (Term (Operand ι))) (o : Operator) {l r : Term (Operand ι)}
    (h : l.fold.constant? = none ∨ r.fold.constant? = none) :
    { ofTerms (r :: l :: ts) with
      ops := (ofTerms (r :: l :: ts)).ops.push (.apply o)
      pending := none :: ts.map fun t => t.fold.constant?
      position := (ofTerms (r :: l :: ts)).position + 1 } = ofTerms (.node o l r :: ts) := by
  have hn : (l.fold.constant?.isSome && r.fold.constant?.isSome) = false := by
    rcases h with h | h <;> simp [h]
  simp only [ofTerms, Term.fold, Term.combine_of_folded h, Term.instructions, Term.leaves, Term.constant?_node,
    Term.size, Term.foldings, hn, List.reverse_cons, List.flatMap_append, List.flatMap_singleton, List.map_cons,
    Term.total, List.push_toArray, List.append_assoc, Assembler.mk.injEq, true_and, Bool.false_eq_true, if_false]
  omega

theorem pushOperator_ofTerms (ts : List (Term (Operand ι))) (o : Operator) (l r : Term (Operand ι)) (token : String) :
    (ofTerms (r :: l :: ts)).pushOperator o token =
      (.ok (), ofTerms (.node o l r :: ts), joinEvents o l.fold r.fold) := by
  have hp : (ofTerms (r :: l :: ts)).pending =
      r.fold.constant? :: l.fold.constant? :: ts.map fun t => t.fold.constant? := rfl
  rcases hl : l.fold.constant? with _ | x <;> rcases hr : r.fold.constant? with _ | y
  · simp only [pushOperator, hp, joinEvents, hl, hr, emit_ofTerms ts o (Or.inl hl)]
  · simp only [pushOperator, hp, joinEvents, hl, hr, emit_ofTerms ts o (Or.inl hl)]
  · simp only [pushOperator, hp, joinEvents, hl, hr, emit_ofTerms ts o (Or.inr hr)]
  · simp only [pushOperator, hp, joinEvents, hl, hr, fold_ofTerms ts o hl hr]

theorem pushOperator_few (ts : List (Term (Operand ι))) (h : ts.length < 2) (o : Operator) (token : String) :
    (ofTerms ts).pushOperator o token =
      (.error (.malformed (Term.total Term.size ts) token ts.length), ofTerms ts, []) := by
  match ts, h with
  | [], _ => rfl
  | [t], _ =>
    have hp : (ofTerms [t]).pending = [t.fold.constant?] := rfl
    cases hc : t.fold.constant? with
    | none => simp only [pushOperator, hp, hc]; rfl
    | some x => simp only [pushOperator, hp, hc]; rfl

theorem finish_ofTerms (ts : List (Term (Operand ι))) :
    (ofTerms ts).finish =
      match ts with
      | [] => .error .empty
      | [t] => .ok (Program.ofTerm t)
      | many => .error (.unbalanced many.length) := by
  match ts with
  | [] => rfl
  | [t] => simp [finish, ofTerms, Program.ofTerm, Term.total]
  | t :: u :: ts => simp [finish, ofTerms]

end Assembler

/-! ## Tokens on a stack of terms -/

namespace Term

/-- The stack of terms, the last first, after one more token, with the resolver's state. -/
def take (resolver : Option (Resolver τ ι)) (token : String) (ts : List (Term (Operand ι))) (lookups : τ) :
    Except BuildError (List (Term (Operand ι))) × τ :=
  match Operator.ofSymbol? token with
  | some o =>
    match ts with
    | r :: l :: rest => (.ok (node o l r :: rest), lookups)
    | few => (.error (.malformed (total size few) token few.length), lookups)
  | none =>
    ((readValue resolver token lookups).result.map fun source => leaf { name := token, source } :: ts,
      (readValue resolver token lookups).lookups)

def takeAll (resolver : Option (Resolver τ ι)) :
    List String → List (Term (Operand ι)) → τ → Except BuildError (List (Term (Operand ι))) × τ
  | [], ts, lookups => (.ok ts, lookups)
  | token :: rest, ts, lookups =>
    match take resolver token ts lookups with
    | (.ok ts, lookups) => takeAll resolver rest ts lookups
    | (.error e, lookups) => (.error e, lookups)

end Term

/-- A token does to an assembler what it does to the stack of its terms; refused, it does nothing. -/
theorem Assembler.push_ofTerms (resolver : Option (Resolver τ ι)) (token : String) (ts : List (Term (Operand ι)))
    (lookups : τ) :
    ∃ events, (ofTerms ts).push resolver token lookups =
      match Term.take resolver token ts lookups with
      | (.ok us, lookups) => ({ result := .ok (), lookups, events }, ofTerms us)
      | (.error e, lookups) => ({ result := .error e, lookups, events }, ofTerms ts) := by
  unfold push Term.take
  cases Operator.ofSymbol? token with
  | some o =>
    match ts with
    | [] => exact ⟨[], by simp only [pushOperator_few [] (by simp)]⟩
    | [t] => exact ⟨[], by simp only [pushOperator_few [t] (by simp)]⟩
    | r :: l :: ts => exact ⟨joinEvents o l.fold r.fold, by simp only [pushOperator_ofTerms]⟩
  | none =>
    obtain ⟨result, s, events⟩ := readValue resolver token lookups
    refine ⟨events, ?_⟩
    cases result with
    | ok source => simp only [pushValue_ofTerms]; rfl
    | error e => rfl

theorem Assembler.pushAll_ofTerms (resolver : Option (Resolver τ ι)) (tokens : List String)
    (ts : List (Term (Operand ι))) (lookups : τ) (log : Array Event) :
    ∃ events, pushAll resolver tokens (ofTerms ts) lookups log =
      { result := (Term.takeAll resolver tokens ts lookups).1.map ofTerms
        lookups := (Term.takeAll resolver tokens ts lookups).2
        events } := by
  induction tokens generalizing ts lookups log with
  | nil => exact ⟨log.toList, rfl⟩
  | cons token rest ih =>
    obtain ⟨events, hpush⟩ := push_ofTerms resolver token ts lookups
    simp only [pushAll, Term.takeAll, hpush]
    rcases Term.take resolver token ts lookups with ⟨us | us, s⟩
    · exact ⟨_, rfl⟩
    · exact ih us s _

theorem Program.parse_eq (resolver : Option (Resolver τ ι)) (text : String) (lookups : τ) :
    (Program.parse resolver text lookups).result =
      match (Term.takeAll resolver (tokenize text) [] lookups).1 with
      | .error e => .error e
      | .ok [] => .error .empty
      | .ok [t] => .ok (ofTerm t)
      | .ok many => .error (.unbalanced many.length) := by
  obtain ⟨events, h⟩ := Assembler.pushAll_ofTerms resolver (tokenize text) [] lookups #[]
  rw [Assembler.ofTerms_nil] at h
  simp only [parse, h]
  rcases (Term.takeAll resolver (tokenize text) [] lookups).1 with e | us
  · rfl
  · simp only [Except.map, Assembler.finish_ofTerms]
    match us with
    | [] => rfl
    | [t] => rfl
    | t :: u :: us => rfl

/-! ## What the tokens of a term stand for -/

namespace Term

/-- The leaves of a term are value tokens with the sources that they are read as, from left to right. -/
inductive Reads (resolver : Option (Resolver τ ι)) : τ → Term (Operand ι) → τ → Prop
  | leaf (operand : Operand ι) (lookups : τ) : Operator.ofSymbol? operand.name = none →
      (readValue resolver operand.name lookups).result = .ok operand.source →
      Reads resolver lookups (leaf operand) (readValue resolver operand.name lookups).lookups
  | node (o : Operator) {l r : Term (Operand ι)} {s s' s'' : τ} : Reads resolver s l s' → Reads resolver s' r s'' →
      Reads resolver s (node o l r) s''

inductive ReadsAll (resolver : Option (Resolver τ ι)) (s : τ) : List (Term (Operand ι)) → τ → Prop
  | nil : ReadsAll resolver s [] s
  | cons {ts : List (Term (Operand ι))} {t : Term (Operand ι)} {s' s'' : τ} : ReadsAll resolver s ts s' →
      Reads resolver s' t s'' → ReadsAll resolver s (t :: ts) s''

abbrev names (t : Term (Operand ι)) : List String := t.tokens Operand.name

theorem takeAll_names {resolver : Option (Resolver τ ι)} {t : Term (Operand ι)} {s s' : τ}
    (h : Reads resolver s t s') (rest : List String) (ts : List (Term (Operand ι))) :
    takeAll resolver (t.names ++ rest) ts s = takeAll resolver rest (t :: ts) s' := by
  induction h generalizing rest ts with
  | leaf operand s hv hs => simp only [tokens, List.singleton_append, takeAll, take, hv, hs, Except.map]
  | node o hl hr ihl ihr =>
    rw [names, tokens, List.append_assoc, List.append_assoc, ihl, ihr]
    simp only [List.singleton_append, takeAll, take, Operator.ofSymbol?_symbol]

def namesAll (ts : List (Term (Operand ι))) : List String := ts.reverse.flatMap names

@[simp] theorem namesAll_cons (t : Term (Operand ι)) (ts : List (Term (Operand ι))) :
    namesAll (t :: ts) = namesAll ts ++ t.names := by
  simp [namesAll]

/-- A token that is taken comes last among the names. -/
theorem namesAll_take {resolver : Option (Resolver τ ι)} {token : String} {ts us : List (Term (Operand ι))} {s s' : τ}
    (h : take resolver token ts s = (.ok us, s')) : namesAll us = namesAll ts ++ [token] := by
  unfold take at h
  split at h
  · rename_i o ho
    split at h
    · cases h
      simp only [namesAll_cons, names, tokens, Operator.eq_symbol ho, List.append_assoc]
    · cases h
  · cases hs : (readValue resolver token s).result with
    | error e => rw [hs] at h; cases h
    | ok source =>
      rw [hs] at h
      cases h
      exact namesAll_cons _ _

theorem take_ok {resolver : Option (Resolver τ ι)} {token : String} {ts us : List (Term (Operand ι))} {s₀ s s' : τ}
    (hts : ReadsAll resolver s₀ ts s) (h : take resolver token ts s = (.ok us, s')) :
    ReadsAll resolver s₀ us s' ∧ namesAll us = namesAll ts ++ [token] := by
  refine ⟨?_, namesAll_take h⟩
  unfold take at h
  split at h
  · split at h
    · cases h
      cases hts with
      | cons hts hr =>
        cases hts with
        | cons hts hl => exact .cons hts (.node _ hl hr)
    · cases h
  · rename_i ho
    cases hs : (readValue resolver token s).result with
    | error e => rw [hs] at h; cases h
    | ok source =>
      rw [hs] at h
      cases h
      exact .cons hts (.leaf { name := token, source } s ho hs)

theorem takeAll_ok {resolver : Option (Resolver τ ι)} {rest : List String} {ts us : List (Term (Operand ι))}
    {s₀ s s' : τ} (hts : ReadsAll resolver s₀ ts s) (h : takeAll resolver rest ts s = (.ok us, s')) :
    ReadsAll resolver s₀ us s' ∧ namesAll us = namesAll ts ++ rest := by
  induction rest generalizing ts s with
  | nil => cases h; exact ⟨hts, by simp⟩
  | cons token rest ih =>
    rw [takeAll] at h
    rcases ht : take resolver token ts s with ⟨e | vs, s₁⟩
    · rw [ht] at h; cases h
    · rw [ht] at h
      obtain ⟨hvs, hn⟩ := take_ok hts ht
      obtain ⟨hus, hm⟩ := ih hvs h
      exact ⟨hus, by rw [hm, hn, List.append_assoc, List.singleton_append]⟩

/-- One term is left exactly if the tokens are those of a term whose values are read. -/
theorem takeAll_eq_singleton_iff {resolver : Option (Resolver τ ι)} {tokens : List String} {t : Term (Operand ι)}
    {s s' : τ} : takeAll resolver tokens [] s = (.ok [t], s') ↔ Reads resolver s t s' ∧ t.names = tokens := by
  constructor
  · intro h
    obtain ⟨hts, hn⟩ := takeAll_ok .nil h
    cases hts with
    | cons hnil hr =>
      cases hnil
      exact ⟨hr, by simpa [namesAll] using hn⟩
  · rintro ⟨hr, rfl⟩
    have h := takeAll_names hr [] []
    rwa [List.append_nil] at h

end Term

/-- An expression is built exactly if its tokens are those of a term whose values are read, and
    then its program is that of the term. -/
theorem Program.parse_eq_ok_iff {resolver : Option (Resolver τ ι)} {text : String} {lookups : τ} {p : Program ι} :
    (Program.parse resolver text lookups).result = .ok p ↔
      ∃ t lookups', Term.Reads resolver lookups t lookups' ∧ t.names = tokenize text ∧ p = ofTerm t := by
  rw [parse_eq]
  constructor
  · intro h
    rcases ht : Term.takeAll resolver (tokenize text) [] lookups with ⟨e | us, s'⟩
    · rw [ht] at h; cases h
    · rw [ht] at h
      match us, h with
      | [t], h =>
        cases h
        obtain ⟨hr, hn⟩ := Term.takeAll_eq_singleton_iff.mp ht
        exact ⟨t, s', hr, hn, rfl⟩
  · intro h
    obtain ⟨t, s', hr, hn, rfl⟩ := h
    rw [Term.takeAll_eq_singleton_iff.mpr ⟨hr, hn⟩]

/-! ## Resolvers that go by the name -/

def Resolver.ByName (r : Resolver τ ι) : Prop := ∀ name s s', (r name s).1 = (r name s').1

/-- Every name is its own loader. -/
def Resolver.itself : Resolver Unit String := .ofFunction fun name => .ok (.dynamic name)

theorem Resolver.itself_byName : ∀ r ∈ some itself, r.ByName := by
  intro r hr name s s'
  cases hr
  rfl

theorem readValue_byName {resolver : Option (Resolver τ ι)} (h : ∀ r ∈ resolver, r.ByName) (token : String)
    (s s' : τ) : (readValue resolver token s).result = (readValue resolver token s').result := by
  unfold readValue
  cases Double.Literal.parse? token with
  | some x => rfl
  | none =>
    cases resolver with
    | none => rfl
    | some r =>
      have hr := h r rfl token s s'
      rcases h₁ : r token s with ⟨e | source, t⟩ <;> rcases h₂ : r token s' with ⟨e' | source', t'⟩ <;>
        rw [h₁, h₂] at hr <;> cases hr <;> simp only [h₁, h₂]

theorem Term.take_byName {resolver : Option (Resolver τ ι)} (h : ∀ r ∈ resolver, r.ByName) (token : String)
    (ts : List (Term (Operand ι))) (s s' : τ) : (take resolver token ts s).1 = (take resolver token ts s').1 := by
  unfold take
  split
  · split <;> rfl
  · rw [readValue_byName h token s s']

theorem Term.takeAll_byName {resolver : Option (Resolver τ ι)} (h : ∀ r ∈ resolver, r.ByName) (tokens : List String)
    (ts : List (Term (Operand ι))) (s s' : τ) :
    (takeAll resolver tokens ts s).1 = (takeAll resolver tokens ts s').1 := by
  induction tokens generalizing ts s s' with
  | nil => rfl
  | cons token rest ih =>
    have ht := take_byName h token ts s s'
    unfold takeAll
    rcases h₁ : take resolver token ts s with ⟨e | us, t⟩ <;>
      rcases h₂ : take resolver token ts s' with ⟨e' | us', t'⟩ <;> rw [h₁, h₂] at ht <;> cases ht
    · rfl
    · exact ih _ _ _

end ReversePolish
