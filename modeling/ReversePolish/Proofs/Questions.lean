/-
  ReversePolish.Proofs.Questions — what a resolver is asked while a text is read.

  A resolver that also writes down each name it is asked for, with its answer, reads every
  text as before (`result_parse_logged`), so what it has written in the end are the questions
  of the text. They are said here of the tokens: asked for are those that are neither an
  operator nor a literal, one after another, each as often as it stands there, and each in
  the state that the questions before it leave (`askAll`).

  What a resolver is left with after some tokens is what is left after asking for those
  among them (`lookupsAfter_logged`). A text is read up to its first refused token, so the
  questions are those of the tokens up to there (`lookups_parse_of_refusal`): a name that the
  resolver fails on is the last one asked for, and an operator that lacks an operand asks
  for nothing. Folding takes constants away only, so the dynamic operands that are left carry
  the loaders of the answers, in the order of the questions (`dynamics_leaves_fold`).
  `resolver_is_asked` puts this together.
-/

import ReversePolish.Proofs.Acceptance
import ReversePolish.Proofs.Canonical

namespace ReversePolish

variable {τ ι : Type}

/-! ## Asking -/

structure Question (ι : Type) where
  name : String
  answer : Except ResolveError (Source ι)
  deriving DecidableEq

namespace Resolver

def logged (r : Resolver τ ι) : Resolver (τ × List (Question ι)) ι :=
  fun name s => ((r name s.1).1, (r name s.1).2, s.2 ++ [{ name, answer := (r name s.1).1 }])

/-- The questions for some names, one after another, and what the resolver is left with. -/
def askAll (r : Resolver τ ι) : List String → τ → List (Question ι) × τ
  | [], s => ([], s)
  | name :: rest, s =>
    let (answer, s) := r name s
    let (questions, s) := askAll r rest s
    ({ name, answer } :: questions, s)

theorem askAll_append (r : Resolver τ ι) (before after : List String) (s : τ) :
    r.askAll (before ++ after) s =
      ((r.askAll before s).1 ++ (r.askAll after (r.askAll before s).2).1,
        (r.askAll after (r.askAll before s).2).2) := by
  induction before generalizing s with
  | nil => rfl
  | cons name rest ih => simp only [List.cons_append, askAll, ih]

theorem askAll_logged (r : Resolver τ ι) (names : List String) (s : τ) (log : List (Question ι)) :
    (r.logged.askAll names (s, log)).2 = ((r.askAll names s).2, log ++ (r.askAll names s).1) := by
  induction names generalizing s log with
  | nil => simp [askAll]
  | cons name rest ih => simp only [askAll, logged, ih, List.append_assoc, List.singleton_append]

theorem map_name_askAll (r : Resolver τ ι) (names : List String) (s : τ) :
    (r.askAll names s).1.map Question.name = names := by
  induction names generalizing s with
  | nil => rfl
  | cons name rest ih => simp only [askAll, List.map_cons, ih]

end Resolver

/-- A token that is neither an operator nor a literal. -/
def isName (token : String) : Bool :=
  (Operator.ofSymbol? token).isNone && (Double.Literal.parse? token).isNone

def namesIn (tokens : List String) : List String := tokens.filter isName

theorem isName_iff {token : String} :
    isName token = true ↔ Operator.ofSymbol? token = none ∧ Double.Literal.parse? token = none := by
  simp [isName]

theorem isName_operator {token : String} {o : Operator} (h : Operator.ofSymbol? token = some o) :
    isName token = false := by
  simp [isName, h]

theorem isName_literal {token : String} {x : Float} (h : Double.Literal.parse? token = some x) :
    isName token = false := by
  simp [isName, h]

theorem namesIn_append (before after : List String) : namesIn (before ++ after) = namesIn before ++ namesIn after :=
  List.filter_append before after

theorem Term.namesIn_node (o : Operator) (l r : Term (Operand ι)) :
    namesIn (node o l r).names = namesIn l.names ++ namesIn r.names := by
  simp [namesIn, tokens, isName]

theorem namesIn_cons_of_name {token : String} (h : isName token = true) (rest : List String) :
    namesIn (token :: rest) = token :: namesIn rest := List.filter_cons_of_pos h

theorem namesIn_cons_of_not {token : String} (h : isName token = false) (rest : List String) :
    namesIn (token :: rest) = namesIn rest := List.filter_cons_of_neg (Bool.eq_false_iff.mp h)

/-- The token in place `i` is a name that the resolver fails on, in the state that the questions before leave. -/
def FailsAt (r : Resolver τ ι) (tokens : List String) (s : τ) (i : Nat) : Prop :=
  ∃ name cause, tokens[i]? = some name ∧ isName name = true ∧
    (r name (r.askAll (namesIn (tokens.take i)) s).2).1 = .error cause

def LacksAt (tokens : List String) (i : Nat) : Prop :=
  ∃ o : Operator, tokens[i]? = some o.symbol ∧ height (tokens.take i) < 2

/-! ## Reading with a log -/

section

variable (r : Resolver τ ι)

theorem readValue_logged (token : String) (s : τ) (log : List (Question ι)) :
    (readValue (some r.logged) token (s, log)).result = (readValue (some r) token s).result ∧
      (readValue (some r.logged) token (s, log)).lookups.1 = (readValue (some r) token s).lookups := by
  unfold readValue
  cases Double.Literal.parse? token with
  | some x => exact ⟨rfl, rfl⟩
  | none =>
    simp only [Resolver.logged]
    rcases r token s with ⟨cause | source, s'⟩
    · exact ⟨rfl, rfl⟩
    · exact ⟨rfl, rfl⟩

/-- A literal leaves the resolver alone; any other value asks it. -/
theorem lookups_readValue (token : String) (s : τ) :
    (readValue (some r) token s).lookups =
      if (Double.Literal.parse? token).isNone then (r token s).2 else s := by
  unfold readValue
  cases Double.Literal.parse? token with
  | some x => rfl
  | none =>
    simp only [Option.isNone_none, if_true]
    rcases r token s with ⟨cause | source, s'⟩
    · rfl
    · rfl

namespace Term

theorem take_logged (token : String) (ts : List (Term (Operand ι))) (s : τ) (log : List (Question ι)) :
    (take (some r.logged) token ts (s, log)).1 = (take (some r) token ts s).1 ∧
      (take (some r.logged) token ts (s, log)).2.1 = (take (some r) token ts s).2 := by
  unfold take
  split
  · split <;> exact ⟨rfl, rfl⟩
  · obtain ⟨hr, hs⟩ := readValue_logged r token s log
    exact ⟨by rw [hr], hs⟩

theorem takeAll_logged (tokens : List String) (ts : List (Term (Operand ι))) (s : τ) (log : List (Question ι)) :
    (takeAll (some r.logged) tokens ts (s, log)).1 = (takeAll (some r) tokens ts s).1 ∧
      (takeAll (some r.logged) tokens ts (s, log)).2.1 = (takeAll (some r) tokens ts s).2 := by
  induction tokens generalizing ts s log with
  | nil => exact ⟨rfl, rfl⟩
  | cons token rest ih =>
    obtain ⟨hr, hs⟩ := take_logged r token ts s log
    unfold takeAll
    rcases h : take (some r.logged) token ts (s, log) with ⟨e | us, s₁, log₁⟩ <;>
      rcases h' : take (some r) token ts s with ⟨e' | us', s₂⟩ <;> rw [h, h'] at hr hs <;> cases hr <;> cases hs
    · exact ⟨rfl, rfl⟩
    · exact ih us _ log₁

end Term

theorem Program.lookups_parse (resolver : Option (Resolver τ ι)) (text : String) (s : τ) :
    (Program.parse resolver text s).lookups = (Term.takeAll resolver (tokenize text) [] s).2 := by
  obtain ⟨events, h⟩ := Assembler.pushAll_ofTerms resolver (tokenize text) [] s #[]
  rw [Assembler.ofTerms_nil] at h
  simp only [parse, h]
  rcases (Term.takeAll resolver (tokenize text) [] s).1 with e | us
  · rfl
  · simp only [Except.map]
    cases (Assembler.ofTerms us).finish with
    | error e => rfl
    | ok p => rfl

/-- Writing the questions down changes neither the result nor what the resolver is left with. -/
theorem result_parse_logged (text : String) (s : τ) (log : List (Question ι)) :
    (Program.parse (some r.logged) text (s, log)).result = (Program.parse (some r) text s).result ∧
      (Program.parse (some r.logged) text (s, log)).lookups.1 = (Program.parse (some r) text s).lookups := by
  obtain ⟨hr, hs⟩ := Term.takeAll_logged r (tokenize text) [] s log
  exact ⟨by rw [Program.parse_eq, Program.parse_eq, hr], by rw [Program.lookups_parse, Program.lookups_parse, hs]⟩

/-- After some tokens a resolver is in the state that the questions for the names among them leave. -/
theorem lookupsAfter_eq_askAll (tokens : List String) (s : τ) :
    lookupsAfter (some r) tokens s = (r.askAll (namesIn tokens) s).2 := by
  induction tokens generalizing s with
  | nil => rfl
  | cons token rest ih =>
    cases hop : Operator.ofSymbol? token with
    | some o => simp only [lookupsAfter, hop, namesIn_cons_of_not (isName_operator hop), ih]
    | none =>
      cases hlit : Double.Literal.parse? token with
      | some x =>
        simp only [lookupsAfter, hop, lookups_readValue, hlit, Option.isNone_some, Bool.false_eq_true, if_false,
          namesIn_cons_of_not (isName_literal hlit), ih]
      | none =>
        simp only [lookupsAfter, hop, lookups_readValue, hlit, Option.isNone_none, if_true, ih,
          namesIn_cons_of_name (isName_iff.mpr ⟨hop, hlit⟩), Resolver.askAll]

/-- It was asked for these names, in order. -/
theorem lookupsAfter_logged (tokens : List String) (s : τ) (log : List (Question ι)) :
    lookupsAfter (some r.logged) tokens (s, log) =
      ((r.askAll (namesIn tokens) s).2, log ++ (r.askAll (namesIn tokens) s).1) := by
  rw [lookupsAfter_eq_askAll, Resolver.askAll_logged]

/-! ## Up to the first refused token -/

theorem exists_missing?_iff {token : String} {s : τ} :
    (∃ cause, missing? (some r) token s = some cause) ↔
      Double.Literal.parse? token = none ∧ ∃ cause, (r token s).1 = .error cause := by
  unfold missing?
  cases Double.Literal.parse? token with
  | some x => simp
  | none =>
    cases h : (r token s).1 with
    | error cause => simp [h]
    | ok source => simp [h]

/-- A token is refused just if the resolver fails on it or it is an operator that lacks an operand. -/
theorem refusal?_logged_iff {tokens : List String} {s : τ} {i : Nat} :
    (∃ e, refusal? (some r.logged) tokens (s, []) i = some e) ↔ FailsAt r tokens s i ∨ LacksAt tokens i := by
  unfold refusal? FailsAt LacksAt
  cases ht : tokens[i]? with
  | none => simp
  | some token =>
    cases hop : Operator.ofSymbol? token with
    | some o =>
      have hname := isName_operator hop
      obtain rfl := Operator.eq_symbol hop
      by_cases hlt : height (tokens.take i) < 2
      · simp only [hop, hlt, Option.some.injEq, and_true]
        exact iff_of_true ⟨_, rfl⟩ (Or.inr ⟨o, rfl⟩)
      · simp [hop, hlt, hname]
    | none =>
      have hne : ∀ o : Operator, token ≠ o.symbol := by
        rintro o rfl
        rw [Operator.ofSymbol?_symbol] at hop
        cases hop
      simp only [hop, lookupsAfter_logged, Option.map_eq_some_iff, Option.some.injEq, hne, false_and, exists_false,
        or_false]
      have hm := @exists_missing?_iff _ _ r.logged token ((r.askAll (namesIn (tokens.take i)) s).2,
        [] ++ (r.askAll (namesIn (tokens.take i)) s).1)
      constructor
      · rintro ⟨_, cause, hc, -⟩
        obtain ⟨hlit, cause', hr⟩ := hm.mp ⟨cause, hc⟩
        exact ⟨token, cause', rfl, isName_iff.mpr ⟨hop, hlit⟩, hr⟩
      · rintro ⟨_, cause, rfl, hname, hr⟩
        obtain ⟨cause', hc⟩ := hm.mpr ⟨(isName_iff.mp hname).2, cause, hr⟩
        exact ⟨_, cause', hc, rfl⟩

end

/-- Whether it is taken or refused, a token asks what it has to ask. -/
theorem Term.lookups_take (resolver : Option (Resolver τ ι)) (token : String) (ts : List (Term (Operand ι))) (s : τ) :
    (take resolver token ts s).2 = lookupsAfter resolver [token] s := by
  unfold take
  split
  · rename_i o ho
    simp only [lookupsAfter, ho]
    split <;> rfl
  · rename_i ho
    simp only [lookupsAfter, ho]

/-- The resolver is asked for the tokens up to the first that is refused. -/
theorem lookups_parse_of_refusal {resolver : Option (Resolver τ ι)} {text : String} {s : τ} {i : Nat} {e : BuildError}
    (h : refusal? resolver (tokenize text) s i = some e)
    (hfirst : ∀ j < i, refusal? resolver (tokenize text) s j = none) :
    (Program.parse resolver text s).lookups = lookupsAfter resolver ((tokenize text).take (i + 1)) s := by
  obtain ⟨token, ht⟩ := refusal?_of_le h
  have hi : i < (tokenize text).length := (List.getElem?_eq_some_iff.mp ht).1
  obtain ⟨ts, s', htake, hts, hn⟩ := Term.takeAll_before (Nat.le_of_lt hi) hfirst
  have hs' := (Term.namesAll_of_readsAll hts).2.2
  rw [hn] at hs'
  have hnext := Term.take_refusal ht hts hn
  rw [h] at hnext
  have hsplit : tokenize text = (tokenize text).take i ++ token :: (tokenize text).drop (i + 1) := by
    rw [← (List.getElem?_eq_some_iff.mp ht).2, List.getElem_cons_drop, List.take_append_drop]
  rw [Program.lookups_parse, hsplit, Term.takeAll_append, htake, ← hsplit, List.take_add_one, ht,
    lookupsAfter_append, hs', Option.toList_some, ← Term.lookups_take resolver token ts s']
  simp only [Term.takeAll]
  rcases hp : Term.take resolver token ts s' with ⟨result, s''⟩
  rw [hp] at hnext
  subst hnext
  rfl

/-- Without a refusal the resolver is asked for all tokens. -/
theorem lookups_parse_of_unrefused {resolver : Option (Resolver τ ι)} {text : String} {s : τ}
    (h : ∀ i, refusal? resolver (tokenize text) s i = none) :
    (Program.parse resolver text s).lookups = lookupsAfter resolver (tokenize text) s := by
  obtain ⟨ts, s', htake, hts, hn⟩ := Term.takeAll_before (Nat.le_refl _) fun j _ => h j
  rw [List.take_length] at htake hn
  rw [Program.lookups_parse, htake, ← hn]
  exact (Term.namesAll_of_readsAll hts).2.2.symm

/-! ## What becomes of the answers -/

/-- The operands that are read by their names, as questions with their answers. -/
def answered (operands : List (Operand ι)) : List (Question ι) :=
  (operands.filter fun operand => isName operand.name).map fun operand =>
    { name := operand.name, answer := .ok operand.source }

def dynamics (operands : List (Operand ι)) : List (String × ι) :=
  operands.filterMap fun operand => operand.source.loader?.map (operand.name, ·)

def Question.dynamics (questions : List (Question ι)) : List (String × ι) :=
  questions.filterMap fun question => (question.answer.toOption.bind Source.loader?).map (question.name, ·)

theorem answered_append (before after : List (Operand ι)) :
    answered (before ++ after) = answered before ++ answered after := by
  rw [answered, List.filter_append, List.map_append]
  rfl

theorem answered_of_name {operand : Operand ι} (h : isName operand.name = true) :
    answered [operand] = [{ name := operand.name, answer := .ok operand.source }] := by
  simp [answered, h]

theorem answered_of_not {operand : Operand ι} (h : isName operand.name = false) : answered [operand] = [] := by
  simp [answered, h]

namespace Term

theorem dynamics_of_constant? {t : Term (Operand ι)} {x : Float} (h : t.constant? = some x) :
    dynamics t.leaves = [] := by
  obtain ⟨name, rfl⟩ := eq_of_constant? h
  rfl

/-- Folding takes no operand away that is read anew, and keeps their order. -/
theorem dynamics_leaves_fold (t : Term (Operand ι)) : dynamics t.fold.leaves = dynamics t.leaves := by
  induction t with
  | leaf operand => rfl
  | node o l r ihl ihr =>
    have hlr : dynamics (node o l r).leaves = dynamics l.fold.leaves ++ dynamics r.fold.leaves := by
      rw [ihl, ihr]
      exact List.filterMap_append
    rcases fold_node_cases o l r with ⟨x, y, hx, hy, hf, -⟩ | ⟨hf, -⟩
    · rw [hlr, hf, dynamics_of_constant? hx, dynamics_of_constant? hy]
      rfl
    · rw [hlr, hf]
      exact List.filterMap_append

/-- What a value token is read as: a literal is a constant, and a name is what is answered for it. -/
theorem source_of_leaf {r : Resolver τ ι} {operand : Operand ι} {s : τ}
    (hop : Operator.ofSymbol? operand.name = none)
    (hs : (readValue (some r) operand.name s).result = .ok operand.source) :
    (isName operand.name = false ∧ operand.source.loader? = none) ∨
      (isName operand.name = true ∧ (r operand.name s).1 = .ok operand.source) := by
  unfold readValue at hs
  cases hlit : Double.Literal.parse? operand.name with
  | some x =>
    simp only [hlit, Except.ok.injEq] at hs
    refine Or.inl ⟨isName_literal hlit, ?_⟩
    rw [← hs]
    rfl
  | none =>
    refine Or.inr ⟨isName_iff.mpr ⟨hop, hlit⟩, ?_⟩
    simp only [hlit] at hs
    rcases ha : r operand.name s with ⟨cause | source, s'⟩
    · rw [ha] at hs
      cases hs
    · rw [ha] at hs
      exact congrArg Except.ok (Except.ok.inj hs)

/-- Each leaf that is a name has the answer to the question for its own token, be it a loader or a constant. -/
theorem answered_leaves {r : Resolver τ ι} {t : Term (Operand ι)} {s s' : τ} (h : Reads (some r) s t s') :
    answered t.leaves = (r.askAll (namesIn t.names) s).1 := by
  induction h with
  | leaf operand s hop hs =>
    rw [leaves, names, tokens]
    rcases source_of_leaf hop hs with ⟨hname, -⟩ | ⟨hname, ha⟩
    · rw [answered_of_not hname, namesIn_cons_of_not hname]
      rfl
    · rw [answered_of_name hname, namesIn_cons_of_name hname, ← ha]
      rfl
  | @node o l r' s s₁ s₂ hl hr ihl ihr =>
    -- the right operand is asked for in the state that the questions of the left one leave
    have hs₁ : s₁ = (r.askAll (namesIn l.names) s).2 := by rw [← lookupsAfter_eq_askAll, lookupsAfter_names hl]
    rw [leaves, answered_append, ihl, ihr, namesIn_node, Resolver.askAll_append, hs₁]

/-- Only names are read anew. -/
theorem dynamics_answered {r : Resolver τ ι} {t : Term (Operand ι)} {s s' : τ} (h : Reads (some r) s t s') :
    Question.dynamics (answered t.leaves) = dynamics t.leaves := by
  induction h with
  | leaf operand s hop hs =>
    rw [leaves]
    rcases source_of_leaf hop hs with ⟨hname, hsource⟩ | ⟨hname, -⟩
    · rw [answered_of_not hname, dynamics, List.filterMap_cons, hsource]
      rfl
    · rw [answered_of_name hname]
      rfl
  | node o hl hr ihl ihr =>
    rw [leaves, answered_append, Question.dynamics, List.filterMap_append, dynamics, List.filterMap_append]
    exact congrArg₂ (· ++ ·) ihl ihr

end Term

/-! ## The questions of a text -/

def Resolver.questions (r : Resolver τ ι) (text : String) (s : τ) : List (Question ι) :=
  (Program.parse (some r.logged) text (s, [])).lookups.2

theorem questions_of_first {r : Resolver τ ι} {text : String} {s : τ} {i : Nat}
    (h : FailsAt r (tokenize text) s i ∨ LacksAt (tokenize text) i)
    (hfirst : ∀ j < i, ¬FailsAt r (tokenize text) s j ∧ ¬LacksAt (tokenize text) j) :
    r.questions text s = (r.askAll (namesIn ((tokenize text).take (i + 1))) s).1 := by
  obtain ⟨e, he⟩ := (refusal?_logged_iff r).mpr h
  have hbefore : ∀ j < i, refusal? (some r.logged) (tokenize text) (s, []) j = none := by
    intro j hj
    cases hr : refusal? (some r.logged) (tokenize text) (s, []) j with
    | none => rfl
    | some e => exact absurd ((refusal?_logged_iff r).mp ⟨e, hr⟩) (not_or.mpr (hfirst j hj))
  rw [Resolver.questions, lookups_parse_of_refusal he hbefore, lookupsAfter_logged]
  rfl

theorem questions_of_unrefused {r : Resolver τ ι} {text : String} {s : τ}
    (h : ∀ i, refusal? (some r.logged) (tokenize text) (s, []) i = none) :
    r.questions text s = (r.askAll (namesIn (tokenize text)) s).1 := by
  rw [Resolver.questions, lookups_parse_of_unrefused h, lookupsAfter_logged]
  rfl

theorem questions_of_none {r : Resolver τ ι} {text : String} {s : τ}
    (h : ∀ i, ¬FailsAt r (tokenize text) s i ∧ ¬LacksAt (tokenize text) i) :
    r.questions text s = (r.askAll (namesIn (tokenize text)) s).1 := by
  refine questions_of_unrefused ?_
  intro i
  cases hr : refusal? (some r.logged) (tokenize text) (s, []) i with
  | none => rfl
  | some e => exact absurd ((refusal?_logged_iff r).mp ⟨e, hr⟩) (not_or.mpr (h i))

/-- A text that is read to its end has asked for all its names. -/
theorem questions_of_parse {r : Resolver τ ι} {text : String} {s : τ} {p : Program ι}
    (h : (Program.parse (some r) text s).result = .ok p) :
    r.questions text s = (r.askAll (namesIn (tokenize text)) s).1 := by
  rw [← (result_parse_logged r text s []).1] at h
  exact questions_of_unrefused (unrefused_of_parse h)

/-- Wherever reading stops, the questions are those of the names up to there. -/
theorem exists_questions_eq (r : Resolver τ ι) (text : String) (s : τ) :
    ∃ k, r.questions text s = (r.askAll (namesIn ((tokenize text).take k)) s).1 := by
  by_cases h : ∃ i, FailsAt r (tokenize text) s i ∨ LacksAt (tokenize text) i
  · classical
    refine ⟨Nat.find h + 1, questions_of_first (Nat.find_spec h) ?_⟩
    intro j hj
    exact not_or.mp (Nat.find_min h hj)
  · refine ⟨(tokenize text).length, ?_⟩
    rw [List.take_length]
    exact questions_of_none fun i => not_or.mp fun hi => h ⟨i, hi⟩

theorem isName_of_mem_questions {r : Resolver τ ι} {text : String} {s : τ} {q : Question ι}
    (h : q ∈ r.questions text s) : q.name ∈ tokenize text ∧ isName q.name = true := by
  obtain ⟨k, hk⟩ := exists_questions_eq r text s
  have hmem : q.name ∈ namesIn ((tokenize text).take k) := by
    rw [← r.map_name_askAll (namesIn ((tokenize text).take k)) s, ← hk]
    exact List.mem_map_of_mem h
  obtain ⟨htake, hname⟩ := List.mem_filter.mp hmem
  exact ⟨List.mem_of_mem_take htake, hname⟩

/-- An operator that lacks an operand is itself no name. -/
theorem LacksAt.namesIn_take {tokens : List String} {i : Nat} (h : LacksAt tokens i) :
    namesIn (tokens.take (i + 1)) = namesIn (tokens.take i) := by
  obtain ⟨o, ht, -⟩ := h
  rw [List.take_add_one, ht]
  simp [namesIn, isName]

/-- Texts that look like names and are none. -/
def misleading : List String := ["if", "inf", "NaN", "h1", "hbad", "b10", "o7"]

theorem isName_of_mem_misleading : ∀ token ∈ misleading, isName token = false := by
  decide +kernel

structure Inquiry (r : Resolver τ ι) (text : String) (s : τ) : Prop where
  /-- Writing the questions down does not change what is read. -/
  logged : (Program.parse (some r.logged) text (s, [])).result = (Program.parse (some r) text s).result ∧
    (Program.parse (some r.logged) text (s, [])).lookups.1 = (Program.parse (some r) text s).lookups
  /-- All names are asked for, unless reading stops before. -/
  complete : (∀ i, ¬FailsAt r (tokenize text) s i ∧ ¬LacksAt (tokenize text) i) →
    r.questions text s = (r.askAll (namesIn (tokenize text)) s).1
  /-- The first name that the resolver fails on is the last one asked for. -/
  failing : ∀ i, FailsAt r (tokenize text) s i →
    (∀ j < i, ¬FailsAt r (tokenize text) s j ∧ ¬LacksAt (tokenize text) j) →
    r.questions text s = (r.askAll (namesIn ((tokenize text).take (i + 1))) s).1
  /-- From the first operator that lacks an operand on there are no questions. -/
  lacking : ∀ i, LacksAt (tokenize text) i →
    (∀ j < i, ¬FailsAt r (tokenize text) s j ∧ ¬LacksAt (tokenize text) j) →
    r.questions text s = (r.askAll (namesIn ((tokenize text).take i)) s).1
  names : ∀ q ∈ r.questions text s, q.name ≠ "" ∧ Operator.ofSymbol? q.name = none ∧
    Double.Literal.parse? q.name = none ∧ q.name ∉ misleading
  /-- The program is that of a term over the tokens whose leaves are read one after another, and each leaf that is
      a name has the answer to its own question. The dynamic ones among them are the program's dynamic operands. -/
  loaders : ∀ p, (Program.parse (some r) text s).result = .ok p →
    ∃ t s', Term.Reads (some r) s t s' ∧ t.names = tokenize text ∧ p = .ofTerm t ∧
      answered t.leaves = r.questions text s ∧
      dynamics t.leaves = Question.dynamics (r.questions text s) ∧
      dynamics p.operands.toList = Question.dynamics (r.questions text s)

/-- A resolver is asked for just the names of a text, in order, until a name or an operator is refused, and each
    dynamic operand has the loader that it answered for the operand's own token. -/
theorem resolver_is_asked (r : Resolver τ ι) (text : String) (s : τ) : Inquiry r text s where
  logged := result_parse_logged r text s []
  complete := questions_of_none
  failing := fun i h hfirst => questions_of_first (Or.inl h) hfirst
  lacking := by
    intro i h hfirst
    rw [questions_of_first (Or.inr h) hfirst, h.namesIn_take]
  names := by
    intro q hq
    obtain ⟨hmem, hname⟩ := isName_of_mem_questions hq
    obtain ⟨hop, hlit⟩ := isName_iff.mp hname
    refine ⟨(isToken_of_mem_tokenize hmem).nonempty, hop, hlit, ?_⟩
    intro hm
    rw [isName_of_mem_misleading _ hm] at hname
    cases hname
  loaders := by
    intro p hp
    obtain ⟨t, s', hr, hn, rfl⟩ := Program.parse_eq_ok_iff.mp hp
    have hq : r.questions text s = answered t.leaves := by
      rw [Term.answered_leaves hr, hn, questions_of_parse hp]
    refine ⟨t, s', hr, hn, rfl, hq.symm, ?_, ?_⟩
    · rw [hq, Term.dynamics_answered hr]
    · rw [hq, Term.dynamics_answered hr, ← Term.dynamics_leaves_fold]
      simp [Program.ofTerm, Program.ofParts]

/-- A resolver that answers differently at each call: the constant of the second answer is folded away, the loaders
    of the others stay with their own tokens, and of two equal names each keeps its own answer. After a name that
    is unknown nothing is asked. -/
theorem resolver_is_asked_anew :
    ∃ r : Resolver Nat Nat,
      r.questions "x 2 x * + x inf - -" 0 =
        [⟨"x", .ok (.dynamic 0)⟩, ⟨"x", .ok (.constant 5)⟩, ⟨"x", .ok (.dynamic 2)⟩] ∧
      (Program.parse (some r) "x 2 x * + x inf - -" 0).result.map (fun p => (p.text, dynamics p.operands.toList)) =
        .ok ("x 10 + x inf - -", [("x", 0), ("x", 2)]) ∧
      Inquiry r "x 2 x * + x inf - -" 0 ∧
      (Program.parse (some r) "x x -" 0).result.map (fun p => p.operands.toList) =
        .ok [⟨"x", .dynamic 0⟩, ⟨"x", .constant 5⟩] ∧
      Inquiry r "x x -" 0 ∧
      (r.questions "x h1 gone + x" 0).map Question.name = ["x", "gone"] ∧
      Inquiry r "x h1 gone + x" 0 := by
  refine ⟨fun name n =>
    (if name = "gone" then .error (.unknown name)
      else if n % 2 = 0 then .ok (.dynamic n)
      else .ok (.constant 5), n + 1),
    ?_, ?_, resolver_is_asked _ _ 0, ?_, resolver_is_asked _ _ 0, ?_, resolver_is_asked _ _ 0⟩
  · decide +kernel
  · decide +kernel
  · decide +kernel
  · decide +kernel

end ReversePolish
