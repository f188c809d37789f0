/-
  ReversePolish.Proofs.Trace — what a build and the dropping of its result report, in order.

  A trace has five parts. While a text is read, every token that is taken is the last token
  of a term, and what it reports is said of this term (`report`): a name that it was
  resolved, an operator over two constants that it was folded, and any other token nothing.
  The terms so ended stand in the order of the tokens (`reports`), so one token adds its
  report at the end (`reports_push`), and a text reports up to its first refused token
  (`pushAll_reports`). The names among them are the successful questions to the resolver
  (`resolutions_taken`), and the foldings are as many as the program counts.

  Then the program is announced. Making an evaluator of it reports a tree that is too deep,
  or the code that was generated and what became of it; code that is too large is freed
  at once. An expression is announced last, and if it is native code, dropping it frees
  its region. `trace_matches_outcome` states the parts one by one.
-/

import ReversePolish.Proofs.Outcome
import ReversePolish.Proofs.Questions
import ReversePolish.Proofs.Selection

namespace ReversePolish

variable {τ ι : Type}

/-! ## The reports of tokens -/

namespace Event

def isResolution : Event → Bool
  | symbolResolved _ _ => true
  | _ => false

def isFolding : Event → Bool
  | operationFolded _ _ _ _ => true
  | _ => false

end Event

namespace Term

def report : Term (Operand ι) → List Event
  | leaf operand => if isName operand.name then [.symbolResolved operand.name operand.source.isConstant] else []
  | node o l r =>
    match l.value?, r.value? with
    | some x, some y => [.operationFolded o x y (o.apply x y)]
    | _, _ => []

/-- The terms that end with the tokens of a stack of terms, in the order of the tokens. -/
def subtermsAll (ts : List (Term (Operand ι))) : List (Term (Operand ι)) := ts.reverse.flatMap subterms

def reports (ts : List (Term (Operand ι))) : List Event := (subtermsAll ts).flatMap report

@[simp] theorem reports_nil : reports ([] : List (Term (Operand ι))) = [] := rfl

@[simp] theorem reports_cons (t : Term (Operand ι)) (ts : List (Term (Operand ι))) :
    reports (t :: ts) = reports ts ++ t.subterms.flatMap report := by
  simp [reports, subtermsAll]

theorem map_lastToken_subtermsAll (ts : List (Term (Operand ι))) :
    (subtermsAll ts).map (lastToken Operand.name) = namesAll ts := by
  induction ts with
  | nil => rfl
  | cons t ts ih =>
    rw [namesAll_cons, ← ih, names, tokens_eq_map_subterms]
    simp [subtermsAll]

theorem joinEvents_fold (o : Operator) (l r : Term (Operand ι)) :
    Assembler.joinEvents o l.fold r.fold = (node o l r).report := by
  cases hl : l.value? <;> cases hr : r.value? <;>
    simp only [Assembler.joinEvents, report, constant?_fold_eq_value?, hl, hr]

theorem events_readValue (resolver : Option (Resolver τ ι)) {token : String} (h : Operator.ofSymbol? token = none)
    (s : τ) :
    (readValue resolver token s).events =
      match (readValue resolver token s).result with
      | .ok source => (leaf { name := token, source } : Term (Operand ι)).report
      | .error _ => [] := by
  unfold readValue
  cases hlit : Double.Literal.parse? token with
  | some x => simp only [report, isName_literal hlit, Bool.false_eq_true, if_false]
  | none =>
    cases resolver with
    | none => rfl
    | some resolve =>
      rcases ha : resolve token s with ⟨cause | source, s'⟩
      · simp only [ha]
      · simp only [ha, report, isName_iff.mpr ⟨h, hlit⟩, if_true]

/-- A token that is taken adds its report, and one that is refused reports nothing. -/
theorem reports_push (resolver : Option (Resolver τ ι)) (token : String) (ts : List (Term (Operand ι))) (s : τ) :
    match (take resolver token ts s).1 with
    | .ok us => reports us = reports ts ++ ((Assembler.ofTerms ts).push resolver token s).1.events
    | .error _ => ((Assembler.ofTerms ts).push resolver token s).1.events = [] := by
  unfold take Assembler.push
  cases hop : Operator.ofSymbol? token with
  | some o =>
    match ts with
    | [] => simp only [Assembler.pushOperator_few [] (by simp)]
    | [t] => simp only [Assembler.pushOperator_few [t] (by simp)]
    | r :: l :: ts =>
      simp only [Assembler.pushOperator_ofTerms, joinEvents_fold, reports_cons, subterms, List.flatMap_append,
        List.flatMap_singleton, List.append_assoc]
  | none =>
    have he := events_readValue resolver hop s
    rcases hv : readValue resolver token s with ⟨e | source, s', events⟩
    · rw [hv] at he
      exact he
    · rw [hv] at he
      have he : events = (leaf { name := token, source }).report := he
      simp only [Except.map, reports_cons, subterms, List.flatMap_singleton, he]

/-! ## Up to the first refused token -/

/-- The terms of the tokens that are taken, the last first: all tokens, or those before the first refused one. -/
structure Taken (resolver : Option (Resolver τ ι)) (tokens : List String) (s : τ) (ts : List (Term (Operand ι))) :
    Prop where
  reads : ∃ s', ReadsAll resolver s ts s'
  stops : ∃ k, namesAll ts = tokens.take k ∧ (∀ j < k, refusal? resolver tokens s j = none) ∧
    (k = tokens.length ∨ ∃ e, refusal? resolver tokens s k = some e)

structure ReadPast (resolver : Option (Resolver τ ι)) (tokens : List String) (s₀ : τ) (before : List String)
    (ts : List (Term (Operand ι))) (s : τ) : Prop where
  reads : ReadsAll resolver s₀ ts s
  names : namesAll ts = before
  unrefused : ∀ j < before.length, refusal? resolver tokens s₀ j = none

section Past

variable {resolver : Option (Resolver τ ι)} {tokens before rest : List String} {token : String} {s₀ s : τ}
  {ts us : List (Term (Operand ι))}

theorem ReadPast.ended (h : ReadPast resolver tokens s₀ tokens ts s) : Taken resolver tokens s₀ ts where
  reads := ⟨s, h.reads⟩
  stops := ⟨tokens.length, by rw [h.names, List.take_length], h.unrefused, Or.inl rfl⟩

/-- The next token is the one that a refusal there would be of. -/
theorem ReadPast.next_refusal (h : ReadPast resolver (before ++ token :: rest) s₀ before ts s) :
    match refusal? resolver (before ++ token :: rest) s₀ before.length with
    | some e => (take resolver token ts s).1 = .error e
    | none => ∃ us, (take resolver token ts s).1 = .ok us :=
  take_refusal (by simp) h.reads (by rw [h.names, List.take_left])

theorem ReadPast.refused (h : ReadPast resolver (before ++ token :: rest) s₀ before ts s) {e : BuildError}
    (he : (take resolver token ts s).1 = .error e) : Taken resolver (before ++ token :: rest) s₀ ts where
  reads := ⟨s, h.reads⟩
  stops := by
    refine ⟨before.length, by rw [h.names, List.take_left], h.unrefused, Or.inr ?_⟩
    have hnext := h.next_refusal
    cases hr : refusal? resolver (before ++ token :: rest) s₀ before.length with
    | some e' => exact ⟨e', rfl⟩
    | none =>
      rw [hr] at hnext
      obtain ⟨us, hus⟩ := hnext
      rw [he] at hus
      cases hus

theorem ReadPast.taken (h : ReadPast resolver (before ++ token :: rest) s₀ before ts s) {s' : τ}
    (ht : take resolver token ts s = (.ok us, s')) :
    ReadPast resolver (before ++ token :: rest) s₀ (before ++ [token]) us s' where
  reads := (take_ok h.reads ht).1
  names := by rw [(take_ok h.reads ht).2, h.names]
  unrefused := by
    intro j hj
    rw [List.length_append, List.length_singleton] at hj
    rcases Nat.lt_succ_iff_lt_or_eq.mp hj with hj | rfl
    · exact h.unrefused j hj
    · have hnext := h.next_refusal
      cases hr : refusal? resolver (before ++ token :: rest) s₀ before.length with
      | none => rfl
      | some e =>
        rw [hr, ht] at hnext
        cases hnext

end Past

end Term

/-- From some terms on, the tokens report what the terms do that reading ends with. -/
theorem Assembler.pushAll_reports {resolver : Option (Resolver τ ι)} {s₀ s : τ} {tokens before rest : List String}
    {ts : List (Term (Operand ι))} (h : Term.ReadPast resolver tokens s₀ before ts s)
    (htokens : tokens = before ++ rest) {log : Array Event} (hlog : log.toList = Term.reports ts) :
    ∃ us, Term.Taken resolver tokens s₀ us ∧
      (pushAll resolver rest (ofTerms ts) s log).events = Term.reports us ∧
      ∀ a, (pushAll resolver rest (ofTerms ts) s log).result = .ok a → a = ofTerms us := by
  induction rest generalizing before ts s log with
  | nil =>
    rw [List.append_nil] at htokens
    subst htokens
    refine ⟨ts, h.ended, hlog, ?_⟩
    intro a ha
    exact (Except.ok.inj ha).symm
  | cons token rest ih =>
    subst htokens
    have hreports := Term.reports_push resolver token ts s
    obtain ⟨events, hpush⟩ := push_ofTerms resolver token ts s
    rw [hpush] at hreports
    simp only [pushAll, hpush]
    rcases ht : Term.take resolver token ts s with ⟨e | us, s'⟩
    · -- the token is refused, and reading stops
      rw [ht] at hreports
      have hevents : events = [] := hreports
      refine ⟨ts, h.refused (congrArg Prod.fst ht), ?_, ?_⟩
      · simp [hevents, hlog]
      · intro a ha
        cases ha
    · rw [ht] at hreports
      have hevents : Term.reports us = Term.reports ts ++ events := hreports
      exact ih (h.taken ht) (List.append_cons before token rest) (by simp [hevents, hlog])

/-- A text reports what its taken tokens do, and then the program if there is one. -/
theorem Program.events_parse (resolver : Option (Resolver τ ι)) (text : String) (s : τ) :
    ∃ ts, Term.Taken resolver (tokenize text) s ts ∧
      (Program.parse resolver text s).events = Term.reports ts ++
        (match (Program.parse resolver text s).result with
        | .ok p => [p.builtEvent]
        | .error _ => []) ∧
      ∀ p, (Program.parse resolver text s).result = .ok p → ∃ t, ts = [t] ∧ p = ofTerm t := by
  have hstart : Term.ReadPast resolver (tokenize text) s [] [] s :=
    ⟨.nil, rfl, fun j hj => absurd hj (Nat.not_lt_zero j)⟩
  obtain ⟨ts, htaken, hevents, hresult⟩ := Assembler.pushAll_reports hstart (List.nil_append _).symm
    (show (#[] : Array Event).toList = Term.reports [] from rfl)
  rw [Assembler.ofTerms_nil] at hevents hresult
  refine ⟨ts, htaken, ?_⟩
  rw [parse]
  rcases hp : Assembler.pushAll resolver (tokenize text) {} s #[] with ⟨e | a, s', events⟩
  · rw [hp] at hevents
    refine ⟨hevents.trans (List.append_nil _).symm, ?_⟩
    intro p hok
    cases hok
  · rw [hp] at hevents hresult
    obtain rfl := hresult a rfl
    have hevents : events = Term.reports ts := hevents
    rcases ts with _ | ⟨t, _ | ⟨l, rest⟩⟩
    · refine ⟨hevents.trans (List.append_nil _).symm, ?_⟩
      intro p hok
      cases hok
    · simp only [Assembler.finish_ofTerms, hevents]
      refine ⟨trivial, ?_⟩
      intro p hok
      exact ⟨t, rfl, (Except.ok.inj hok).symm⟩
    · simp only [Assembler.finish_ofTerms, hevents, List.append_nil]
      refine ⟨trivial, ?_⟩
      intro p hok
      cases hok

/-! ## Resolutions and foldings -/

def Question.resolutions (questions : List (Question ι)) : List Event :=
  questions.filterMap fun question => question.answer.toOption.map (.symbolResolved question.name ·.isConstant)

theorem Question.resolutions_append (before after : List (Question ι)) :
    resolutions (before ++ after) = resolutions before ++ resolutions after := List.filterMap_append

section

variable (r : Resolver τ ι)

/-- Writing the questions down refuses nothing else. -/
theorem refusal?_logged (tokens : List String) (s : τ) (i : Nat) :
    refusal? (some r.logged) tokens (s, []) i = refusal? (some r) tokens s i := by
  unfold refusal?
  cases tokens[i]? with
  | none => rfl
  | some token =>
    cases hop : Operator.ofSymbol? token with
    | some o => simp only [hop]
    | none =>
      have hm : ∀ s' log, missing? (some r.logged) token (s', log) = missing? (some r) token s' := by
        intro s' log
        unfold missing?
        cases Double.Literal.parse? token <;> rfl
      simp only [hop, lookupsAfter_logged, lookupsAfter_eq_askAll r, hm]

end

namespace Term

theorem filter_report_node (o : Operator) (l r : Term (Operand ι)) :
    (node o l r).report.filter Event.isResolution = [] := by
  simp only [report]
  split <;> rfl

/-- The names of a term are resolved by the sources of its leaves. -/
theorem resolutions_report (t : Term (Operand ι)) :
    (t.subterms.flatMap report).filter Event.isResolution = Question.resolutions (answered t.leaves) := by
  induction t with
  | leaf operand =>
    cases hname : isName operand.name <;> simp [subterms, report, leaves, answered, hname, Question.resolutions,
      Event.isResolution, Except.toOption]
  | node o l r ihl ihr =>
    rw [leaves, answered_append, Question.resolutions_append, ← ihl, ← ihr, subterms, List.flatMap_append,
      List.flatMap_append, List.filter_append, List.filter_append, List.flatMap_singleton, filter_report_node,
      List.append_nil]

/-- They are resolved by the answers to the questions for them. -/
theorem resolutions_of_reads {r : Resolver τ ι} {t : Term (Operand ι)} {s s' : τ} (h : Reads (some r) s t s') :
    (t.subterms.flatMap report).filter Event.isResolution =
      Question.resolutions (r.askAll (namesIn t.names) s).1 := by
  rw [resolutions_report, answered_leaves h]

theorem resolutions_of_readsAll {r : Resolver τ ι} {ts : List (Term (Operand ι))} {s s' : τ}
    (h : ReadsAll (some r) s ts s') :
    (reports ts).filter Event.isResolution = Question.resolutions (r.askAll (namesIn (namesAll ts)) s).1 := by
  induction h with
  | nil => rfl
  | @cons ts t s' s'' hts ht ih =>
    have hs' : s' = (r.askAll (namesIn (namesAll ts)) s).2 := by
      rw [← lookupsAfter_eq_askAll, (namesAll_of_readsAll hts).2.2]
    rw [reports_cons, List.filter_append, ih, resolutions_of_reads ht, namesAll_cons, namesIn_append,
      Resolver.askAll_append, Question.resolutions_append, ← hs']

/-- Without a resolver there are literals only. -/
theorem answered_leaves_none {t : Term (Operand ι)} {s s' : τ} (h : Reads none s t s') : answered t.leaves = [] := by
  induction h with
  | leaf operand s hop hs =>
    unfold readValue at hs
    cases hlit : Double.Literal.parse? operand.name with
    | some x => exact answered_of_not (isName_literal hlit)
    | none => rw [hlit] at hs; cases hs
  | node o hl hr ihl ihr => rw [leaves, answered_append, ihl, ihr, List.append_nil]

theorem resolutions_of_readsAll_none {ts : List (Term (Operand ι))} {s s' : τ} (h : ReadsAll none s ts s') :
    (reports ts).filter Event.isResolution = [] := by
  induction h with
  | nil => rfl
  | cons hts ht ih => rw [reports_cons, List.filter_append, ih, resolutions_report, answered_leaves_none ht]; rfl

end Term

/-- A token that is refused is asked for in vain, if at all. -/
theorem resolutions_of_refusal {r : Resolver τ ι} {tokens : List String} {s : τ} {k : Nat} {e : BuildError}
    (h : refusal? (some r) tokens s k = some e) :
    Question.resolutions (r.askAll (namesIn (tokens.take (k + 1))) s).1 =
      Question.resolutions (r.askAll (namesIn (tokens.take k)) s).1 := by
  obtain ⟨token, ht⟩ := refusal?_of_le h
  rw [List.take_add_one, ht, Option.toList_some, namesIn_append, Resolver.askAll_append,
    Question.resolutions_append]
  cases hop : Operator.ofSymbol? token with
  | some o =>
    rw [namesIn_cons_of_not (isName_operator hop)]
    exact List.append_nil _
  | none =>
    unfold refusal? at h
    simp only [ht, hop, Option.map_eq_some_iff, lookupsAfter_eq_askAll] at h
    obtain ⟨cause, hm, -⟩ := h
    obtain ⟨hlit, cause', hc⟩ := (exists_missing?_iff r).mp ⟨cause, hm⟩
    have hask : (r.askAll (namesIn [token]) (r.askAll (namesIn (tokens.take k)) s).2).1 =
        [{ name := token, answer := .error cause' }] := by
      rw [namesIn_cons_of_name (isName_iff.mpr ⟨hop, hlit⟩), ← hc]
      rfl
    rw [hask]
    exact List.append_nil _

/-- The names that are resolved are those that the resolver was asked for and knew. -/
theorem resolutions_taken {r : Resolver τ ι} {text : String} {s : τ} {ts : List (Term (Operand ι))}
    (h : Term.Taken (some r) (tokenize text) s ts) :
    (Term.reports ts).filter Event.isResolution = Question.resolutions (r.questions text s) := by
  obtain ⟨⟨s', hts⟩, k, hn, hbefore, hstop⟩ := h
  rw [Term.resolutions_of_readsAll hts, hn, Resolver.questions]
  rcases hstop with rfl | ⟨e, he⟩
  · have hnone : ∀ i, refusal? (some r.logged) (tokenize text) (s, []) i = none := by
      intro i
      rw [refusal?_logged]
      by_cases hi : i < (tokenize text).length
      · exact hbefore i hi
      · unfold refusal?
        rw [List.getElem?_eq_none (Nat.le_of_not_lt hi)]
    rw [lookups_parse_of_unrefused hnone, lookupsAfter_logged, List.take_length, List.nil_append]
  · rw [← refusal?_logged] at he
    have hlogged : ∀ j < k, refusal? (some r.logged) (tokenize text) (s, []) j = none := by
      intro j hj
      rw [refusal?_logged]
      exact hbefore j hj
    rw [lookups_parse_of_refusal he hlogged, lookupsAfter_logged, List.nil_append]
    rw [refusal?_logged] at he
    exact (resolutions_of_refusal he).symm

namespace Term

theorem countP_isFolding_report (t : Term (Operand ι)) :
    t.report.countP Event.isFolding = if t.operator?.isSome && t.isConstant then 1 else 0 := by
  cases t with
  | leaf operand =>
    simp only [report, operator?, Option.isSome_none, Bool.false_and, Bool.false_eq_true, if_false]
    split <;> rfl
  | node o l r =>
    have hl := isSome_value? l
    have hr := isSome_value? r
    simp only [report, operator?, isConstant_node, ← hl, ← hr, Option.isSome_some, Bool.true_and]
    cases l.value? <;> cases r.value? <;> rfl

/-- The tokens that are folded are the operators over constants. -/
theorem countP_isFolding_reports (t : Term (Operand ι)) : (reports [t]).countP Event.isFolding = t.foldings := by
  rw [foldings_eq_constantOperators, constantOperators, reports_cons, reports_nil, List.nil_append]
  induction t.subterms with
  | nil => rfl
  | cons u us ih =>
    rw [List.flatMap_cons, List.countP_append, ih, countP_isFolding_report, List.countP_cons, Nat.add_comm]

/-- Nothing else is reported of tokens, and what is folded is folded to the operator's value. -/
theorem mem_reports {ts : List (Term (Operand ι))} {e : Event} (h : e ∈ reports ts) :
    (∃ name constant, e = .symbolResolved name constant) ∨
      ∃ (o : Operator) (lhs rhs : Float), e = .operationFolded o lhs rhs (o.apply lhs rhs) := by
  obtain ⟨u, -, hu⟩ := List.mem_flatMap.mp h
  cases u with
  | leaf operand =>
    simp only [report] at hu
    split at hu
    · exact Or.inl ⟨_, _, List.mem_singleton.mp hu⟩
    · cases hu
  | node o l r =>
    simp only [report] at hu
    split at hu
    · exact Or.inr ⟨o, _, _, List.mem_singleton.mp hu⟩
    · cases hu

end Term

/-! ## Making an evaluator -/

theorem Program.unsupported?_eq_none_of_isNative {p : Program ι} (h : ∀ i ∈ p.ops.toList, i.isNative = true) :
    p.unsupported? = none := by
  refine List.findSome?_eq_none_iff.mpr fun i hi => ?_
  cases i with
  | fetch => rfl
  | apply o => exact if_pos (h _ hi)

namespace Evaluator

theorem events_treeOrFlat_unnamed (p : Program ι) : (treeOrFlat p false).2 = [] := by
  unfold treeOrFlat
  split
  · rfl
  · split <;> rfl

theorem events_ofConfig_flat {config : Config} (h : config.choice = .auto ∨ config.choice = .always .interpreter)
    (target : Option Target) (p : Program ι) (tokens : Nat) : (ofConfig target config p tokens).2 = [] := by
  rcases h with h | h
  · simp only [ofConfig, h]
    split
    · rfl
    · exact events_treeOrFlat_unnamed p
  · simp only [ofConfig, h]

theorem events_ofConfig_tree {config : Config} (h : config.choice = .always .tree) (target : Option Target)
    {p : Program ι} {tree : CallTree ι} (htree : CallTree.ofProgram p = .ok tree) (tokens : Nat) :
    (ofConfig target config p tokens).2 = if 256 < tree.depth then [.treeTooDeep tree.depth 256] else [] := by
  simp only [ofConfig, h, treeOrFlat_eq htree, if_true]
  by_cases hd : tree.depth ≤ 256
  · rw [if_pos hd, if_neg (Nat.not_lt.mpr hd)]
  · rw [if_neg hd, if_pos (Nat.lt_of_not_le hd)]

inductive Compiles (p : Program ι) : Except NativeError (Evaluator ι) × List Event → Prop
  | accepted (routine : Routine ι) (size : Nat) :
    Compiles p (.ok (native routine), [.codeGenerated, .codeAccepted "rpn_expr_0" size p.ops.size])
  | tooLarge (size limit : Nat) :
    Compiles p (.error (.tooLarge size limit), [.codeGenerated, .codeTooLarge size limit, .regionReleased])

theorem ofConfig_native {config : Config} (h : config.choice = .always .native) (target : Target) {p : Program ι}
    (hp : ∀ i ∈ p.ops.toList, i.isNative = true) (tokens : Nat) :
    Compiles p (ofConfig (some target) config p tokens) := by
  have hfirst : "rpn_expr_" ++ toString 0 = "rpn_expr_0" := by decide
  obtain ⟨c, hc, hname⟩ : ∃ c, Compiler.ofConfig (some target) config = .ok c ∧ c.functionName = "rpn_expr_0" :=
    ⟨_, rfl, hfirst⟩
  simp only [ofConfig, h, hc]
  rcases c.compile_cases (Program.unsupported?_eq_none_of_isNative hp) with ⟨size, hcompile⟩ |
    ⟨routine, size, -, hcompile⟩
  · simp only [hcompile]
    exact .tooLarge size c.codeLimit
  · simp only [hcompile, hname]
    exact .accepted routine size

/-- Without a target or with an operator that native code does not have, nothing is generated. -/
theorem events_ofConfig_native_none {config : Config} (h : config.choice = .always .native) {target : Option Target}
    {p : Program ι} (hp : target = none ∨ ∃ i ∈ p.ops.toList, i.isNative = false) (tokens : Nat) :
    (ofConfig target config p tokens).2 = [] := by
  cases target with
  | none => simp only [ofConfig, h, Compiler.ofConfig]
  | some target =>
    simp only [reduceCtorEq, false_or] at hp
    obtain ⟨i, hi, hn⟩ := hp
    cases hu : p.unsupported? with
    | none =>
      rw [Program.isNative_of_unsupported? hu i hi] at hn
      cases hn
    | some o => simp only [ofConfig, h, Compiler.ofConfig, Compiler.compile_unsupported _ hu]

/-- Dropping an evaluator frees the region of native code. -/
theorem drop_of_serves {e : Evaluator ι} {t : Term (Operand ι)} (h : e.Serves t) :
    e.drop = if e.backend = .native then [.regionReleased] else [] := by
  cases h with
  | flat => rfl
  | tree => rfl
  | native hr => simp only [drop, Routine.drop, hr.live]; rfl

end Evaluator

theorem events_build (target : Option Target) (config : Config) (resolver : Option (Resolver τ ι)) (text : String)
    (s : τ) :
    (build target config resolver text s).events = (Program.parse resolver text s).events ++
      match (Program.parse resolver text s).result with
      | .error _ => []
      | .ok p =>
        let made := Evaluator.ofConfig target config p (tokenize text).length
        made.2 ++
          match made.1 with
          | .error _ => []
          | .ok evaluator => [.expressionBuilt config.choice evaluator.backend (tokenize text).length] := by
  unfold build
  rcases Program.parse resolver text s with ⟨e | p, s', events⟩
  · exact (List.append_nil events).symm
  · simp only
    rcases Evaluator.ofConfig target config p (tokenize text).length with ⟨e | evaluator, more⟩
    · simp only [assemble, List.append_nil]
    · simp only [assemble, List.append_assoc]

/-! ## The whole trace -/

def trace (target : Option Target) (config : Config) (resolver : Option (Resolver τ ι)) (text : String) (s : τ) :
    List Event :=
  (build target config resolver text s).events ++
    match (build target config resolver text s).result with
    | .ok e => e.drop
    | .error _ => []

structure Phases where
  reading : List Event := []
  built : List Event := []
  making : List Event := []
  finished : List Event := []
  dropped : List Event := []

def Phases.all (phases : Phases) : List Event :=
  phases.reading ++ phases.built ++ phases.making ++ phases.finished ++ phases.dropped

structure Phases.MatchBuild (target : Option Target) (config : Config) (resolver : Option (Resolver τ ι))
    (text : String) (s : τ) (phases : Phases) : Prop where
  /-- The tokens that are taken report one after another, each what is said of the term that ends with it. -/
  reading : ∃ ts, Term.Taken resolver (tokenize text) s ts ∧
    (Term.subtermsAll ts).map (Term.lastToken Operand.name) = Term.namesAll ts ∧
    phases.reading = (Term.subtermsAll ts).flatMap Term.report
  kinds : ∀ e ∈ phases.reading, (∃ name constant, e = .symbolResolved name constant) ∨
    ∃ (o : Operator) (lhs rhs : Float), e = .operationFolded o lhs rhs (o.apply lhs rhs)
  resolved : phases.reading.filter Event.isResolution =
    resolver.elim [] fun r => Question.resolutions (r.questions text s)
  folded : ∀ p, (Program.parse resolver text s).result = .ok p → phases.reading.countP Event.isFolding = p.folded
  built : phases.built =
    match (Program.parse resolver text s).result with
    | .ok p => [.programBuilt p.ops.size p.operands.size p.folded p.maxDepth]
    | .error _ => []
  unbuilt : ∀ e, (Program.parse resolver text s).result = .error e → phases.making = []
  quiet : config.choice = .auto ∨ config.choice = .always .interpreter → phases.making = []
  tree : config.choice = .always .tree → ∀ p, (Program.parse resolver text s).result = .ok p →
    ∃ tree, CallTree.ofProgram p = .ok tree ∧
      phases.making = if 256 < tree.depth then [.treeTooDeep tree.depth 256] else []
  /-- No code is generated unless every operator that is left is native. -/
  foreign : config.choice = .always .native → ∀ p, (Program.parse resolver text s).result = .ok p →
    (target = none ∨ ∃ i ∈ p.ops.toList, i.isNative = false) → phases.making = []
  native : config.choice = .always .native → ∀ p, (Program.parse resolver text s).result = .ok p → target ≠ none →
    (∀ i ∈ p.ops.toList, i.isNative = true) →
    (∃ size, phases.making = [.codeGenerated, .codeAccepted "rpn_expr_0" size p.ops.size] ∧
      ∃ e, (build target config resolver text s).result = .ok e) ∨
    ∃ size limit, phases.making = [.codeGenerated, .codeTooLarge size limit, .regionReleased] ∧
      (build target config resolver text s).result = .error (.native (.tooLarge size limit))
  finished : ∀ e, (build target config resolver text s).result = .ok e →
    ∃ p, (Program.parse resolver text s).result = .ok p ∧
      phases.finished = [.expressionBuilt config.choice e.backend (p.ops.size + 2 * p.folded)]
  dropped : ∀ e, (build target config resolver text s).result = .ok e →
    phases.dropped = if e.backend = .native then [.regionReleased] else []
  failed : ∀ e, (build target config resolver text s).result = .error e → phases.finished = [] ∧ phases.dropped = []

def Phases.ofMade (reading : List Event) (choice : Choice) (tokens : Nat) (p : Program ι)
    (made : Except NativeError (Evaluator ι) × List Event) : Phases where
  reading := reading
  built := [p.builtEvent]
  making := made.2
  finished :=
    match made.1 with
    | .error _ => []
    | .ok evaluator => [.expressionBuilt choice evaluator.backend tokens]
  dropped :=
    match made.1 with
    | .error _ => []
    | .ok evaluator => evaluator.drop

theorem reading_of_taken {resolver : Option (Resolver τ ι)} {text : String} {s : τ} {ts : List (Term (Operand ι))}
    (h : Term.Taken resolver (tokenize text) s ts) :
    (Term.reports ts).filter Event.isResolution =
      resolver.elim [] fun r => Question.resolutions (r.questions text s) := by
  cases resolver with
  | none =>
    obtain ⟨s', hts⟩ := h.reads
    exact Term.resolutions_of_readsAll_none hts
  | some r => exact resolutions_taken h

section Outcomes

variable {target : Option Target} {config : Config} {resolver : Option (Resolver τ ι)} {text : String} {s : τ}

theorem matchBuild_of_error {ts : List (Term (Operand ι))} {e : BuildError}
    (htaken : Term.Taken resolver (tokenize text) s ts) (hp : (Program.parse resolver text s).result = .error e) :
    Phases.MatchBuild target config resolver text s { reading := Term.reports ts } where
  reading := ⟨ts, htaken, Term.map_lastToken_subtermsAll ts, rfl⟩
  kinds _ := Term.mem_reports
  resolved := reading_of_taken htaken
  folded p h := by rw [hp] at h; cases h
  built := by rw [hp]
  unbuilt _ _ := rfl
  quiet _ := rfl
  tree _ p h := by rw [hp] at h; cases h
  foreign _ _ _ _ := rfl
  native _ p h := by rw [hp] at h; cases h
  finished e h := by rw [build_eq, hp] at h; cases h
  dropped e h := by rw [build_eq, hp] at h; cases h
  failed _ _ := ⟨rfl, rfl⟩

theorem matchBuild_of_ok {t : Term (Operand ι)} (htaken : Term.Taken resolver (tokenize text) s [t])
    (hp : (Program.parse resolver text s).result = .ok (.ofTerm t)) :
    Phases.MatchBuild target config resolver text s
      (.ofMade (Term.reports [t]) config.choice (tokenize text).length (.ofTerm t)
        (Evaluator.ofConfig target config (.ofTerm t) (tokenize text).length)) where
  reading := ⟨[t], htaken, Term.map_lastToken_subtermsAll [t], rfl⟩
  kinds _ := Term.mem_reports
  resolved := reading_of_taken htaken
  folded p h := by
    rw [hp] at h
    cases h
    exact t.countP_isFolding_reports
  built := by rw [hp]; rfl
  unbuilt e h := by rw [hp] at h; cases h
  quiet h := Evaluator.events_ofConfig_flat h target _ _
  tree h p hp' := by
    rw [hp] at hp'
    cases hp'
    exact ⟨_, CallTree.ofProgram_ofTerm t, Evaluator.events_ofConfig_tree h target (CallTree.ofProgram_ofTerm t) _⟩
  foreign h p hp' hforeign := by
    rw [hp] at hp'
    cases hp'
    exact Evaluator.events_ofConfig_native_none h hforeign _
  native h p hp' htarget hnative := by
    rw [hp] at hp'
    cases hp'
    obtain ⟨host, rfl⟩ := Option.ne_none_iff_exists'.mp htarget
    have hcompiles := Evaluator.ofConfig_native h host hnative (tokenize text).length
    simp only [build_eq, hp, Phases.ofMade]
    generalize Evaluator.ofConfig (some host) config (.ofTerm t) (tokenize text).length = made at hcompiles
    cases hcompiles with
    | accepted routine size => exact Or.inl ⟨size, rfl, _, rfl⟩
    | tooLarge size limit => exact Or.inr ⟨size, limit, rfl, rfl⟩
  finished e h := by
    obtain ⟨-, -, -, -, hcount⟩ := Program.exists_assembler_of_parse hp
    refine ⟨_, hp, ?_⟩
    rw [build_eq, hp] at h
    simp only [Phases.ofMade, ← hcount]
    cases hmade : (Evaluator.ofConfig target config (.ofTerm t) (tokenize text).length).1 with
    | error err => simp only [hmade] at h; cases h
    | ok evaluator =>
      simp only [hmade] at h
      cases h
      rfl
  dropped e h := by
    rw [build_eq, hp] at h
    simp only [Phases.ofMade]
    cases hmade : (Evaluator.ofConfig target config (.ofTerm t) (tokenize text).length).1 with
    | error err => simp only [hmade] at h; cases h
    | ok evaluator =>
      simp only [hmade] at h
      cases h
      exact Evaluator.drop_of_serves (Evaluator.ofConfig_serves hmade)
  failed e h := by
    rw [build_eq, hp] at h
    simp only [Phases.ofMade]
    cases hmade : (Evaluator.ofConfig target config (.ofTerm t) (tokenize text).length).1 with
    | error err => exact ⟨rfl, rfl⟩
    | ok evaluator => simp only [hmade] at h; cases h

end Outcomes

/-- What a build and the dropping of its result report matches the outcome: the tokens in order, the program if there
    is one, what was tried to make an evaluator of it, the expression if there is one, and the region that it frees. -/
theorem trace_matches_outcome (target : Option Target) (config : Config) (resolver : Option (Resolver τ ι))
    (text : String) (s : τ) :
    ∃ phases : Phases, trace target config resolver text s = phases.all ∧
      phases.MatchBuild target config resolver text s := by
  obtain ⟨ts, htaken, hevents, hts⟩ := Program.events_parse resolver text s
  cases hp : (Program.parse resolver text s).result with
  | error e =>
    refine ⟨_, ?_, matchBuild_of_error htaken hp⟩
    rw [hp] at hevents
    simp only [trace, events_build, build_eq, hp, hevents, Phases.all, List.append_nil]
  | ok p =>
    obtain ⟨t, rfl, rfl⟩ := hts p hp
    refine ⟨_, ?_, matchBuild_of_ok htaken hp⟩
    rw [hp] at hevents
    simp only [trace, events_build, build_eq, hp, hevents, Phases.all, Phases.ofMade]
    rcases Evaluator.ofConfig target config (.ofTerm t) (tokenize text).length with ⟨err | evaluator, more⟩
    · simp only [List.append_nil]
    · simp only [List.append_assoc]
      rfl

end ReversePolish
