/-
  ReversePolish.Proofs.Selection — which evaluator is selected, and how deep it recurs.

  What is selected is a matter of two numbers, the tokens of the text and the depth of the
  call tree. The tokens are those that the assembler took, and each of them is an
  instruction of the program or one of the two that a folding took away. A term of n tokens
  is at most (n + 1) / 2 high and folding makes it no higher, so up to 512 tokens no call
  tree is deeper than 256, and for thresholds up to 512 the tokens alone decide. A sum of
  257 names has 513 tokens and is too deep (`depth_le_iff`).

  No history of an expression puts another tree in the place of the one that was selected
  (`tree_of_history`), so no evaluation ever has more than 256 calls that have not returned.
  `selection_exact` puts all of this together.
-/

import ReversePolish.Proofs.Backends
import ReversePolish.Proofs.Blocks
import ReversePolish.Proofs.Canonical
import ReversePolish.Proofs.Composition

namespace ReversePolish

variable {τ ι σ : Type}

/-! ## Sums of names -/

namespace Term

/-- The sum of one more names than the number, from the left. -/
def sum : Nat → Term (Operand String)
  | 0 => leaf { name := "x", source := .dynamic "x" }
  | k + 1 => node .add (sum k) (leaf { name := "x", source := .dynamic "x" })

theorem size_sum (k : Nat) : (sum k).size = 2 * k + 1 := by
  induction k with
  | zero => rfl
  | succ k ih => simp only [sum, size, ih]; omega

theorem height_sum (k : Nat) : (sum k).height = k + 1 := by
  induction k with
  | zero => rfl
  | succ k ih => simp only [sum, Term.height, ih]; omega

theorem folded_sum (k : Nat) : (sum k).Folded := by
  induction k with
  | zero => trivial
  | succ k ih => exact ⟨Or.inr rfl, ih, trivial⟩

theorem reads_sum (k : Nat) : Reads (some Resolver.itself) () (sum k) () := by
  have hx : Reads (some Resolver.itself) () (leaf { name := "x", source := .dynamic "x" }) () :=
    .leaf { name := "x", source := .dynamic "x" } () (by decide) (by decide +kernel)
  induction k with
  | zero => exact hx
  | succ k ih => exact .node .add ih hx

theorem isToken_of_mem_sum {k : Nat} {token : String} (h : token ∈ (sum k).names) : IsToken token := by
  have hx : IsToken "x" := ⟨by decide, by decide⟩
  induction k with
  | zero =>
    rw [List.mem_singleton.mp h]
    exact hx
  | succ k ih =>
    simp only [names, sum, tokens, List.mem_append, List.mem_singleton] at h
    rcases h with (h | rfl) | rfl
    · exact ih h
    · exact hx
    · exact Operator.add.isToken_symbol

end Term

theorem tokenize_sum (k : Nat) : tokenize (" ".intercalate (Term.sum k).names) = (Term.sum k).names :=
  tokenize_intercalate fun _ => Term.isToken_of_mem_sum

theorem parse_sum (k : Nat) :
    (Program.parse (some Resolver.itself) (" ".intercalate (Term.sum k).names) ()).result =
      .ok (.ofTerm (Term.sum k)) :=
  Program.parse_eq_ok_iff.mpr ⟨Term.sum k, (), Term.reads_sum k, (tokenize_sum k).symm, rfl⟩

/-- The tokens of a text bound the depth of its call tree by 256 up to 512 tokens, and not beyond. -/
theorem depth_le_iff (threshold : Nat) :
    (∀ (τ ι : Type) (resolver : Option (Resolver τ ι)) (text : String) (lookups : τ) (p : Program ι)
      (tree : CallTree ι), (Program.parse resolver text lookups).result = .ok p → CallTree.ofProgram p = .ok tree →
      (tokenize text).length ≤ threshold → tree.depth ≤ 256) ↔ threshold ≤ 512 := by
  constructor
  · intro h
    have hn : (tokenize (" ".intercalate (Term.sum 256).names)).length = 513 := by
      rw [tokenize_sum, Term.length_tokens, Term.size_sum]
    have hdepth := h Unit String _ _ () _ _ (parse_sum 256) (CallTree.ofProgram_ofTerm _)
    simp only [hn, (Term.fold_eq_self (Term.folded_sum 256)).1, Term.height_sum] at hdepth
    by_cases ht : 513 ≤ threshold
    · exact absurd (hdepth ht) (by omega)
    · omega
  · intro h τ ι resolver text lookups p tree hp htree hn
    obtain ⟨t, s, -, hnames, rfl⟩ := Program.parse_eq_ok_iff.mp hp
    have hsize := t.size_fold
    have hheight := t.fold.two_mul_height_le
    rw [← hnames, Term.length_tokens] at hn
    rw [CallTree.depth_of_ofProgram htree]
    omega

/-! ## The count of tokens -/

/-- The assembler takes every token of the text, and the program accounts for all of them. -/
theorem Program.exists_assembler_of_parse {resolver : Option (Resolver τ ι)} {text : String} {lookups : τ}
    {p : Program ι} (h : (Program.parse resolver text lookups).result = .ok p) :
    ∃ a, (Assembler.pushAll resolver (tokenize text) {} lookups #[]).result = .ok a ∧ a.finish = .ok p ∧
      a.position = (tokenize text).length ∧ (tokenize text).length = p.ops.size + 2 * p.folded := by
  obtain ⟨t, s, hr, hn, rfl⟩ := parse_eq_ok_iff.mp h
  have hpush := Assembler.pushAll_names hr [] #[]
  rw [← Assembler.ofTerms_cons, Assembler.ofTerms_nil, hn] at hpush
  have hlen : (tokenize text).length = t.size := by rw [← hn, Term.length_tokens]
  have hops : (ofTerm t).ops.size = t.fold.size := by simp [ofTerm, ofParts, Term.length_instructions]
  refine ⟨.ofTerms [t], hpush, Assembler.finish_ofTerms [t], hlen.symm, ?_⟩
  rw [hlen, hops, ← t.size_fold]
  rfl

/-! ## Warnings -/

def Event.isWarning (e : Event) : Bool := e.severity == .warn

def Report.warnings {α : Type} (r : Report τ α) : List Event := r.events.filter Event.isWarning

theorem readValue_quiet (resolver : Option (Resolver τ ι)) (token : String) (lookups : τ) :
    ∀ e ∈ (readValue resolver token lookups).events, e.isWarning = false := by
  unfold readValue
  cases Double.Literal.parse? token with
  | some x => exact List.forall_mem_nil _
  | none =>
    cases resolver with
    | none => exact List.forall_mem_nil _
    | some resolve =>
      rcases h : resolve token lookups with ⟨cause | source, s⟩
      · simp only [h]
        exact List.forall_mem_nil _
      · simp only [h, List.forall_mem_singleton]
        rfl

namespace Assembler

theorem pushOperator_quiet (a : Assembler ι) (o : Operator) (token : String) :
    ∀ e ∈ (a.pushOperator o token).2.2, e.isWarning = false := by
  unfold pushOperator
  split
  · exact List.forall_mem_singleton.mpr rfl
  · exact List.forall_mem_nil _
  · exact List.forall_mem_nil _

theorem push_quiet (resolver : Option (Resolver τ ι)) (token : String) (a : Assembler ι) (lookups : τ) :
    ∀ e ∈ (a.push resolver token lookups).1.events, e.isWarning = false := by
  unfold push
  cases Operator.ofSymbol? token with
  | some o => exact pushOperator_quiet a o token
  | none =>
    have h := readValue_quiet resolver token lookups
    rcases hr : readValue resolver token lookups with ⟨e | source, s, events⟩
    · rw [hr] at h
      exact h
    · rw [hr] at h
      exact h

theorem pushAll_quiet (resolver : Option (Resolver τ ι)) (tokens : List String) (a : Assembler ι) (lookups : τ)
    (log : Array Event) (hlog : ∀ e ∈ log.toList, e.isWarning = false) :
    ∀ e ∈ (pushAll resolver tokens a lookups log).events, e.isWarning = false := by
  induction tokens generalizing a lookups log with
  | nil => exact hlog
  | cons token rest ih =>
    have hpush := push_quiet resolver token a lookups
    unfold pushAll
    rcases hp : a.push resolver token lookups with ⟨⟨err | x, s, events⟩, a'⟩
    all_goals
      rw [hp] at hpush
      have hmore : ∀ e ∈ (log ++ events).toList, e.isWarning = false := by
        intro e he
        rw [Array.toList_appendList, List.mem_append] at he
        exact he.elim (hlog e) (hpush e)
    · exact hmore
    · exact ih a' s _ hmore

end Assembler

theorem Program.parse_quiet (resolver : Option (Resolver τ ι)) (text : String) (lookups : τ) :
    (Program.parse resolver text lookups).warnings = [] := by
  have h := Assembler.pushAll_quiet resolver (tokenize text) {} lookups #[] (by simp)
  rw [Report.warnings, List.filter_eq_nil_iff]
  intro e he
  rw [Bool.not_eq_true]
  unfold parse at he
  rcases hp : Assembler.pushAll resolver (tokenize text) {} lookups #[] with ⟨err | a, s, events⟩
  · rw [hp] at h he
    exact h e he
  · rw [hp] at h
    simp only [hp] at he
    rcases hf : a.finish with err | p
    · rw [hf] at he
      exact h e he
    · rw [hf] at he
      rcases List.mem_append.mp he with he | he
      · exact h e he
      · rw [List.mem_singleton.mp he]
        rfl

/-! ## Selection -/

namespace Evaluator

theorem treeOrFlat_eq {p : Program ι} {tree : CallTree ι} (h : CallTree.ofProgram p = .ok tree) (named : Bool) :
    treeOrFlat p named =
      if tree.depth ≤ 256 then (.tree tree, [])
      else (flat (.ofProgram p), if named then [.treeTooDeep tree.depth 256] else []) := by
  unfold treeOrFlat
  rw [h]
  rfl

theorem depth_le_of_treeOrFlat {p : Program ι} {named : Bool} {tree : CallTree ι}
    (h : (treeOrFlat p named).1 = .tree tree) : CallTree.ofProgram p = .ok tree ∧ tree.depth ≤ 256 := by
  unfold treeOrFlat at h
  split at h
  · cases h
  · rename_i t ht
    split at h
    · rename_i hd
      cases h
      exact ⟨ht, hd⟩
    · cases h

/-- No call tree that is too deep is selected. -/
theorem depth_le_of_ofConfig {target : Option Target} {config : Config} {p : Program ι} {tokens : Nat}
    {tree : CallTree ι} (h : (ofConfig target config p tokens).1 = .ok (.tree tree)) :
    CallTree.ofProgram p = .ok tree ∧ tree.depth ≤ 256 := by
  unfold ofConfig at h
  split at h
  · split at h
    · cases h
    · exact depth_le_of_treeOrFlat (Except.ok.inj h)
  · cases h
  · exact depth_le_of_treeOrFlat (Except.ok.inj h)
  · split at h
    · cases h
    · simp only at h
      split at h <;> cases h

/-! ### Histories -/

theorem tree_of_run {read : Reader ι σ} {e : Evaluator ι} {outside outside' : σ} {x : Float} {tree : CallTree ι}
    (h : e.run read outside = .ok (x, .tree tree, outside')) : e = .tree tree := by
  unfold run at h
  split at h
  · split at h <;> cases h
  · split at h
    · cases h
    · cases h
      rfl
  · split at h <;> cases h

end Evaluator

namespace Expression

theorem tree_of_act {read : Reader ι σ} {e f : Expression ι} {outside outside' : σ} {action : Action σ}
    {shown : Shown ι} {tree : CallTree ι} (h : e.act read outside action = .ok (shown, f, outside'))
    (hf : f.evaluator = .tree tree) : e.evaluator = .tree tree := by
  cases action with
  | eval =>
    simp only [act, Expression.eval] at h
    cases hc : e.cached with
    | some x =>
      simp only [hc] at h
      cases h
      exact hf
    | none =>
      simp only [hc] at h
      rcases hr : e.evaluator.run read.logged (outside, []) with fault | ⟨x, evaluator, s⟩
      · rw [hr] at h
        cases h
      · rw [hr] at h
        cases h
        subst hf
        exact Evaluator.tree_of_run hr
  | setMemoization enabled =>
    cases h
    exact hf
  | invalidate =>
    cases h
    exact hf
  | change g =>
    cases h
    exact hf

/-- No history puts another tree in the place of the one that it began with. -/
theorem tree_of_history {read : Reader ι σ} {actions : List (Action σ)} {e f : Expression ι} {outside outside' : σ}
    {shown : List (Shown ι)} {tree : CallTree ι} (h : e.history read actions outside = .ok (shown, f, outside'))
    (hf : f.evaluator = .tree tree) : e.evaluator = .tree tree := by
  induction actions generalizing e outside shown with
  | nil =>
    cases h
    exact hf
  | cons action rest ih =>
    simp only [history] at h
    rcases ha : e.act read outside action with fault | ⟨first, e₁, outside₁⟩
    · rw [ha] at h
      cases h
    · simp only [ha] at h
      rcases hr : history read rest e₁ outside₁ with fault | ⟨more, e₂, outside₂⟩
      · rw [hr] at h
        cases h
      · rw [hr] at h
        cases h
        exact tree_of_act ha (ih hr)

end Expression

/-! ### Building -/

theorem build_of_parse {target : Option Target} {config : Config} {resolver : Option (Resolver τ ι)} {text : String}
    {lookups : τ} {p : Program ι} {evaluator : Evaluator ι} {more : List Event}
    (h : (Program.parse resolver text lookups).result = .ok p)
    (hc : Evaluator.ofConfig target config p (tokenize text).length = (.ok evaluator, more)) :
    (build target config resolver text lookups).result = .ok { text, program := p, evaluator } ∧
      (build target config resolver text lookups).events = (Program.parse resolver text lookups).events ++ more ++
        [.expressionBuilt config.choice evaluator.backend (tokenize text).length] := by
  rcases hp : Program.parse resolver text lookups with ⟨result, s, events⟩
  rw [hp] at h
  subst h
  simp only [build, hp, hc, assemble, and_self]

theorem warnings_of_parse {target : Option Target} {config : Config} {resolver : Option (Resolver τ ι)} {text : String}
    {lookups : τ} {p : Program ι} {evaluator : Evaluator ι} {more : List Event}
    (h : (Program.parse resolver text lookups).result = .ok p)
    (hc : Evaluator.ofConfig target config p (tokenize text).length = (.ok evaluator, more)) :
    (build target config resolver text lookups).warnings = more.filter Event.isWarning := by
  have hquiet := Program.parse_quiet resolver text lookups
  unfold Report.warnings at hquiet ⊢
  rw [(build_of_parse h hc).2, List.filter_append, List.filter_append, hquiet, List.nil_append]
  exact List.append_nil _

/-- What is built of a program of so many tokens and a call tree of this depth, native code apart. -/
structure Selects (target : Option Target) (config : Config) (resolver : Option (Resolver τ ι)) (text : String)
    (lookups : τ) (tokens depth : Nat) : Prop where
  auto : config.choice = .auto → ∃ e, (build target config resolver text lookups).result = .ok e ∧
    (e.backend = .interpreter ↔ config.flatThreshold < tokens ∨ 256 < depth) ∧
    (e.backend = .tree ↔ ¬(config.flatThreshold < tokens ∨ 256 < depth)) ∧
    (build target config resolver text lookups).warnings = []
  tree : config.choice = .always .tree → ∃ e, (build target config resolver text lookups).result = .ok e ∧
    (e.backend = .tree ↔ depth ≤ 256) ∧ (e.backend = .interpreter ↔ 256 < depth) ∧
    (build target config resolver text lookups).warnings = if depth ≤ 256 then [] else [.treeTooDeep depth 256]
  interpreter : config.choice = .always .interpreter →
    ∃ e, (build target config resolver text lookups).result = .ok e ∧ e.backend = .interpreter ∧
      (build target config resolver text lookups).warnings = []
  /-- The tokens that decide are those that the report of the build counts. -/
  counted : ∀ e, (build target config resolver text lookups).result = .ok e →
    .expressionBuilt config.choice e.backend tokens ∈ (build target config resolver text lookups).events

theorem selects_of_parse (target : Option Target) (config : Config) {resolver : Option (Resolver τ ι)} {text : String}
    {lookups : τ} {p : Program ι} (h : (Program.parse resolver text lookups).result = .ok p) {tree : CallTree ι}
    (htree : CallTree.ofProgram p = .ok tree) :
    Selects target config resolver text lookups (tokenize text).length tree.depth where
  auto := by
    intro hauto
    by_cases hn : config.flatThreshold < (tokenize text).length
    · have hc : Evaluator.ofConfig target config p (tokenize text).length = (.ok (.flat (.ofProgram p)), []) := by
        simp only [Evaluator.ofConfig, hauto, if_pos hn]
      refine ⟨_, (build_of_parse h hc).1, ?_, ?_, warnings_of_parse h hc⟩
      · exact ⟨fun _ => Or.inl hn, fun _ => rfl⟩
      · exact ⟨nofun, fun hno => absurd (Or.inl hn) hno⟩
    · by_cases hd : tree.depth ≤ 256
      · have hc : Evaluator.ofConfig target config p (tokenize text).length = (.ok (.tree tree), []) := by
          simp only [Evaluator.ofConfig, hauto, if_neg hn, Evaluator.treeOrFlat_eq htree, if_pos hd]
        refine ⟨_, (build_of_parse h hc).1, ?_, ?_, warnings_of_parse h hc⟩
        · exact ⟨nofun, fun hor => absurd hor (by omega)⟩
        · exact ⟨fun _ => by omega, fun _ => rfl⟩
      · have hc : Evaluator.ofConfig target config p (tokenize text).length = (.ok (.flat (.ofProgram p)), []) := by
          simp only [Evaluator.ofConfig, hauto, if_neg hn, Evaluator.treeOrFlat_eq htree, if_neg hd]
          rfl
        refine ⟨_, (build_of_parse h hc).1, ?_, ?_, warnings_of_parse h hc⟩
        · exact ⟨fun _ => Or.inr (by omega), fun _ => rfl⟩
        · exact ⟨nofun, fun hno => absurd (Or.inr (by omega)) hno⟩
  tree := by
    intro hnamed
    by_cases hd : tree.depth ≤ 256
    · have hc : Evaluator.ofConfig target config p (tokenize text).length = (.ok (.tree tree), []) := by
        simp only [Evaluator.ofConfig, hnamed, Evaluator.treeOrFlat_eq htree, if_pos hd]
      refine ⟨_, (build_of_parse h hc).1, ?_, ?_, ?_⟩
      · exact ⟨fun _ => hd, fun _ => rfl⟩
      · exact ⟨nofun, fun hlt => absurd hd (by omega)⟩
      · rw [warnings_of_parse h hc, if_pos hd]
        rfl
    · have hc : Evaluator.ofConfig target config p (tokenize text).length =
          (.ok (.flat (.ofProgram p)), [.treeTooDeep tree.depth 256]) := by
        simp only [Evaluator.ofConfig, hnamed, Evaluator.treeOrFlat_eq htree, if_neg hd]
        rfl
      refine ⟨_, (build_of_parse h hc).1, ?_, ?_, ?_⟩
      · exact ⟨nofun, fun hle => absurd hle hd⟩
      · exact ⟨fun _ => by omega, fun _ => rfl⟩
      · rw [warnings_of_parse h hc, if_neg hd]
        rfl
  interpreter := by
    intro hflat
    have hc : Evaluator.ofConfig target config p (tokenize text).length = (.ok (.flat (.ofProgram p)), []) := by
      simp only [Evaluator.ofConfig, hflat]
    exact ⟨_, (build_of_parse h hc).1, rfl, warnings_of_parse h hc⟩
  counted := by
    intro e he
    rw [build_eq, h] at he
    rcases hc : Evaluator.ofConfig target config p (tokenize text).length with ⟨err | evaluator, more⟩
    · simp only [hc] at he
      cases he
    · simp only [hc] at he
      cases he
      rw [(build_of_parse h hc).2]
      exact List.mem_append_right _ (List.mem_singleton_self _)

/-- An expression that is built with a call tree has that of its program, which is not too deep. -/
theorem tree_of_build {target : Option Target} {config : Config} {resolver : Option (Resolver τ ι)} {text : String}
    {lookups : τ} {e : Expression ι} (h : (build target config resolver text lookups).result = .ok e)
    {tree : CallTree ι} (he : e.evaluator = .tree tree) :
    ∃ t, CallTree.ofProgram (.ofTerm t) = .ok tree ∧ tree.depth ≤ 256 := by
  rw [build_eq] at h
  rcases hp : (Program.parse resolver text lookups).result with err | p
  · rw [hp] at h
    cases h
  · obtain ⟨t, s', -, -, rfl⟩ := Program.parse_eq_ok_iff.mp hp
    rw [hp] at h
    rcases hc : (Evaluator.ofConfig target config (.ofTerm t) (tokenize text).length).1 with err | evaluator
    · simp only [hc] at h
      cases h
    · simp only [hc] at h
      cases h
      subst he
      exact ⟨t, Evaluator.depth_le_of_ofConfig hc⟩

/-- Native code apart, the tokens of the text and the depth of the call tree select the evaluator; up to 512 tokens
    the depth is within its limit, and not beyond; and no evaluator that was selected ever recurs deeper than 256
    calls. -/
theorem selection_exact (target : Option Target) (config : Config) :
    (∀ (resolver : Option (Resolver τ ι)) (text : String) (lookups : τ) (p : Program ι),
      (Program.parse resolver text lookups).result = .ok p →
      (∃ a, (Assembler.pushAll resolver (tokenize text) {} lookups #[]).result = .ok a ∧ a.finish = .ok p ∧
        a.position = (tokenize text).length ∧ (tokenize text).length = p.ops.size + 2 * p.folded) ∧
      ∃ tree, CallTree.ofProgram p = .ok tree ∧
        Selects target config resolver text lookups (tokenize text).length tree.depth) ∧
    (∀ threshold : Nat,
      (∀ (τ ι : Type) (resolver : Option (Resolver τ ι)) (text : String) (lookups : τ) (p : Program ι)
        (tree : CallTree ι), (Program.parse resolver text lookups).result = .ok p → CallTree.ofProgram p = .ok tree →
        (tokenize text).length ≤ threshold → tree.depth ≤ 256) ↔ threshold ≤ 512) ∧
    ∀ (resolver : Option (Resolver τ ι)) (text : String) (lookups : τ) (e : Expression ι),
      (build target config resolver text lookups).result = .ok e →
      ∀ (σ : Type) (read : Reader ι σ) (actions : List (Action σ)) (outside outside' : σ) (shown : List (Shown ι))
        (f : Expression ι) (tree : CallTree ι), e.history read actions outside = .ok (shown, f, outside') →
        f.evaluator = .tree tree → ∀ s, tree.evalWithin read 256 s = some (tree.eval read s) := by
  refine ⟨?_, depth_le_iff, ?_⟩
  · intro resolver text lookups p h
    obtain ⟨t, s, -, -, rfl⟩ := Program.parse_eq_ok_iff.mp h
    exact ⟨Program.exists_assembler_of_parse h, _, CallTree.ofProgram_ofTerm t,
      selects_of_parse target config h (CallTree.ofProgram_ofTerm t)⟩
  · intro resolver text lookups e h σ read actions outside outside' shown f tree hrun hf s
    obtain ⟨t, htree, hd⟩ := tree_of_build h (Expression.tree_of_history hrun hf)
    rw [CallTree.evalWithin_ofTerm read htree, if_pos hd]

/-- A call tree of a sum of 257 names is asked for and refused with a warning; that of a short sum is selected,
    and is the same after a value was remembered. -/
theorem selection_exact_of_sum :
    (∃ e, (build none { choice := .always .tree } (some Resolver.itself) (" ".intercalate (Term.sum 256).names)
        ()).result = .ok e ∧ e.backend = .interpreter ∧
      (build none { choice := .always .tree } (some Resolver.itself) (" ".intercalate (Term.sum 256).names)
        ()).warnings = [.treeTooDeep 257 256]) ∧
    ∃ e, (build none { choice := .always .tree } (some Resolver.itself) "x 1 +" ()).result = .ok e ∧
      ∃ shown f tree,
        e.history (fun _ n => (n.toFloat, n + 1)) [.eval, .setMemoization true, .eval] 0 = .ok (shown, f, 2) ∧
        f.evaluator = .tree tree ∧ ∀ s : Nat,
          tree.evalWithin (fun _ n => (n.toFloat, n + 1)) 256 s =
            some (tree.eval (fun _ n => (n.toFloat, n + 1)) s) := by
  obtain ⟨selects, -, bounded⟩ := selection_exact (τ := Unit) (ι := String) none { choice := .always .tree }
  refine ⟨?_, ?_⟩
  · obtain ⟨-, tree, htree, hs⟩ := selects _ _ _ _ (parse_sum 256)
    have hd : tree.depth = 257 := by
      rw [CallTree.depth_of_ofProgram htree, (Term.fold_eq_self (Term.folded_sum 256)).1, Term.height_sum]
    obtain ⟨e, he, -, hflat, hwarn⟩ := hs.tree rfl
    rw [hd] at hflat hwarn
    exact ⟨e, he, hflat.mpr (by decide), hwarn⟩
  · have hrun : ((build none { choice := .always .tree } (some Resolver.itself) "x 1 +" ()).result.toOption.bind
        fun e => (e.history (fun _ n => (n.toFloat, n + 1)) [.eval, .setMemoization true, .eval] 0).toOption.map
          fun (_, f, n) => (f.backend, n)) = some (.tree, 2) := by
      decide +kernel
    cases he : (build none { choice := .always .tree } (some Resolver.itself) "x 1 +" ()).result with
    | error err => rw [he] at hrun; cases hrun
    | ok e =>
      rw [he] at hrun
      rcases hh : e.history (fun _ n => (n.toFloat, n + 1)) [.eval, .setMemoization true, .eval] 0 with
        fault | ⟨shown, f, n⟩
      · simp only [Except.toOption, Option.bind_some, hh] at hrun
        cases hrun
      · simp only [Except.toOption, Option.bind_some, hh, Option.map_some, Option.some.injEq, Prod.mk.injEq] at hrun
        obtain ⟨hbackend, rfl⟩ := hrun
        obtain ⟨tree, ht⟩ : ∃ tree, f.evaluator = .tree tree := by
          rcases f with ⟨text, p, m | tree | r, memoize, cached⟩
          · cases hbackend
          · exact ⟨tree, rfl⟩
          · cases hbackend
        exact ⟨e, rfl, shown, f, tree, hh, ht, bounded _ _ _ e he Nat _ _ _ _ _ _ _ hh ht⟩

end ReversePolish
