/-
  ReversePolish.Proofs.Backends — the backends are equal as far as anyone can observe.

  Every evaluator that a configuration chooses serves the term of the program: the stack
  machine that computes while it reads, the call tree that recurs, and the routine that
  reads all before it computes. A run gives the value of the term, reads what the term
  reads and leaves an evaluator that serves the term still (`Evaluator.run_of_serves`).

  A history is any sequence of evaluations, changes of the memoization, invalidations and
  changes of the outside state from elsewhere. What two expressions remember is equal
  when their histories are, so the invariant of a history is that both have the same flag
  and the same kept value and serve the same term (`Alike`). Hence whatever two
  configurations choose, the answers are the same at every step, with the loaders read
  and their order (`backends_agree`). Which expressions are built is a matter of the
  program, native code apart.
-/

import ReversePolish.Build
import ReversePolish.Proofs.Arena
import ReversePolish.Proofs.Native

namespace ReversePolish

variable {τ ι σ : Type}

/-! ## Evaluators -/

namespace Evaluator

inductive Serves (t : Term (Operand ι)) : Evaluator ι → Prop
  | flat {m : Interpreter ι} : m.Serves (.ofTerm t) → Serves t (flat m)
  | tree {tree : CallTree ι} : CallTree.ofProgram (.ofTerm t) = .ok tree → Serves t (.tree tree)
  | native {r : Routine ι} : r.Serves t.fold → Serves t (native r)

theorem run_of_serves (read : Reader ι σ) {e : Evaluator ι} {t : Term (Operand ι)} (h : e.Serves t) (outside : σ) :
    ∃ e' : Evaluator ι, e'.Serves t ∧
      e.run read outside = .ok ((t.eval read outside).1, e', (t.eval read outside).2) := by
  cases h with
  | flat hm =>
    obtain ⟨m', hm', e⟩ := Interpreter.run_ofTerm read hm outside
    exact ⟨.flat m', .flat hm', by rw [run, e]⟩
  | tree ht => exact ⟨_, .tree ht, by rw [run, CallTree.eval_ofTerm read ht]⟩
  | native hr =>
    obtain ⟨r', hr', e⟩ := Routine.call_of_serves read hr outside
    rw [Term.eval_fold] at e
    exact ⟨.native r', .native hr', by rw [run, e]⟩

theorem treeOrFlat_serves (t : Term (Operand ι)) (named : Bool) : (treeOrFlat (.ofTerm t) named).1.Serves t := by
  unfold treeOrFlat
  split
  · exact .flat (Interpreter.serves_ofProgram _)
  · rename_i tree htree
    split
    · exact .tree htree
    · exact .flat (Interpreter.serves_ofProgram _)

theorem ofConfig_serves {target : Option Target} {config : Config} {t : Term (Operand ι)} {tokens : Nat}
    {e : Evaluator ι} (h : (ofConfig target config (.ofTerm t) tokens).1 = .ok e) : e.Serves t := by
  unfold ofConfig at h
  split at h
  · split at h
    · cases h; exact .flat (Interpreter.serves_ofProgram _)
    · cases h; exact treeOrFlat_serves t false
  · cases h; exact .flat (Interpreter.serves_ofProgram _)
  · cases h; exact treeOrFlat_serves t true
  · split at h
    · cases h
    · simp only at h
      split at h
      · cases h
      · rename_i routine hr
        cases h
        exact .native (Compiler.serves_of_compile hr)

/-- Only native code may be refused. -/
theorem ofConfig_ok {config : Config} (h : config.choice ≠ .always .native) (target : Option Target) (p : Program ι)
    (tokens : Nat) : ∃ e, (ofConfig target config p tokens).1 = .ok e := by
  unfold ofConfig
  split
  · split
    · exact ⟨_, rfl⟩
    · exact ⟨_, rfl⟩
  · exact ⟨_, rfl⟩
  · exact ⟨_, rfl⟩
  · exact absurd ‹_› h

end Evaluator

/-! ## Building -/

theorem build_eq (target : Option Target) (config : Config) (resolver : Option (Resolver τ ι)) (text : String)
    (lookups : τ) :
    (build target config resolver text lookups).result =
      match (Program.parse resolver text lookups).result with
      | .error e => .error e
      | .ok p =>
        match (Evaluator.ofConfig target config p (tokenize text).length).1 with
        | .error e => .error (.native e)
        | .ok evaluator => .ok { text, program := p, evaluator } := by
  unfold build
  rcases Program.parse resolver text lookups with ⟨e | p, s, events⟩
  · rfl
  · simp only
    rcases Evaluator.ofConfig target config p (tokenize text).length with ⟨e | evaluator, more⟩
    · rfl
    · rfl

/-! ## Histories -/

inductive Action (σ : Type) where
  | eval
  | setMemoization (enabled : Bool)
  | invalidate
  /-- The outside state changes from elsewhere. -/
  | change (f : σ → σ)

inductive Shown (ι : Type) where
  /-- The value of an evaluation, and the loaders read for it. -/
  | value (x : Float) (reads : List ι)
  | previous (memoize : Bool)
  | nothing
  deriving DecidableEq

namespace Expression

def act (read : Reader ι σ) (e : Expression ι) (outside : σ) :
    Action σ → Except Fault (Shown ι × Expression ι × σ)
  | .eval =>
    match e.eval read.logged (outside, []) with
    | .error fault => .error fault
    | .ok (x, e, outside, reads) => .ok (.value x reads, e, outside)
  | .setMemoization enabled =>
    let (previous, e) := e.setMemoization enabled
    .ok (.previous previous, e, outside)
  | .invalidate => .ok (.nothing, e.invalidate, outside)
  | .change f => .ok (.nothing, e, f outside)

def history (read : Reader ι σ) :
    List (Action σ) → Expression ι → σ → Except Fault (List (Shown ι) × Expression ι × σ)
  | [], e, outside => .ok ([], e, outside)
  | action :: rest, e, outside =>
    match e.act read outside action with
    | .error fault => .error fault
    | .ok (shown, e, outside) =>
      match history read rest e outside with
      | .error fault => .error fault
      | .ok (more, e, outside) => .ok (shown :: more, e, outside)

structure Alike (e f : Expression ι) : Prop where
  memoize : e.memoize = f.memoize
  cached : e.cached = f.cached
  serve : ∃ t, e.evaluator.Serves t ∧ f.evaluator.Serves t

theorem act_alike (read : Reader ι σ) {e f : Expression ι} (h : e.Alike f) (outside : σ) (action : Action σ) :
    ∃ shown e' f' outside', e.act read outside action = .ok (shown, e', outside') ∧
      f.act read outside action = .ok (shown, f', outside') ∧ e'.Alike f' := by
  obtain ⟨hm, hc, t, he, hf⟩ := h
  cases action with
  | eval =>
    cases hec : e.cached with
    | some x =>
      have hfc : f.cached = some x := hc ▸ hec
      refine ⟨.value x [], e, f, outside, ?_, ?_, ⟨hm, hc, t, he, hf⟩⟩
      · simp only [act, Expression.eval, hec]
      · simp only [act, Expression.eval, hfc]
    | none =>
      have hfc : f.cached = none := hc ▸ hec
      obtain ⟨e', he', er⟩ := Evaluator.run_of_serves read.logged he (outside, [])
      obtain ⟨f', hf', fr⟩ := Evaluator.run_of_serves read.logged hf (outside, [])
      rw [Term.eval_logged, List.nil_append] at er fr
      refine ⟨.value (t.eval read outside).1 t.loaders,
        { e with evaluator := e', cached := if e.memoize then some (t.eval read outside).1 else none },
        { f with evaluator := f', cached := if f.memoize then some (t.eval read outside).1 else none },
        (t.eval read outside).2, ?_, ?_, ⟨hm, by simp only [hm], t, he', hf'⟩⟩
      · simp only [act, Expression.eval, hec, er]
      · simp only [act, Expression.eval, hfc, fr]
  | setMemoization enabled =>
    refine ⟨.previous e.memoize, (e.setMemoization enabled).2, (f.setMemoization enabled).2, outside, rfl, ?_, ?_⟩
    · simp only [act, hm]; rfl
    · exact ⟨rfl, by simp only [setMemoization, hc], t, he, hf⟩
  | invalidate => exact ⟨.nothing, _, _, outside, rfl, rfl, ⟨hm, rfl, t, he, hf⟩⟩
  | change g => exact ⟨.nothing, e, f, g outside, rfl, rfl, ⟨hm, hc, t, he, hf⟩⟩

theorem history_alike (read : Reader ι σ) (actions : List (Action σ)) {e f : Expression ι} (h : e.Alike f)
    (outside : σ) :
    ∃ shown e' f' outside', history read actions e outside = .ok (shown, e', outside') ∧
      history read actions f outside = .ok (shown, f', outside') := by
  induction actions generalizing e f outside with
  | nil => exact ⟨[], e, f, outside, rfl, rfl⟩
  | cons action rest ih =>
    obtain ⟨shown, e₁, f₁, outside₁, he, hf, h₁⟩ := act_alike read h outside action
    obtain ⟨more, e₂, f₂, outside₂, he₂, hf₂⟩ := ih h₁ outside₁
    exact ⟨shown :: more, e₂, f₂, outside₂, by simp only [history, he, he₂], by simp only [history, hf, hf₂]⟩

end Expression

/-! ## Whatever is chosen -/

/-- A built expression is fresh and evaluates the term that its tokens leave. -/
theorem serves_of_build {target : Option Target} {config : Config} {resolver : Option (Resolver τ ι)} {text : String}
    {s : τ} {e : Expression ι} (h : (build target config resolver text s).result = .ok e) :
    ∃ t, (Term.takeAll resolver (tokenize text) [] s).1 = .ok [t] ∧ e.evaluator.Serves t ∧
      e.memoize = false ∧ e.cached = none := by
  rw [build_eq, Program.parse_eq] at h
  rcases ht : (Term.takeAll resolver (tokenize text) [] s).1 with err | ts
  · rw [ht] at h; cases h
  · rw [ht] at h
    match ts, h with
    | [t], h =>
      simp only at h
      split at h
      · cases h
      · rename_i evaluator hev
        cases h
        exact ⟨t, rfl, Evaluator.ofConfig_serves hev, rfl, rfl⟩

/-- Expressions built from one text are alike, whichever backends evaluate them. -/
theorem alike_of_build {target : Option Target} {c c' : Config} {resolver : Option (Resolver τ ι)}
    (hr : ∀ r ∈ resolver, r.ByName) {text : String} {s s' : τ} {e f : Expression ι}
    (he : (build target c resolver text s).result = .ok e) (hf : (build target c' resolver text s').result = .ok f) :
    e.Alike f := by
  obtain ⟨t, ht, het, hem, hec⟩ := serves_of_build he
  obtain ⟨u, hu, hfu, hfm, hfc⟩ := serves_of_build hf
  rw [Term.takeAll_byName hr (tokenize text) [] s s', hu] at ht
  cases ht
  exact ⟨hem.trans hfm.symm, hec.trans hfc.symm, t, het, hfu⟩

/-- Two configurations that both build give expressions with one history, whatever is done to them.
    Native code apart, the program decides whether there is an expression; its error is always the
    error of the building. -/
theorem backends_agree (target : Option Target) {resolver : Option (Resolver τ ι)} (hr : ∀ r ∈ resolver, r.ByName)
    (text : String) :
    (∀ (c c' : Config) (s s' : τ) (e f : Expression ι), (build target c resolver text s).result = .ok e →
      (build target c' resolver text s').result = .ok f →
      ∀ (σ : Type) (read : Reader ι σ) (actions : List (Action σ)) (outside : σ),
        ∃ shown e' f' outside', e.history read actions outside = .ok (shown, e', outside') ∧
          f.history read actions outside = .ok (shown, f', outside')) ∧
    (∀ (c : Config) (s : τ), c.choice ≠ .always .native →
      (build target c resolver text s).result.map Expression.program = (Program.parse resolver text s).result) ∧
    ∀ (c : Config) (s : τ) (err : BuildError), (Program.parse resolver text s).result = .error err →
      (build target c resolver text s).result = .error err := by
  refine ⟨?_, ?_, ?_⟩
  · intro c c' s s' e f he hf σ read actions outside
    exact Expression.history_alike read actions (alike_of_build hr he hf) outside
  · intro c s hc
    rw [build_eq]
    cases (Program.parse resolver text s).result with
    | error err => rfl
    | ok p =>
      obtain ⟨evaluator, he⟩ := Evaluator.ofConfig_ok hc target p (tokenize text).length
      simp only [he]
      rfl
  · intro c s err h
    rw [build_eq, h]

/-- Native code and a stack machine, over names, with a value kept for a while: both read the counter behind `x`
    twice for each value, and give the kept value back without reading it. -/
theorem backends_agree_over_names :
    ∃ e f e' f', (build (some .host) .native (some Resolver.itself) "x 1 x + *" ()).result = .ok e ∧
      (build (some .host) .interpreterOnly (some Resolver.itself) "x 1 x + *" ()).result = .ok f ∧
      e.history (fun _ n => (n.toFloat, n + 1)) [.eval, .setMemoization true, .eval, .change (· + 5), .eval] 0 =
        .ok ([.value 0 ["x", "x"], .previous false, .value 8 ["x", "x"], .nothing, .value 8 []], e', 9) ∧
      f.history (fun _ n => (n.toFloat, n + 1)) [.eval, .setMemoization true, .eval, .change (· + 5), .eval] 0 =
        .ok ([.value 0 ["x", "x"], .previous false, .value 8 ["x", "x"], .nothing, .value 8 []], f', 9) := by
  have he : ((build (some .host) .native (some Resolver.itself) "x 1 x + *" ()).result.toOption.bind fun e =>
      (e.history (fun _ n => (n.toFloat, n + 1)) [.eval, .setMemoization true, .eval, .change (· + 5), .eval]
        0).toOption.map fun (shown, _, n) => (shown, n)) =
      some ([.value 0 ["x", "x"], .previous false, .value 8 ["x", "x"], .nothing, .value 8 []], 9) := by
    decide +kernel
  have hf :
      (build (some .host) .interpreterOnly (some Resolver.itself) "x 1 x + *" ()).result.toOption.isSome = true := by
    decide +kernel
  cases hbe : (build (some .host) .native (some Resolver.itself) "x 1 x + *" ()).result with
  | error err => rw [hbe] at he; cases he
  | ok e =>
    cases hbf : (build (some .host) .interpreterOnly (some Resolver.itself) "x 1 x + *" ()).result with
    | error err => rw [hbf] at hf; cases hf
    | ok f =>
      obtain ⟨shown, e', f', n, hhe, hhf⟩ := (backends_agree (some .host) Resolver.itself_byName _).1 _ _ _ _ e f
        hbe hbf Nat (fun _ n => (n.toFloat, n + 1)) [.eval, .setMemoization true, .eval, .change (· + 5), .eval] 0
      simp only [hbe, Except.toOption, Option.bind_some, hhe, Option.map_some, Option.some.injEq, Prod.mk.injEq] at he
      obtain ⟨rfl, rfl⟩ := he
      exact ⟨e, f, e', f', rfl, rfl, hhe, hhf⟩

end ReversePolish
