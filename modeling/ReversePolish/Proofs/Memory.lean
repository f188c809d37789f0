/-
  ReversePolish.Proofs.Memory — what an expression remembers.

  An evaluation asks only whether a value is kept, so what it answers rests on everything
  that was done to the expression before. An evaluation of the past is kept still
  (`KeptFrom`) when memoization was on at that time and neither an invalidation nor
  turning memoization off came after it. The invariant of a history is that a value is kept
  exactly when there is such an evaluation, and then it is what that evaluation gave
  (`Memory`, `act_memory`).

  Whether the evaluator runs is counted by a runner that counts its runs. In every state
  that is reached, an evaluation gives the value of a kept one without a run; any other
  runs the evaluator once, for what the outside state is by then (`history_remembers`).
-/

import Mathlib.Data.List.Induction
import ReversePolish.Proofs.Backends
import ReversePolish.Proofs.Usage

namespace ReversePolish

variable {ι σ : Type}

/-! ## Counting runs -/

abbrev Runner (ι σ : Type) := Evaluator ι → σ → Except Fault (Float × Evaluator ι × σ)

def Runner.counted (run : Runner ι σ) : Runner ι (σ × Nat) :=
  fun evaluator s =>
    match run evaluator s.1 with
    | .error fault => .error fault
    | .ok (x, evaluator, outside) => .ok (x, evaluator, outside, s.2 + 1)

namespace Expression

def evalBy (run : Runner ι σ) (e : Expression ι) (outside : σ) : Except Fault (Float × Expression ι × σ) :=
  match e.cached with
  | some x => .ok (x, e, outside)
  | none =>
    match run e.evaluator outside with
    | .error fault => .error fault
    | .ok (x, evaluator, outside) =>
      .ok (x, { e with evaluator, cached := if e.memoize then some x else none }, outside)

def evalCounted (read : Reader ι σ) (e : Expression ι) (outside : σ) :
    Except Fault (Float × Expression ι × (σ × List ι) × Nat) :=
  e.evalBy (Runner.counted (Evaluator.run read.logged)) ((outside, []), 0)

theorem map_evalCounted (read : Reader ι σ) (e : Expression ι) (outside : σ) :
    (e.evalCounted read outside).map (fun r => (r.1, r.2.1, r.2.2.1)) = e.eval read.logged (outside, []) := by
  simp only [evalCounted, evalBy, eval, Runner.counted]
  cases e.cached with
  | some x => rfl
  | none =>
    simp only
    cases e.evaluator.run read.logged (outside, []) with
    | error fault => rfl
    | ok r => rfl

theorem evalCounted_of_run {read : Reader ι σ} {e : Expression ι} {outside outside' : σ} {reads : List ι} {x : Float}
    {evaluator : Evaluator ι} (hc : e.cached = none)
    (hr : e.evaluator.run read.logged (outside, []) = .ok (x, evaluator, outside', reads)) :
    ∃ e', e.evalCounted read outside = .ok (x, e', (outside', reads), 1) := by
  refine ⟨{ e with evaluator, cached := if e.memoize then some x else none }, ?_⟩
  simp only [evalCounted, evalBy, hc, Runner.counted, hr]

/-! ## Built expressions -/

inductive Built : Expression ι → Prop
  | config {τ : Type} {target : Option Target} {config : Config} {resolver : Option (Resolver τ ι)} {text : String}
      {lookups : τ} {e : Expression ι} : (build target config resolver text lookups).result = .ok e → Built e
  | compiler {τ : Type} {c : Compiler} {resolver : Option (Resolver τ ι)} {text : String} {lookups : τ}
      {e : Expression ι} : (c.build resolver text lookups).1.result = .ok e → Built e

/-- A built expression is fresh, and its evaluator evaluates the term of its program. -/
theorem exists_term_of_built {e : Expression ι} (h : e.Built) :
    ∃ t, e.program = .ofTerm t ∧ e.evaluator.Serves t ∧ e.memoize = false ∧ e.cached = none := by
  cases h with
  | @config τ target config resolver text lookups _ h =>
    rw [build_eq] at h
    cases hp : (Program.parse resolver text lookups).result with
    | error err => rw [hp] at h; cases h
    | ok p =>
      obtain ⟨t, rfl, -⟩ := Program.exists_term_of_made (.parse hp)
      rw [hp] at h
      simp only at h
      split at h
      · cases h
      · rename_i evaluator hev
        cases h
        exact ⟨t, rfl, Evaluator.ofConfig_serves hev, rfl, rfl⟩
  | @compiler τ c resolver text lookups _ h =>
    unfold Compiler.build at h
    split at h
    · cases h
    · rename_i p s events hp
      obtain ⟨t, rfl, -⟩ := Program.exists_term_of_made (.parse (congrArg Report.result hp))
      simp only at h
      cases hr : (c.compile (.ofTerm t)).result with
      | error err => rw [hr] at h; cases h
      | ok routine =>
        rw [hr] at h
        cases h
        exact ⟨t, rfl, .native (Compiler.serves_of_compile hr), rfl, rfl⟩

end Expression

/-! ## The past -/

def Action.drops : Action σ → Bool
  | invalidate => true
  | setMemoization enabled => !enabled
  | _ => false

def Action.flag (flag : Bool) : Action σ → Bool
  | setMemoization enabled => enabled
  | _ => flag

theorem Action.flag_true {action : Action σ} (h : action.drops = false) : action.flag true = true := by
  cases action with
  | setMemoization enabled => simpa [drops, flag] using h
  | eval | invalidate | change f => rfl

/-- Memoization as it was last set; off at first. -/
def flagAfter (past : List (Action σ)) : Bool := past.foldl Action.flag false

@[simp] theorem flagAfter_concat (past : List (Action σ)) (action : Action σ) :
    flagAfter (past ++ [action]) = action.flag (flagAfter past) := by
  simp [flagAfter]

/-- The evaluation that came after `before` is kept still. -/
def KeptFrom (past before : List (Action σ)) : Prop :=
  ∃ after, past = before ++ .eval :: after ∧ flagAfter before = true ∧ ∀ action ∈ after, action.drops = false

/-- One more action keeps what it does not drop, and an evaluation while memoization is on is kept. -/
theorem keptFrom_concat {past before : List (Action σ)} {action : Action σ} :
    KeptFrom (past ++ [action]) before ↔
      (action = .eval ∧ before = past ∧ flagAfter past = true) ∨ (KeptFrom past before ∧ action.drops = false) := by
  constructor
  · rintro ⟨after, hp, hf, ha⟩
    rcases List.eq_nil_or_concat after with rfl | ⟨after, last, rfl⟩
    · obtain ⟨rfl, hl⟩ := List.append_inj' hp rfl
      exact Or.inl ⟨List.head_eq_of_cons_eq hl, rfl, hf⟩
    · rw [List.concat_eq_append] at hp ha
      rw [← List.cons_append, ← List.append_assoc] at hp
      obtain ⟨rfl, hl⟩ := List.append_inj' hp rfl
      obtain rfl := List.head_eq_of_cons_eq hl
      exact Or.inr ⟨⟨after, rfl, hf, fun a h => ha a (List.mem_append_left _ h)⟩, ha _ (by simp)⟩
  · rintro (⟨rfl, rfl, hf⟩ | ⟨⟨after, rfl, hf, ha⟩, hd⟩)
    · exact ⟨[], rfl, hf, by simp⟩
    · exact ⟨after ++ [action], by simp, hf, List.forall_mem_append.mpr ⟨ha, by simpa using hd⟩⟩

/-- Memoization is on while an evaluation is kept. -/
theorem flagAfter_of_keptFrom {past before : List (Action σ)} (h : KeptFrom past before) : flagAfter past = true := by
  induction past using List.reverseRecOn with
  | nil =>
    obtain ⟨after, hp, -⟩ := h
    simp at hp
  | append_singleton past action ih =>
    rw [flagAfter_concat]
    rcases keptFrom_concat.mp h with ⟨rfl, rfl, hf⟩ | ⟨hk, hd⟩
    · exact hf
    · rw [ih hk]
      exact Action.flag_true hd

namespace Expression

structure Memory (t : Term (Operand ι)) (past : List (Action σ)) (shown : List (Shown ι)) (e : Expression ι) :
    Prop where
  serves : e.evaluator.Serves t
  memoize : e.memoize = flagAfter past
  length : shown.length = past.length
  kept : ∀ before, KeptFrom past before → ∃ x reads, e.cached = some x ∧ shown[before.length]? = some (.value x reads)
  cached : e.cached.isSome → ∃ before, KeptFrom past before

/-- An evaluation that is kept still is kept, with what it gave, whatever is shown next. -/
theorem Memory.kept_concat {t : Term (Operand ι)} {past : List (Action σ)} {shown : List (Shown ι)} {e : Expression ι}
    (h : e.Memory t past shown) {before : List (Action σ)} (hb : KeptFrom past before) (seen : Shown ι) :
    ∃ x reads, e.cached = some x ∧ (shown ++ [seen])[before.length]? = some (.value x reads) := by
  obtain ⟨x, reads, hx, hr⟩ := h.kept before hb
  exact ⟨x, reads, hx, by rw [List.getElem?_append_left (List.getElem?_eq_some_iff.mp hr).1, hr]⟩

/-- What is no evaluation only drops a value or leaves it. -/
theorem Memory.concat {t : Term (Operand ι)} {past : List (Action σ)} {shown : List (Shown ι)} {e e' : Expression ι}
    {action : Action σ} {seen : Shown ι} (h : e.Memory t past shown) (ha : action ≠ .eval)
    (hs : e'.evaluator = e.evaluator) (hm : e'.memoize = action.flag e.memoize)
    (hc : e'.cached = if action.drops then none else e.cached) :
    e'.Memory t (past ++ [action]) (shown ++ [seen]) := by
  refine ⟨hs ▸ h.serves, by rw [hm, h.memoize, flagAfter_concat], by simp [h.length], ?_, ?_⟩
  · intro before hb
    rcases keptFrom_concat.mp hb with ⟨he, -⟩ | ⟨hb, hd⟩
    · exact absurd he ha
    · rw [hc, if_neg (by simp [hd])]
      exact h.kept_concat hb seen
  · intro hsome
    rw [hc] at hsome
    split at hsome
    · cases hsome
    · rename_i hd
      obtain ⟨before, hb⟩ := h.cached hsome
      exact ⟨before, keptFrom_concat.mpr (Or.inr ⟨hb, by simpa using hd⟩)⟩

/-- An action keeps it that way. -/
theorem act_memory (read : Reader ι σ) {t : Term (Operand ι)} {past : List (Action σ)} {shown : List (Shown ι)}
    {e : Expression ι} (h : e.Memory t past shown) (outside : σ) (action : Action σ) :
    ∃ seen e' outside', e.act read outside action = .ok (seen, e', outside') ∧
      e'.Memory t (past ++ [action]) (shown ++ [seen]) := by
  have latest (seen : Shown ι) : (shown ++ [seen])[past.length]? = some seen := by
    rw [← h.length, List.getElem?_concat_length]
  cases action with
  | setMemoization enabled =>
    exact ⟨.previous e.memoize, (e.setMemoization enabled).2, outside, rfl,
      h.concat nofun rfl rfl (by cases enabled <;> rfl)⟩
  | invalidate => exact ⟨.nothing, e.invalidate, outside, rfl, h.concat nofun rfl rfl rfl⟩
  | change f => exact ⟨.nothing, e, f outside, rfl, h.concat nofun rfl rfl rfl⟩
  | eval =>
    have hflag : e.memoize = flagAfter (past ++ [.eval]) := by rw [h.memoize, flagAfter_concat]; rfl
    cases hec : e.cached with
    | some x =>
      refine ⟨.value x [], e, outside, by simp only [act, eval, hec], ⟨h.serves, hflag, by simp [h.length], ?_, ?_⟩⟩
      · intro before hb
        rcases keptFrom_concat.mp hb with ⟨-, rfl, -⟩ | ⟨hb, -⟩
        · exact ⟨x, [], hec, latest _⟩
        · exact h.kept_concat hb _
      · intro hsome
        obtain ⟨before, hb⟩ := h.cached hsome
        exact ⟨before, keptFrom_concat.mpr (Or.inr ⟨hb, rfl⟩)⟩
    | none =>
      obtain ⟨evaluator, he, hr⟩ := Evaluator.run_of_serves read.logged h.serves (outside, [])
      rw [Term.eval_logged, List.nil_append] at hr
      refine ⟨.value (t.eval read outside).1 t.loaders,
        { e with evaluator, cached := if e.memoize then some (t.eval read outside).1 else none },
        (t.eval read outside).2, by simp only [act, eval, hec, hr], ⟨he, hflag, by simp [h.length], ?_, ?_⟩⟩
      -- nothing was kept, so no earlier evaluation can be the one that is
      · intro before hb
        rcases keptFrom_concat.mp hb with ⟨-, rfl, hf⟩ | ⟨hb, -⟩
        · exact ⟨_, t.loaders, by rw [h.memoize, hf]; rfl, latest _⟩
        · obtain ⟨y, reads, hy, -⟩ := h.kept before hb
          rw [hec] at hy
          cases hy
      · intro hsome
        refine ⟨past, keptFrom_concat.mpr (Or.inl ⟨rfl, rfl, ?_⟩)⟩
        rw [← h.memoize]
        by_contra hoff
        simp [hoff] at hsome

theorem history_memory (read : Reader ι σ) {t : Term (Operand ι)} (actions : List (Action σ)) {past : List (Action σ)}
    {shown : List (Shown ι)} {e : Expression ι} (h : e.Memory t past shown) (outside : σ) :
    ∃ more now outside', history read actions e outside = .ok (more, now, outside') ∧
      now.Memory t (past ++ actions) (shown ++ more) := by
  induction actions generalizing past shown e outside with
  | nil => exact ⟨[], e, outside, rfl, by simpa using h⟩
  | cons action rest ih =>
    obtain ⟨seen, e₁, outside₁, ha, h₁⟩ := act_memory read h outside action
    obtain ⟨more, now, outside₂, hr, h₂⟩ := ih h₁ outside₁
    rw [List.append_assoc, List.append_assoc] at h₂
    exact ⟨seen :: more, now, outside₂, by simp only [history, ha, hr], h₂⟩

structure Remembers (read : Reader ι σ) (p : Program ι) (past : List (Action σ)) (shown : List (Shown ι))
    (now : Expression ι) (outside : σ) : Prop where
  /-- Counting changes nothing about an evaluation. -/
  counts : (now.evalCounted read outside).map (fun r => (r.1, r.2.1, r.2.2.1)) = now.eval read.logged (outside, [])
  /-- A value is kept only while memoization is on. -/
  memoized : now.cached.isSome → now.memoize = true
  /-- An evaluation answers what the kept one gave, and runs nothing. -/
  answered : ∀ before, KeptFrom past before → ∃ x reads, shown[before.length]? = some (.value x reads) ∧
    now.evalCounted read outside = .ok (x, now, (outside, []), 0)
  /-- Any other evaluation runs the evaluator once, and gives what a fresh interpreter would give. -/
  computed : (¬ ∃ before, KeptFrom past before) →
    ∃ x reads m now' outside', (Interpreter.ofProgram p).run read.logged (outside, []) = .ok (x, m, outside', reads) ∧
      now.evalCounted read outside = .ok (x, now', (outside', reads), 1)
  /-- Setting memoization gives what it was last set to, -/
  previous : ∀ enabled, (now.setMemoization enabled).1 = flagAfter past
  /-- keeps what is kept when turning it on, -/
  keeps : (now.setMemoization true).2.cached = now.cached
  /-- and touches neither the evaluator nor the outside state; nor does an invalidation. -/
  quiet : ∀ action, (∃ enabled, action = .setMemoization enabled) ∨ action = .invalidate →
    ∃ seen now', now.act read outside action = .ok (seen, now', outside) ∧ now'.evaluator = now.evaluator

theorem Memory.remembers (read : Reader ι σ) {t : Term (Operand ι)} {past : List (Action σ)} {shown : List (Shown ι)}
    {now : Expression ι} (h : now.Memory t past shown) (outside : σ) :
    now.Remembers read (.ofTerm t) past shown outside := by
  refine ⟨map_evalCounted read now outside, ?_, ?_, ?_, ?_, rfl, ?_⟩
  · intro hsome
    obtain ⟨before, hb⟩ := h.cached hsome
    rw [h.memoize, flagAfter_of_keptFrom hb]
  · intro before hb
    obtain ⟨x, reads, hx, hr⟩ := h.kept before hb
    exact ⟨x, reads, hr, by simp only [evalCounted, evalBy, hx]⟩
  · intro hno
    have hnone : now.cached = none := by
      by_contra hsome
      exact hno (h.cached (Option.ne_none_iff_isSome.mp hsome))
    obtain ⟨evaluator, -, he⟩ := Evaluator.run_of_serves read.logged h.serves (outside, [])
    obtain ⟨m, -, hm⟩ := Interpreter.run_ofTerm read.logged (Interpreter.serves_ofProgram (.ofTerm t)) (outside, [])
    obtain ⟨now', hnow⟩ := evalCounted_of_run hnone he
    exact ⟨_, _, m, now', _, hm, hnow⟩
  · intro enabled
    exact h.memoize
  · rintro action (⟨enabled, rfl⟩ | rfl)
    · exact ⟨_, _, rfl, rfl⟩
    · exact ⟨_, _, rfl, rfl⟩

/-- Whatever was done to a built expression, what it does next is what its past makes it do. -/
theorem history_remembers {e : Expression ι} (h : e.Built) (read : Reader ι σ) (past : List (Action σ)) (outside : σ) :
    ∃ shown now outside', e.history read past outside = .ok (shown, now, outside') ∧
      now.Remembers read e.program past shown outside' := by
  obtain ⟨t, hp, hs, hm, hc⟩ := exists_term_of_built h
  have fresh : e.Memory t ([] : List (Action σ)) [] := by
    refine ⟨hs, hm, rfl, ?_, by simp [hc]⟩
    rintro before ⟨after, hb, -⟩
    simp at hb
  obtain ⟨shown, now, outside', hh, hmem⟩ := history_memory read past fresh outside
  exact ⟨shown, now, outside', hh, by rw [hp]; exact hmem.remembers read outside'⟩

/-- A value that is kept while the outside state changes. -/
theorem history_remembers_over_change :
    ∃ e, (build (some .host) .native (some Resolver.itself) "x 1 +" ()).result = .ok e ∧
      ∃ shown now n x reads,
        e.history (fun _ n => (n.toFloat, n + 1)) [.eval, .setMemoization true, .eval, .change (· + 5)] 0 =
          .ok (shown, now, n) ∧
        shown[2]? = some (.value x reads) ∧
        now.evalCounted (fun _ n => (n.toFloat, n + 1)) n = .ok (x, now, (n, []), 0) := by
  have hok : (build (some .host) .native (some Resolver.itself) "x 1 +" ()).result.toOption.isSome = true := by
    decide +kernel
  cases he : (build (some .host) .native (some Resolver.itself) "x 1 +" ()).result with
  | error err => rw [he] at hok; cases hok
  | ok e =>
    obtain ⟨shown, now, n, hh, hr⟩ := history_remembers (.config he) (fun _ n => (n.toFloat, n + 1))
      [.eval, .setMemoization true, .eval, .change (· + 5)] 0
    obtain ⟨x, reads, hx, hc⟩ := hr.answered [.eval, .setMemoization true]
      ⟨[.change (· + 5)], rfl, rfl, by simp [Action.drops]⟩
    exact ⟨e, rfl, shown, now, n, x, reads, hh, hx, hc⟩

end Expression

end ReversePolish
