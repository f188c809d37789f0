/-
  ReversePolish.Proofs.Sharing — one compiler for many expressions.

  A bench has one compiler, the expressions that were built with it and an outside state.
  Its jobs come in any order: compiling a program, building an expression of a text with a
  resolver of the job's own, and an action on an expression that was built before. A
  program or a text that is refused is a failure; the bench goes on.

  All that a job leaves in the compiler is the number of functions that were given a name
  (`Bench.compiler_run`), and no result depends on that number. Hence the compiler of a bench
  builds what a compiler made for the one expression builds (`Compiler.result_build`), and
  two benches that differ in the number only answer every job alike (`Bench.run_withFunctions`).
  A failure leaves just such a bench, so dropping it changes no later answer. Each name
  that is given moves the number on, so the names of a run are those of the numbers from
  zero up (`Bench.names_eq`). `shared_compiler` puts this together for the compiler of any
  configuration.
-/

import Mathlib.Data.List.Nodup
import ReversePolish.Proofs.Outcome

namespace ReversePolish

variable {τ ι σ : Type}

/-! ## The compiler -/

namespace Compiler

def withFunctions (c : Compiler) (n : Nat) : Compiler := { c with functions := n }

/-- The name that a program's function is given; a program that is refused for an operator gets none. -/
def nameFor? (c : Compiler) (p : Program ι) : Option String :=
  if p.unsupported?.isNone then some c.functionName else none

def nameOf (n : Nat) : String := "rpn_expr_" ++ toString n

theorem nameOf_injective : Function.Injective nameOf := by
  intro m n h
  have hd : Nat.toDigits 10 m = Nat.toDigits 10 n := by
    have hl := congrArg String.toList h
    simpa only [nameOf, String.toList_append, List.append_cancel_left_eq, Nat.toString_eq_repr,
      Nat.toList_repr] using hl
  calc
    m = Nat.ofDigitChars 10 (Nat.toDigits 10 m) 0 := Nat.ofDigitChars_ten_toDigits.symm
    _ = Nat.ofDigitChars 10 (Nat.toDigits 10 n) 0 := by rw [hd]
    _ = n := Nat.ofDigitChars_ten_toDigits

/-- Native code does not depend on the number of functions. -/
theorem result_compile_withFunctions (c : Compiler) (n : Nat) (p : Program ι) :
    ((c.withFunctions n).compile p).result = (c.compile p).result := by
  cases hu : p.unsupported? with
  | some o => rw [compile_unsupported _ hu, compile_unsupported _ hu]
  | none =>
    obtain ⟨code, hcode⟩ := Program.exists_code hu
    rw [result_compile _ hu hcode, result_compile _ hu hcode]
    rfl

/-- A compilation moves the number of functions on by the name that it gives, and does nothing else. -/
theorem compiler_compile (c : Compiler) (p : Program ι) :
    (c.compile p).compiler = c.withFunctions (c.functions + (c.nameFor? p).toList.length) := by
  cases hu : p.unsupported? with
  | some o => simp only [compile_unsupported _ hu, nameFor?, hu]; rfl
  | none => rcases compile_cases c hu with ⟨_, hc⟩ | ⟨_, _, _, hc⟩ <;> rw [hc, nameFor?, hu] <;> rfl

/-- The name that an accepted function goes by is the one it was given. -/
theorem nameFor?_of_codeAccepted {c : Compiler} {p : Program ι} {function : String} {size ops : Nat}
    (h : .codeAccepted function size ops ∈ (c.compile p).events) : c.nameFor? p = some function := by
  cases hu : p.unsupported? with
  | some o => rw [compile_unsupported _ hu] at h; cases h
  | none =>
    rcases compile_cases c hu with ⟨_, hc⟩ | ⟨_, _, _, hc⟩
    · simp [hc] at h
    · simp only [hc, List.mem_cons, Event.codeAccepted.injEq, reduceCtorEq, List.not_mem_nil, or_false,
        false_or] at h
      simp [nameFor?, hu, h.1]

theorem build_eq (c : Compiler) (resolver : Option (Resolver τ ι)) (text : String) (lookups : τ) :
    (c.build resolver text lookups).1.result =
      match (Program.parse resolver text lookups).result with
      | .error e => .error e
      | .ok p =>
        match (c.compile p).result with
        | .error e => .error (.native e)
        | .ok routine => .ok { text, program := p, evaluator := .native routine } := by
  unfold Compiler.build
  rcases Program.parse resolver text lookups with ⟨e | p, s, events⟩
  · rfl
  · simp only
    rcases (c.compile p).result with e | routine
    · rfl
    · rfl

/-- What building with a compiler gives is what building with one made for the one expression gives. -/
theorem result_build (c : Compiler) {target : Option Target} {config : Config} {fresh : Compiler} {n : Nat}
    (hfresh : ofConfig target config = .ok fresh) (hc : c = fresh.withFunctions n)
    (resolver : Option (Resolver τ ι)) (text : String) (lookups : τ) :
    (c.build resolver text lookups).1.result =
      (ReversePolish.build target { config with choice := .always .native } resolver text lookups).result := by
  have hof : ofConfig target { config with choice := .always .native } = .ok fresh := hfresh
  subst hc
  rw [build_eq, ReversePolish.build_eq]
  cases (Program.parse resolver text lookups).result with
  | error e => rfl
  | ok p =>
    simp only [Evaluator.ofConfig, hof, result_compile_withFunctions]
    rcases (fresh.compile p).result with e | routine
    · rfl
    · rfl

theorem lookups_build (c : Compiler) (target : Option Target) (config : Config) (resolver : Option (Resolver τ ι))
    (text : String) (lookups : τ) :
    (c.build resolver text lookups).1.lookups = (ReversePolish.build target config resolver text lookups).lookups := by
  unfold Compiler.build ReversePolish.build
  rcases Program.parse resolver text lookups with ⟨e | p, s, events⟩
  · rfl
  · simp only
    rcases (c.compile p).result with e | routine
    · rcases Evaluator.ofConfig target config p (tokenize text).length with ⟨e | evaluator, more⟩ <;> rfl
    · rcases Evaluator.ofConfig target config p (tokenize text).length with ⟨e | evaluator, more⟩ <;> rfl

theorem compiler_build (c : Compiler) (resolver : Option (Resolver τ ι)) (text : String) (lookups : τ) :
    (c.build resolver text lookups).2 =
      match (Program.parse resolver text lookups).result with
      | .error _ => c
      | .ok p => (c.compile p).compiler := by
  unfold Compiler.build
  rcases Program.parse resolver text lookups with ⟨e | p, s, events⟩
  · rfl
  · rfl

/-- Neither an expression nor an error shows the number of functions. -/
theorem report_build_withFunctions (c : Compiler) (n : Nat) (resolver : Option (Resolver τ ι)) (text : String)
    (lookups : τ) :
    ((c.withFunctions n).build resolver text lookups).1.result = (c.build resolver text lookups).1.result ∧
      ((c.withFunctions n).build resolver text lookups).1.lookups = (c.build resolver text lookups).1.lookups := by
  constructor
  · simp only [build_eq, result_compile_withFunctions]
  · rw [lookups_build _ none .native, lookups_build _ none .native]

end Compiler

/-! ## The bench -/

/-- A compiler, the expressions built with it, the first one first, and an outside state. -/
@[ext]
structure Bench (ι σ : Type) where
  compiler : Compiler
  expressions : List (Expression ι) := []
  outside : σ

namespace Bench

inductive Job (τ ι σ : Type) where
  | compile (p : Program ι)
  | build (resolver : Option (Resolver τ ι)) (text : String) (lookups : τ)
  /-- An action on the expression in place `n`. -/
  | use (n : Nat) (action : Action σ)

inductive Answer (τ ι : Type) where
  | compiled (result : Except NativeError (Routine ι))
  /-- What was built, and what the resolver is left with. -/
  | built (result : Except BuildError (Expression ι)) (lookups : τ)
  | shown (shown : Shown ι)
  | fault (f : Fault)
  /-- There is no such expression. -/
  | absent

def Answer.isFailure : Answer τ ι → Bool
  | compiled (.error _) => true
  | built (.error _) _ => true
  | _ => false

def act (read : Reader ι σ) (b : Bench ι σ) : Job τ ι σ → Answer τ ι × Bench ι σ
  | .compile p =>
    let compilation := b.compiler.compile p
    (.compiled compilation.result, { b with compiler := compilation.compiler })
  | .build resolver text lookups =>
    let (report, compiler) := b.compiler.build resolver text lookups
    (.built report.result report.lookups,
      { b with compiler, expressions := b.expressions ++ report.result.toOption.toList })
  | .use n action =>
    match b.expressions[n]? with
    | none => (.absent, b)
    | some e =>
      match e.act read b.outside action with
      | .error f => (.fault f, b)
      | .ok (shown, e, outside) => (.shown shown, { b with expressions := b.expressions.set n e, outside })

def run (read : Reader ι σ) : List (Job τ ι σ) → Bench ι σ → List (Job τ ι σ × Answer τ ι) × Bench ι σ
  | [], b => ([], b)
  | job :: rest, b =>
    let (answer, b) := b.act read job
    let (log, b) := run read rest b
    ((job, answer) :: log, b)

def name? (b : Bench ι σ) : Job τ ι σ → Option String
  | .compile p => b.compiler.nameFor? p
  | .build resolver text lookups =>
    match (Program.parse resolver text lookups).result with
    | .error _ => none
    | .ok p => b.compiler.nameFor? p
  | .use .. => none

def names (read : Reader ι σ) : List (Job τ ι σ) → Bench ι σ → List String
  | [], _ => []
  | job :: rest, b => (b.name? job).toList ++ names read rest (b.act read job).2

def withFunctions (b : Bench ι σ) (n : Nat) : Bench ι σ := { b with compiler := b.compiler.withFunctions n }

@[simp] theorem withFunctions_compiler (b : Bench ι σ) (n : Nat) :
    (b.withFunctions n).compiler = b.compiler.withFunctions n := rfl

@[simp] theorem withFunctions_outside (b : Bench ι σ) (n : Nat) : (b.withFunctions n).outside = b.outside := rfl

@[simp] theorem withFunctions_expressions (b : Bench ι σ) (n : Nat) :
    (b.withFunctions n).expressions = b.expressions := rfl

section

variable (read : Reader ι σ)

/-! ### One job -/

/-- A job moves the number of functions on by the name that it is given. -/
theorem compiler_act (b : Bench ι σ) (job : Job τ ι σ) :
    (b.act read job).2.compiler =
      b.compiler.withFunctions (b.compiler.functions + (b.name? job).toList.length) := by
  cases job with
  | compile p => exact Compiler.compiler_compile b.compiler p
  | build resolver text lookups =>
    simp only [act, name?, Compiler.compiler_build]
    cases (Program.parse resolver text lookups).result with
    | error e => rfl
    | ok p => exact Compiler.compiler_compile b.compiler p
  | use n action =>
    simp only [act]
    split
    · rfl
    · split <;> rfl

/-- A name is always that of the next number. -/
theorem toList_name? (b : Bench ι σ) (job : Job τ ι σ) :
    (b.name? job).toList =
      (List.range' b.compiler.functions (b.name? job).toList.length).map Compiler.nameOf := by
  have hname : ∀ p : Program ι, (b.compiler.nameFor? p).toList =
      (List.range' b.compiler.functions (b.compiler.nameFor? p).toList.length).map Compiler.nameOf := by
    intro p
    unfold Compiler.nameFor?
    split <;> rfl
  cases job with
  | compile p => exact hname p
  | build resolver text lookups =>
    simp only [name?]
    cases (Program.parse resolver text lookups).result with
    | error e => rfl
    | ok p => exact hname p
  | use n action => rfl

/-- The number of functions shows in no answer. -/
theorem act_withFunctions (b : Bench ι σ) (n : Nat) (job : Job τ ι σ) :
    ∃ m, (b.withFunctions n).act read job = ((b.act read job).1, (b.act read job).2.withFunctions m) := by
  have hc : (act read (b.withFunctions n) job).2.compiler =
      (b.act read job).2.compiler.withFunctions ((b.withFunctions n).act read job).2.compiler.functions := by
    rw [compiler_act, compiler_act]
    rfl
  cases job with
  | compile p =>
    refine ⟨_, Prod.ext ?_ (Bench.ext hc rfl rfl)⟩
    simp only [act, withFunctions_compiler, Compiler.result_compile_withFunctions]
  | build resolver text lookups =>
    obtain ⟨hr, hl⟩ := b.compiler.report_build_withFunctions n resolver text lookups
    refine ⟨_, Prod.ext ?_ (Bench.ext hc ?_ rfl)⟩
    · simp only [act, withFunctions_compiler, hr, hl]
    · simp only [act, withFunctions_compiler, hr]; rfl
  | use k action =>
    refine ⟨n, ?_⟩
    simp only [act, withFunctions_expressions]
    cases b.expressions[k]? with
    | none => rfl
    | some e =>
      simp only [withFunctions_outside]
      split
      · rfl
      · rfl

/-- A failure leaves nothing but another number of functions. -/
theorem act_of_isFailure {b : Bench ι σ} {job : Job τ ι σ} (h : (b.act read job).1.isFailure = true) :
    ∃ n, (b.act read job).2 = b.withFunctions n := by
  have hc := compiler_act read b job
  cases job with
  | compile p => exact ⟨_, Bench.ext hc rfl rfl⟩
  | build resolver text lookups =>
    refine ⟨_, Bench.ext hc ?_ rfl⟩
    simp only [act] at h ⊢
    cases hr : (b.compiler.build resolver text lookups).1.result with
    | error e => simp only [Except.toOption, Option.toList_none, List.append_nil]; rfl
    | ok e => rw [hr] at h; cases h
  | use n action =>
    simp only [act] at h
    split at h
    · cases h
    · split at h <;> cases h

/-! ### A run -/

/-- Benches that differ in the number of functions only answer all jobs alike. -/
theorem run_withFunctions (jobs : List (Job τ ι σ)) (b : Bench ι σ) (n : Nat) :
    ∃ m, run read jobs (b.withFunctions n) = ((run read jobs b).1, (run read jobs b).2.withFunctions m) := by
  induction jobs generalizing b n with
  | nil => exact ⟨n, rfl⟩
  | cons job rest ih =>
    obtain ⟨k, hk⟩ := act_withFunctions read b n job
    obtain ⟨m, hm⟩ := ih (b.act read job).2 k
    exact ⟨m, by simp only [run, hk, hm]⟩

/-- Without its failures a run has the same answers. -/
theorem run_filter (jobs : List (Job τ ι σ)) (b : Bench ι σ) :
    (run read (((run read jobs b).1.filter fun entry => !entry.2.isFailure).map Prod.fst) b).1 =
      (run read jobs b).1.filter fun entry => !entry.2.isFailure := by
  induction jobs generalizing b with
  | nil => rfl
  | cons job rest ih =>
    simp only [run, List.filter_cons]
    cases hf : (b.act read job).1.isFailure with
    | false => simp only [Bool.not_false, if_true, List.map_cons, run, ih]
    | true =>
      obtain ⟨n, hn⟩ := act_of_isFailure read hf
      obtain ⟨m, hm⟩ := run_withFunctions read rest b n
      simp only [Bool.not_true, Bool.false_eq_true, if_false, hn, hm, ih]

theorem compiler_run (jobs : List (Job τ ι σ)) (b : Bench ι σ) :
    (run read jobs b).2.compiler =
      b.compiler.withFunctions (b.compiler.functions + (names read jobs b).length) := by
  induction jobs generalizing b with
  | nil => rfl
  | cons job rest ih =>
    simp only [run, names, ih, compiler_act, List.length_append]
    rw [← Nat.add_assoc]
    rfl

/-- The names of a run are those of the numbers in order, from the first that is free. -/
theorem names_eq (jobs : List (Job τ ι σ)) (b : Bench ι σ) :
    names read jobs b =
      (List.range' b.compiler.functions (names read jobs b).length).map Compiler.nameOf := by
  induction jobs generalizing b with
  | nil => rfl
  | cons job rest ih =>
    rw [names, List.length_append, ← List.range'_append_1, List.map_append, ← toList_name?]
    congr 1
    rw [ih, compiler_act]
    simp [Compiler.withFunctions]

theorem length_names_le (jobs : List (Job τ ι σ)) (b : Bench ι σ) : (names read jobs b).length ≤ jobs.length := by
  induction jobs generalizing b with
  | nil => exact Nat.le_refl 0
  | cons job rest ih =>
    have hjob : (b.name? job).toList.length ≤ 1 := by cases b.name? job <;> simp
    have := ih (b.act read job).2
    simp only [names, List.length_append, List.length_cons]
    omega

end

end Bench

/-! ## Like a fresh compiler -/

structure BuildsAsFresh (c : Compiler) (target : Option Target) (config : Config)
    (resolver : Option (Resolver τ ι)) (text : String) (lookups : τ) : Prop where
  result_eq : (c.build resolver text lookups).1.result =
    (build target { config with choice := .always .native } resolver text lookups).result
  lookups_eq : (c.build resolver text lookups).1.lookups =
    (build target { config with choice := .always .native } resolver text lookups).lookups
  expression : ∀ e, (c.build resolver text lookups).1.result = .ok e →
    (Program.parse resolver text lookups).result = .ok e.program ∧ e.text = text ∧ e.backend = .native ∧
      e.memoize = false ∧ e.cached = none
  history : ∀ e f, (c.build resolver text lookups).1.result = .ok e →
    (build target { config with choice := .always .native } resolver text lookups).result = .ok f →
    ∀ (σ : Type) (read : Reader ι σ) (actions : List (Action σ)) (outside : σ),
      ∃ shown e' f' outside', e.history read actions outside = .ok (shown, e', outside') ∧
        f.history read actions outside = .ok (shown, f', outside')

theorem Compiler.expression_build {c : Compiler} {resolver : Option (Resolver τ ι)} {text : String} {lookups : τ}
    {e : Expression ι} (h : (c.build resolver text lookups).1.result = .ok e) :
    (Program.parse resolver text lookups).result = .ok e.program ∧ e.text = text ∧ e.backend = .native ∧
      e.memoize = false ∧ e.cached = none := by
  rw [build_eq] at h
  split at h
  · cases h
  · rename_i p hp
    split at h
    · cases h
    · cases h
      exact ⟨hp, rfl, rfl, rfl, rfl⟩

theorem Compiler.buildsAsFresh {c fresh : Compiler} {target : Option Target} {config : Config} {n : Nat}
    (hfresh : ofConfig target config = .ok fresh) (hc : c = fresh.withFunctions n)
    (resolver : Option (Resolver τ ι)) (text : String) (lookups : τ) :
    BuildsAsFresh c target config resolver text lookups where
  result_eq := c.result_build hfresh hc resolver text lookups
  lookups_eq := c.lookups_build target _ resolver text lookups
  expression := fun _ he => expression_build he
  history := by
    intro e f he hf σ read actions outside
    rw [c.result_build hfresh hc] at he
    obtain ⟨t, ht, het, hem, hec⟩ := serves_of_build he
    obtain ⟨u, hu, hfu, hfm, hfc⟩ := serves_of_build hf
    rw [ht] at hu
    cases hu
    exact Expression.history_alike read actions ⟨hem.trans hfm.symm, hec.trans hfc.symm, t, het, hfu⟩ outside

/-- The jobs of a bench do not show in one another, but for the expressions that they build and use. -/
structure Bench.Shares (b : Bench ι σ) (target : Option Target) (config : Config) (read : Reader ι σ)
    (jobs : List (Job τ ι σ)) : Prop where
  /-- What is built next is what a compiler of its own would have built. -/
  fresh : ∀ (τ' : Type) (resolver : Option (Resolver τ' ι)) (text : String) (lookups : τ'),
    BuildsAsFresh (run read jobs b).2.compiler target config resolver text lookups
  /-- A failure that comes next shows in nothing after it. -/
  failure : ∀ job : Job τ ι σ, ((run read jobs b).2.act read job).1.isFailure = true →
    ∀ later : List (Job τ ι σ),
      (run read later ((run read jobs b).2.act read job).2).1 = (run read later (run read jobs b).2).1
  /-- Nor do all the failures until now. -/
  withoutFailures : (run read (((run read jobs b).1.filter fun entry => !entry.2.isFailure).map Prod.fst) b).1 =
    (run read jobs b).1.filter fun entry => !entry.2.isFailure
  names : names read jobs b = (List.range (run read jobs b).2.compiler.functions).map Compiler.nameOf
  distinct : (Bench.names read jobs b).Nodup
  /-- The number of functions is no larger than that of the jobs. -/
  functions : (run read jobs b).2.compiler.functions ≤ jobs.length
  /-- A program is given a name just if native code has all its operators, and the name is the one reported. -/
  named : ∀ p : Program ι,
    (((run read jobs b).2.compiler.nameFor? p).isSome ↔ p.unsupported? = none) ∧
      ∀ function size ops, .codeAccepted function size ops ∈ ((run read jobs b).2.compiler.compile p).events →
        (run read jobs b).2.compiler.nameFor? p = some function

/-- A compiler that is shared by any jobs behaves to each of them like a fresh one. -/
theorem shared_compiler {target : Option Target} {config : Config} {c : Compiler}
    (h : Compiler.ofConfig target config = .ok c) (read : Reader ι σ) (outside : σ) (jobs : List (Bench.Job τ ι σ)) :
    Bench.Shares { compiler := c, outside } target config read jobs := by
  have hzero : c.functions = 0 := by
    unfold Compiler.ofConfig at h
    split at h
    · cases h
    · cases h; rfl
  have hnames := Bench.names_eq read jobs { compiler := c, outside }
  have hrun := Bench.compiler_run read jobs { compiler := c, outside }
  simp only [hzero, Nat.zero_add, ← List.range_eq_range'] at hnames hrun
  have hfunctions := congrArg Compiler.functions hrun
  refine ⟨?_, ?_, Bench.run_filter read jobs _, ?_, ?_, ?_, ?_⟩
  · intro τ' resolver text lookups
    exact Compiler.buildsAsFresh h hrun resolver text lookups
  · intro job hf later
    obtain ⟨n, hn⟩ := Bench.act_of_isFailure read hf
    obtain ⟨m, hm⟩ := Bench.run_withFunctions read later _ n
    rw [hn, hm]
  · rw [hfunctions]
    exact hnames
  · rw [hnames]
    exact List.Nodup.map Compiler.nameOf_injective List.nodup_range
  · rw [hfunctions]
    exact Bench.length_names_le read jobs _
  · intro p
    refine ⟨?_, fun function size ops ha => Compiler.nameFor?_of_codeAccepted ha⟩
    simp [Compiler.nameFor?]

/-- After a text that is none, an operator without native code and code that is too large, native code is
    built and evaluated. What is too large here goes by the sizes of the stand-in `Target.host`. -/
theorem shared_compiler_after_failures :
    ∃ c, Compiler.ofConfig (some .host) { codeLimit := some 22 } = .ok c ∧
      ∃ (read : Reader String Nat) (jobs : List (Bench.Job Unit String Nat)),
        (Bench.run read jobs { compiler := c, outside := 7 }).1.map (fun entry => entry.2.isFailure) =
          [true, true, true, false, false] ∧
        Bench.names read jobs { compiler := c, outside := 7 } = ["rpn_expr_0", "rpn_expr_1"] ∧
        Bench.Shares { compiler := c, outside := 7 } (some .host) { codeLimit := some 22 } read jobs := by
  refine ⟨_, rfl, fun _ n => (n.toFloat, n + 1),
    [.build none "1 +" (), .build (some Resolver.itself) "x y ^" (), .build (some Resolver.itself) "x y + z *" (),
      .build (some Resolver.itself) "x 1 +" (), .use 0 .eval], ?_, ?_, ?_⟩
  · decide +kernel
  · decide +kernel
  · exact shared_compiler rfl _ 7 _

end ReversePolish
