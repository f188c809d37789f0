/-
  ReversePolish.Proofs.CommandLine — what the command line prints does not depend on how
  it is evaluated.

  All symbols of the command line are constants, so an expression of any size folds to one
  fetch of its value (`constant?_fold`). A program that is one fetch has no operator that
  native code lacks, so every backend accepts it, native code too if the code of one fetch
  is within the limit (`exists_evaluator`). However often it is evaluated then, and
  whether its first value is kept or not, the value is that of the tokens
  (`evalAgain_of_gives`).

  So the error is that of the program and the value is that of the tokens, over the bindings
  with the last of each name, for all options; and the text printed is a literal of the
  same value (`run_independent`).
-/

import Mathlib.Logic.IsEmpty.Defs
import ReversePolish.CommandLine
import ReversePolish.Proofs.Backends
import ReversePolish.Proofs.Double.RoundTrip
import ReversePolish.Proofs.Folding

namespace ReversePolish

variable {τ ι σ : Type}

/-! ## Expressions without loaders -/

namespace Term

/-- Without loaders a term folds to its value. -/
theorem constant?_fold [IsEmpty ι] (t : Term (Operand ι)) (read : Reader ι σ) (outside : σ) :
    t.fold.constant? = some (t.eval read outside).1 := by
  induction t generalizing outside with
  | leaf operand =>
    obtain ⟨name, source⟩ := operand
    cases source with
    | constant x => rfl
    | dynamic loader => exact isEmptyElim loader
  | node o l r hl hr =>
    simp only [fold, combine, hl outside, hr (l.eval read outside).2]
    rfl

end Term

namespace Program

theorem ops_of_constant? {t : Term (Operand ι)} {x : Float} (h : t.fold.constant? = some x) :
    (ofTerm t).ops.toList = [.fetch] := by
  obtain ⟨name, ht⟩ := Term.eq_of_constant? h
  simp only [ofTerm, ofParts, ht, Term.instructions]

end Program

/-- The code of one fetch is within the limit, so it is compiled. -/
theorem Compiler.compile_fetch {c : Compiler} {p : Program ι} (hp : p.ops.toList = [.fetch])
    (hc : c.target.codeSize c.optLevel [.load] ≤ c.codeLimit) : ∃ r, (c.compile p).result = .ok r := by
  have hu : p.unsupported? = none := by simp [Program.unsupported?, hp]
  have hl : NativeOp.lowerAll p.ops.toList = .ok [.load] := by rw [hp]; rfl
  simp only [compile, hu, hl, Nat.not_lt.mpr hc, if_false]
  exact ⟨_, rfl⟩

/-- Every choice of a backend accepts a program that is one fetch. -/
theorem Evaluator.exists_evaluator {target : Target} (config : Config) {p : Program ι} (hp : p.ops.toList = [.fetch])
    (hfit : target.codeSize config.optLevel [.load] ≤ config.codeLimit.getD target.pageSize) (tokens : Nat) :
    ∃ e, (ofConfig (some target) config p tokens).1 = .ok e := by
  by_cases hc : config.choice = .always .native
  · obtain ⟨compiler, hcompiler, hsize⟩ : ∃ compiler, Compiler.ofConfig (some target) config = .ok compiler ∧
        compiler.target.codeSize compiler.optLevel [.load] ≤ compiler.codeLimit := ⟨_, rfl, hfit⟩
    obtain ⟨r, hr⟩ := Compiler.compile_fetch hp hsize
    simp only [ofConfig, hc, hcompiler, hr]
    exact ⟨_, rfl⟩
  · exact ofConfig_ok hc (some target) p tokens

namespace CommandLine

/-! ## Bindings -/

/-- A name stands for the value of its last binding. -/
def lastBound (bindings : List (String × Float)) : Resolver Unit Empty :=
  .ofFunction fun name =>
    match bindings.reverse.lookup name with
    | some x => .ok (.constant x)
    | none => .error (.unknown name)

theorem get?_ofList {α : Type} (bindings : List (String × α)) (name : String) :
    (Table.ofList bindings).get? name = bindings.reverse.lookup name := by
  induction bindings using List.reverseRecOn with
  | nil => rfl
  | append_singleton bindings b ih =>
    obtain ⟨bound, x⟩ := b
    have h : Table.ofList (bindings ++ [(bound, x)]) = (Table.ofList bindings).insert bound x := by simp [Table.ofList]
    rw [h, Table.get?_insert, ih, List.reverse_append, List.reverse_singleton, List.singleton_append, List.lookup_cons]
    by_cases hn : name = bound
    · simp [hn]
    · have hb : (name == bound) = false := by simpa using hn
      simp [hn, hb]

theorem resolver_eq (bindings : List (String × Float)) : resolver bindings = lastBound bindings := by
  funext name s
  have h := get?_ofList bindings name
  cases hl : bindings.reverse.lookup name with
  | none => simp only [resolver, lastBound, Resolver.ofFunction, h, hl]
  | some x => simp only [resolver, lastBound, Resolver.ofFunction, h, hl]

def parsed (bindings : Array (String × Float)) (text : String) : Except BuildError (Program Empty) :=
  (Program.parse (some (lastBound bindings.toList)) text ()).result

/-! ## Evaluating again -/

structure Gives (e : Expression Empty) (t : Term (Operand Empty)) : Prop where
  serves : e.evaluator.Serves t
  kept : ∀ x, e.cached = some x → x = (t.eval noReader ()).1

theorem eval_of_gives {e : Expression Empty} {t : Term (Operand Empty)} (h : Gives e t) :
    ∃ e', Gives e' t ∧ e.eval noReader () = .ok ((t.eval noReader ()).1, e', ()) := by
  cases hc : e.cached with
  | some x =>
    obtain rfl := h.kept x hc
    exact ⟨e, h, by simp only [Expression.eval, hc]⟩
  | none =>
    obtain ⟨evaluator, hs, hrun⟩ := Evaluator.run_of_serves noReader h.serves ()
    refine ⟨{ e with evaluator, cached := if e.memoize then some (t.eval noReader ()).1 else none }, ⟨hs, ?_⟩, ?_⟩
    · intro x hx
      by_cases hm : e.memoize
      · simpa [hm] using hx.symm
      · simp [hm] at hx
    · simp only [Expression.eval, hc, hrun]

/-- The last value is that of the term, after any number of evaluations. -/
theorem evalAgain_of_gives {e : Expression Empty} {t : Term (Operand Empty)} (h : Gives e t) (n : Nat) :
    evalAgain e n = .ok (t.eval noReader ()).1 := by
  induction n generalizing e with
  | zero =>
    obtain ⟨e', -, he⟩ := eval_of_gives h
    simp only [evalAgain, he]
    rfl
  | succ n ih =>
    obtain ⟨e', he', he⟩ := eval_of_gives h
    simp only [evalAgain, he, ih he']

theorem Gives.setMemoization {e : Expression Empty} {t : Term (Operand Empty)} (h : Gives e t) (enabled : Bool) :
    Gives (e.setMemoization enabled).2 t := by
  refine ⟨h.serves, fun x hx => ?_⟩
  cases enabled with
  | false => cases hx
  | true => exact h.kept x hx

/-! ## The outcome -/

theorem evaluate_error (target : Option Target) {text : String} {o : Options} {e : BuildError}
    (h : parsed o.bindings text = .error e) :
    evaluate target text o = { code := 1, stderr := "Error: " ++ e.message ++ "\n" } := by
  have hbuild : (build target o.config (some (lastBound o.bindings.toList)) text ()).result = .error e := by
    rw [build_eq, show (Program.parse _ _ _).result = _ from h]
  simp only [evaluate, resolver_eq, hbuild]

/-- The value printed is that of the tokens, whatever the options. -/
theorem evaluate_ok {target : Target} (hfit : target.codeSize .speed [.load] ≤ target.pageSize) {text : String}
    {o : Options} {p : Program Empty} (h : parsed o.bindings text = .ok p) :
    ∃ x stderr, evalTokens (some (lastBound o.bindings.toList)) noReader (tokenize text) () [] () = some ([x], ()) ∧
      evaluate (some target) text o = { stdout := Double.plain x ++ "\n", stderr } := by
  obtain ⟨t, s', hr, hn, rfl⟩ := Program.parse_eq_ok_iff.mp h
  have hops := Program.ops_of_constant? (Term.constant?_fold t noReader ())
  obtain ⟨evaluator, hevaluator⟩ := Evaluator.exists_evaluator o.config hops hfit (tokenize text).length
  have hbuild : (build (some target) o.config (some (lastBound o.bindings.toList)) text ()).result =
      .ok { text, program := .ofTerm t, evaluator } := by
    rw [build_eq, show (Program.parse _ _ _).result = _ from h]
    simp only [hevaluator]
  have hgives : Gives { text, program := .ofTerm t, evaluator } t := ⟨Evaluator.ofConfig_serves hevaluator, nofun⟩
  have htokens := Term.evalTokens_names noReader hr [] [] ()
  rw [List.append_nil, hn, evalTokens] at htokens
  have hout : evaluate (some target) text o =
      { stdout := Double.plain (t.eval noReader ()).1 ++ "\n"
        stderr := if o.showProgram then shown { text, program := .ofTerm t, evaluator } else "" } := by
    simp only [evaluate, resolver_eq, hbuild, evalAgain_of_gives (hgives.setMemoization o.memoize)]
  exact ⟨_, _, htokens, hout⟩

/-- Only the bindings matter for the code and for what is printed. -/
theorem evaluate_eq_of_bindings {target : Target} (hfit : target.codeSize .speed [.load] ≤ target.pageSize)
    {text : String} {o o' : Options} (hb : o'.bindings = o.bindings) :
    (evaluate (some target) text o').code = (evaluate (some target) text o).code ∧
      (evaluate (some target) text o').stdout = (evaluate (some target) text o).stdout := by
  cases hp : parsed o.bindings text with
  | error e =>
    rw [evaluate_error (some target) hp, evaluate_error (some target) (hb ▸ hp)]
    exact ⟨rfl, rfl⟩
  | ok p =>
    obtain ⟨x, stderr, hx, hout⟩ := evaluate_ok hfit hp
    obtain ⟨x', stderr', hx', hout'⟩ := evaluate_ok hfit (o := o') (hb ▸ hp)
    rw [hb, hx] at hx'
    cases hx'
    rw [hout, hout']
    exact ⟨rfl, rfl⟩

theorem run_eq {arguments : List String} {text : String} {o : Options} (h : readArguments arguments = .ok (text, o))
    (target : Option Target) : run target arguments = evaluate target text o := by
  simp only [run, h]

/-- A command line fails exactly if its expression has no program over the last binding of each name, with the
    error of that program. Otherwise it prints the value of the tokens, as a literal of that value; and neither
    depends on the backend, the threshold, the repetitions or the memoization. -/
theorem run_independent {target : Target} (hfit : target.codeSize .speed [.load] ≤ target.pageSize)
    {arguments : List String} {text : String} {o : Options} (h : readArguments arguments = .ok (text, o)) :
    ((run (some target) arguments).code = 1 ↔ ∃ e, parsed o.bindings text = .error e) ∧
    (∀ e, parsed o.bindings text = .error e →
      run (some target) arguments = { code := 1, stderr := "Error: " ++ e.message ++ "\n" }) ∧
    (∀ p, parsed o.bindings text = .ok p → ∃ x,
      evalTokens (some (lastBound o.bindings.toList)) noReader (tokenize text) () [] () = some ([x], ()) ∧
      (run (some target) arguments).code = 0 ∧ (run (some target) arguments).stdout = Double.plain x ++ "\n" ∧
      Double.Literal.parse? (Double.plain x) = some x) ∧
    ∀ arguments' o', readArguments arguments' = .ok (text, o') → o'.bindings = o.bindings →
      (run (some target) arguments').code = (run (some target) arguments).code ∧
      (run (some target) arguments').stdout = (run (some target) arguments).stdout := by
  rw [run_eq h]
  have same : ∀ arguments' o', readArguments arguments' = .ok (text, o') → o'.bindings = o.bindings →
      (run (some target) arguments').code = (evaluate (some target) text o).code ∧
      (run (some target) arguments').stdout = (evaluate (some target) text o).stdout := by
    intro arguments' o' h' hb
    rw [run_eq h']
    exact evaluate_eq_of_bindings hfit hb
  cases hp : parsed o.bindings text with
  | error e =>
    have he := evaluate_error (some target) hp
    refine ⟨⟨fun _ => ⟨e, rfl⟩, fun _ => by rw [he]⟩, ?_, nofun, same⟩
    intro e' he'
    cases he'
    exact he
  | ok p =>
    obtain ⟨x, stderr, hx, hout⟩ := evaluate_ok hfit hp
    rw [hout] at same ⊢
    refine ⟨⟨nofun, nofun⟩, nofun, ?_, same⟩
    intro p' _
    exact ⟨x, hx, rfl, rfl, Double.parse?_plain x⟩

/-- An expression that native code has no operators for, with options that differ from what they are by default. -/
def optionsGiven : List String :=
  ["--var=x=2", "--backend=jit", "--memoize", "x 3 ^ y if", "--var=y=0x10", "--repeat=0", "--var=x=-5"]

def optionsOmitted : List String := ["--var=x=2", "--var=y=0x10", "--var=x=-5", "x 3 ^ y if"]

theorem run_independent_of_options_given :
    ∃ text o o', readArguments optionsGiven = .ok (text, o) ∧ readArguments optionsOmitted = .ok (text, o') ∧
      (∃ x, evalTokens (some (lastBound o.bindings.toList)) noReader (tokenize text) () [] () = some ([x], ()) ∧
        (run (some .host) optionsGiven).stdout = Double.plain x ++ "\n") ∧
      (run (some .host) optionsOmitted).code = (run (some .host) optionsGiven).code ∧
      (run (some .host) optionsOmitted).stdout = (run (some .host) optionsGiven).stdout := by
  have hfit : Target.host.codeSize .speed [.load] ≤ Target.host.pageSize := by decide
  have hok : ((readArguments optionsGiven).toOption.any fun (text, o) =>
      (parsed o.bindings text).toOption.isSome) = true := by
    decide +kernel
  have hsame : ((readArguments optionsOmitted).toOption.map fun (text, o) => (text, o.bindings)) =
      (readArguments optionsGiven).toOption.map fun (text, o) => (text, o.bindings) := by
    decide +kernel
  cases h : readArguments optionsGiven with
  | error stop => rw [h] at hok; cases hok
  | ok given =>
    obtain ⟨text, o⟩ := given
    rw [h] at hok hsame
    cases h' : readArguments optionsOmitted with
    | error stop => rw [h'] at hsame; cases hsame
    | ok omitted =>
      obtain ⟨text', o'⟩ := omitted
      rw [h'] at hsame
      simp only [Except.toOption, Option.map_some, Option.some.injEq, Prod.mk.injEq] at hsame
      obtain ⟨rfl, hb⟩ := hsame
      obtain ⟨-, -, hvalue, hsame⟩ := run_independent hfit h
      cases hp : parsed o.bindings text' with
      | error e => simp [Except.toOption, hp] at hok
      | ok p =>
        obtain ⟨x, hx, -, hout, -⟩ := hvalue p hp
        exact ⟨text', o, o', rfl, rfl, ⟨x, hx, hout⟩, hsame optionsOmitted o' h' hb⟩

end CommandLine

end ReversePolish
