/-
  ReversePolish.Proofs.Outcome — what comes of asking for native code.

  The errors come in one order. A text that is no expression is refused as such, whatever
  is asked for; without a target there is no compiler; with one, an operator that native
  code does not have is refused, and then code that is too large.

  The compiler looks for such an operator in the program, where folding has been. It is
  said here of the text: an operator is foreign if native code does not have it and
  something below it is read anew (`ForeignAt`). Folding takes away just the operators with
  nothing read anew below them and keeps the others in order, so the first foreign operator
  of the text is the one that the compiler meets (`unsupported?_eq_some_iff`).
  `native_outcome` states this for every target, and that no other choice depends on it.
-/

import ReversePolish.Proofs.Backends
import ReversePolish.Proofs.Contraction
import ReversePolish.Proofs.Workshop

namespace ReversePolish

variable {τ ι : Type}

/-! ## Foreign operators -/

namespace Term

/-- The last token of a term, where `spell` is the token of a leaf. -/
def lastToken {α : Type} (spell : α → String) : Term α → String
  | leaf a => spell a
  | node o _ _ => o.symbol

theorem tokens_eq_map_subterms {α : Type} (spell : α → String) (t : Term α) :
    t.tokens spell = t.subterms.map (lastToken spell) := by
  induction t with
  | leaf a => rfl
  | node o l r hl hr => simp only [tokens, subterms, List.map_append, hl, hr, List.map_singleton, lastToken]

/-- The operator of a term, if native code does not have it and something below it is read anew. -/
def foreign? : Term (Operand ι) → Option Operator
  | leaf _ => none
  | node o l r => if o.isNative || (node o l r).isConstant then none else some o

/-- The token at place `i` is `^` or `if`, and below it there is a leaf that is read anew. -/
structure ForeignAt (t : Term (Operand ι)) (i : Nat) (o : Operator) : Prop where
  token : t.names[i]? = some o.symbol
  operator : o = .pow ∨ o = .cond
  below : ∃ l r, t.subterms[i]? = some (node o l r) ∧
    ∃ operand ∈ l.leaves ++ r.leaves, operand.source.isConstant = false

def FirstForeign (t : Term (Operand ι)) (o : Operator) : Prop :=
  ∃ i, t.ForeignAt i o ∧ ∀ j < i, ∀ o', ¬t.ForeignAt j o'

def NoForeign (t : Term (Operand ι)) : Prop := ∀ i o, ¬t.ForeignAt i o

theorem NoForeign.not_firstForeign {t : Term (Operand ι)} (h : t.NoForeign) (o : Operator) : ¬t.FirstForeign o := by
  rintro ⟨i, hi, -⟩
  exact h i o hi

theorem foreign?_eq_some_iff {t : Term (Operand ι)} {o : Operator} :
    t.foreign? = some o ↔ (o = .pow ∨ o = .cond) ∧
      ∃ l r, t = node o l r ∧ ∃ operand ∈ l.leaves ++ r.leaves, operand.source.isConstant = false := by
  cases t with
  | leaf operand =>
    constructor
    · nofun
    · rintro ⟨-, l, r, h, -⟩
      cases h
  | node o' l r =>
    have hc : (node o' l r).isConstant = false ↔
        ∃ operand ∈ l.leaves ++ r.leaves, operand.source.isConstant = false := by
      simp only [isConstant, leaves, List.all_eq_false, Bool.not_eq_true]
    have ho : o'.isNative = false ↔ o' = .pow ∨ o' = .cond := by cases o' <;> simp [Operator.isNative]
    rw [foreign?, Option.ite_none_left_eq_some, Bool.or_eq_true, not_or, Bool.not_eq_true, Bool.not_eq_true, ho, hc]
    constructor
    · rintro ⟨⟨hop, hd⟩, h⟩
      cases h
      exact ⟨hop, l, r, rfl, hd⟩
    · rintro ⟨hop, l', r', h, hd⟩
      cases h
      exact ⟨⟨hop, hd⟩, rfl⟩

theorem foreignAt_iff {t : Term (Operand ι)} {i : Nat} {o : Operator} :
    t.ForeignAt i o ↔ ∃ u, t.subterms[i]? = some u ∧ u.foreign? = some o := by
  constructor
  · rintro ⟨-, ho, l, r, hu, hd⟩
    exact ⟨_, hu, foreign?_eq_some_iff.mpr ⟨ho, l, r, rfl, hd⟩⟩
  · rintro ⟨u, hu, hf⟩
    obtain ⟨ho, l, r, rfl, hd⟩ := foreign?_eq_some_iff.mp hf
    refine ⟨?_, ho, l, r, hu, hd⟩
    rw [names, tokens_eq_map_subterms, List.getElem?_map, hu]
    rfl

theorem findSome?_foreign?_eq_some_iff {t : Term (Operand ι)} {o : Operator} :
    t.subterms.findSome? foreign? = some o ↔ t.FirstForeign o := by
  rw [List.findSome?_eq_some_iff]
  constructor
  · rintro ⟨before, u, after, hs, hu, hno⟩
    refine ⟨before.length, foreignAt_iff.mpr ⟨u, by rw [hs]; simp, hu⟩, ?_⟩
    intro j hj o' hf
    obtain ⟨v, hv, hf⟩ := foreignAt_iff.mp hf
    rw [hs, List.getElem?_append_left hj] at hv
    rw [hno v (List.mem_of_getElem? hv)] at hf
    cases hf
  · rintro ⟨i, hi, hno⟩
    obtain ⟨u, hu, hf⟩ := foreignAt_iff.mp hi
    obtain ⟨hlt, rfl⟩ := List.getElem?_eq_some_iff.mp hu
    refine ⟨t.subterms.take i, t.subterms[i], t.subterms.drop (i + 1), by simp, hf, ?_⟩
    intro v hv
    obtain ⟨j, hj, rfl⟩ := List.mem_take_iff_getElem.mp hv
    cases hv' : (t.subterms[j]).foreign? with
    | none => rfl
    | some o' =>
      have hji : j < i := (Nat.lt_min.mp hj).1
      exact absurd (foreignAt_iff.mpr ⟨_, List.getElem?_eq_getElem _, hv'⟩) (hno j hji o')

theorem findSome?_foreign?_eq_none_iff {t : Term (Operand ι)} :
    t.subterms.findSome? foreign? = none ↔ t.NoForeign := by
  rw [List.findSome?_eq_none_iff]
  constructor
  · intro hno i o hi
    obtain ⟨u, hu, hf⟩ := foreignAt_iff.mp hi
    rw [hno u (List.mem_of_getElem? hu)] at hf
    cases hf
  · intro hno u hu
    obtain ⟨i, hi⟩ := List.mem_iff_getElem?.mp hu
    cases hf : u.foreign? with
    | none => rfl
    | some o => exact absurd (foreignAt_iff.mpr ⟨u, hi, hf⟩) (hno i o)

/-- Among the instructions that folding leaves, the operators without native code are the foreign ones. -/
theorem findSome?_instructions_fold (t : Term (Operand ι)) :
    (t.fold.instructions.findSome? fun
      | .fetch => none
      | .apply o => if o.isNative then none else some o) = t.subterms.findSome? foreign? := by
  induction t with
  | leaf operand => rfl
  | node o l r ihl ihr =>
    have hc := isConstant_fold (node o l r)
    rcases fold_node_cases o l r with ⟨x, y, hx, hy, hf, -⟩ | ⟨hf, -⟩
    · -- both operands are folded to constants, so nothing within them is foreign either
      obtain ⟨a, hl⟩ := eq_of_constant? hx
      obtain ⟨b, hr⟩ := eq_of_constant? hy
      rw [hl] at ihl
      rw [hr] at ihr
      rw [hf] at hc ⊢
      rw [subterms, List.findSome?_append, List.findSome?_append, ← ihl, ← ihr, List.findSome?_singleton, foreign?,
        ← hc, isConstant_ofFloat, Bool.or_true]
      rfl
    · have hd : (node o l r).isConstant = false := by
        rw [← isConstant_fold]
        exact isConstant_eq_false_of_mem_subterms_fold (by rw [hf]; simp [subterms]) (by rw [hf]; rfl)
      rw [hf, instructions, subterms, List.findSome?_append, List.findSome?_append, List.findSome?_append,
        List.findSome?_append, ihl, ihr, List.findSome?_singleton, List.findSome?_singleton, foreign?, hd, Bool.or_false]

end Term

namespace Program

theorem unsupported?_eq_some_iff {t : Term (Operand ι)} {o : Operator} :
    (ofTerm t).unsupported? = some o ↔ t.FirstForeign o := by
  rw [← Term.findSome?_foreign?_eq_some_iff, ← Term.findSome?_instructions_fold]
  rfl

theorem unsupported?_eq_none_iff {t : Term (Operand ι)} : (ofTerm t).unsupported? = none ↔ t.NoForeign := by
  rw [← Term.findSome?_foreign?_eq_none_iff, ← Term.findSome?_instructions_fold]
  rfl

/-- Every program that the compiler does not refuse at once has code. -/
theorem exists_code {p : Program ι} (h : p.unsupported? = none) : ∃ code, NativeOp.lowerAll p.ops.toList = .ok code :=
  NativeOp.lowerAll_ok (isNative_of_unsupported? h)

end Program

/-! ## Building native code -/

/-- What a compiler gives for a program whose code is known. -/
theorem Compiler.result_compile (c : Compiler) {p : Program ι} (h : p.unsupported? = none) {code : List NativeOp}
    (hcode : NativeOp.lowerAll p.ops.toList = .ok code) :
    (c.compile p).result =
      if c.codeLimit < c.target.codeSize c.optLevel code then
        .error (.tooLarge (c.target.codeSize c.optLevel code) c.codeLimit)
      else .ok (.ofProgram p .live code (c.target.codeSize c.optLevel code)) := by
  simp only [compile, h, hcode]
  split
  · rfl
  · rfl

theorem Evaluator.ofConfig_of_ne_native {config : Config} (h : config.choice ≠ .always .native)
    (target target' : Option Target) (p : Program ι) (tokens : Nat) :
    ofConfig target config p tokens = ofConfig target' config p tokens := by
  unfold ofConfig
  split
  · rfl
  · rfl
  · rfl
  · exact absurd ‹_› h

structure NativeOutcome (target : Target) (config : Config) (resolver : Option (Resolver τ ι)) (text : String)
    (lookups : τ) (p : Program ι) (t : Term (Operand ι)) : Prop where
  unsupported : ∀ o, (build (some target) config resolver text lookups).result = .error (.native (.unsupported o)) ↔
    t.FirstForeign o
  tooLarge : ∀ size limit,
    (build (some target) config resolver text lookups).result = .error (.native (.tooLarge size limit)) ↔
      t.NoForeign ∧ limit = config.codeLimit.getD target.pageSize ∧ limit < size ∧
        ∃ code, NativeOp.lowerAll p.ops.toList = .ok code ∧ size = target.codeSize config.optLevel code
  built : (∃ e, (build (some target) config resolver text lookups).result = .ok e) ↔
    t.NoForeign ∧ ∃ code, NativeOp.lowerAll p.ops.toList = .ok code ∧
      target.codeSize config.optLevel code ≤ config.codeLimit.getD target.pageSize
  backend : ∀ e, (build (some target) config resolver text lookups).result = .ok e → e.backend = .native
  canCompile : Compiler.canCompile (some target) p = true ↔
    ∀ o, (build (some target) config resolver text lookups).result ≠ .error (.native (.unsupported o))

theorem build_native_none {config : Config} (hc : config.choice = .always .native) {resolver : Option (Resolver τ ι)}
    {text : String} {lookups : τ} {p : Program ι} (h : (Program.parse resolver text lookups).result = .ok p) :
    (build none config resolver text lookups).result = .error (.native .unavailable) := by
  simp only [build_eq, h, Evaluator.ofConfig, hc, Compiler.ofConfig]

/-- The compiler's errors come in their order, and only then there is an expression. -/
theorem build_native_cases {config : Config} (hc : config.choice = .always .native) (target : Target)
    {resolver : Option (Resolver τ ι)} {text : String} {lookups : τ} {t : Term (Operand ι)}
    (h : (Program.parse resolver text lookups).result = .ok (.ofTerm t)) :
    (∃ o, t.FirstForeign o ∧
      (build (some target) config resolver text lookups).result = .error (.native (.unsupported o))) ∨
    t.NoForeign ∧ ∃ code, NativeOp.lowerAll (Program.ofTerm t).ops.toList = .ok code ∧
      (config.codeLimit.getD target.pageSize < target.codeSize config.optLevel code ∧
        (build (some target) config resolver text lookups).result = .error (.native (.tooLarge
          (target.codeSize config.optLevel code) (config.codeLimit.getD target.pageSize))) ∨
      target.codeSize config.optLevel code ≤ config.codeLimit.getD target.pageSize ∧
        ∃ e, (build (some target) config resolver text lookups).result = .ok e ∧ e.backend = .native) := by
  simp only [build_eq, h, Evaluator.ofConfig, hc, Compiler.ofConfig]
  cases hu : (Program.ofTerm t).unsupported? with
  | some o =>
    refine Or.inl ⟨o, Program.unsupported?_eq_some_iff.mp hu, ?_⟩
    rw [Compiler.compile_unsupported _ hu]
  | none =>
    obtain ⟨code, hcode⟩ := Program.exists_code hu
    refine Or.inr ⟨Program.unsupported?_eq_none_iff.mp hu, code, hcode, ?_⟩
    simp only [Compiler.result_compile _ hu hcode]
    by_cases hsize : config.codeLimit.getD target.pageSize < target.codeSize config.optLevel code
    · simp only [if_pos hsize]
      exact Or.inl ⟨hsize, trivial⟩
    · simp only [if_neg hsize]
      exact Or.inr ⟨Nat.le_of_not_lt hsize, _, rfl, rfl⟩

section Outcomes

variable {config : Config} (hc : config.choice = .always .native) (target : Target) {resolver : Option (Resolver τ ι)}
  {text : String} {lookups : τ} {t : Term (Operand ι)}
  (h : (Program.parse resolver text lookups).result = .ok (.ofTerm t))
include hc h

theorem build_unsupported_iff (o : Operator) :
    (build (some target) config resolver text lookups).result = .error (.native (.unsupported o)) ↔
      t.FirstForeign o := by
  rcases build_native_cases hc target h with ⟨o', ho, hb⟩ | ⟨hno, code, hcode, ⟨hlt, hb⟩ | ⟨hle, e, hb, -⟩⟩
  · rw [hb, ← Program.unsupported?_eq_some_iff, Program.unsupported?_eq_some_iff.mpr ho]
    simp
  · rw [hb]
    simp [hno.not_firstForeign o]
  · rw [hb]
    simp [hno.not_firstForeign o]

theorem build_tooLarge_iff (size limit : Nat) :
    (build (some target) config resolver text lookups).result = .error (.native (.tooLarge size limit)) ↔
      t.NoForeign ∧ limit = config.codeLimit.getD target.pageSize ∧ limit < size ∧
        ∃ code, NativeOp.lowerAll (Program.ofTerm t).ops.toList = .ok code ∧
          size = target.codeSize config.optLevel code := by
  rcases build_native_cases hc target h with ⟨o, ho, hb⟩ | ⟨hno, code, hcode, ⟨hlt, hb⟩ | ⟨hle, e, hb, -⟩⟩
  · rw [hb]
    constructor
    · nofun
    · rintro ⟨hno, -⟩
      exact absurd ho (hno.not_firstForeign o)
  · rw [hb]
    constructor
    · intro he
      cases he
      exact ⟨hno, rfl, hlt, code, hcode, rfl⟩
    · rintro ⟨-, rfl, -, code', hcode', rfl⟩
      rw [hcode] at hcode'
      cases hcode'
      rfl
  · rw [hb]
    constructor
    · nofun
    · rintro ⟨-, rfl, hlt, code', hcode', rfl⟩
      rw [hcode] at hcode'
      cases hcode'
      exact absurd hlt (Nat.not_lt.mpr hle)

theorem build_native_ok_iff :
    (∃ e, (build (some target) config resolver text lookups).result = .ok e) ↔
      t.NoForeign ∧ ∃ code, NativeOp.lowerAll (Program.ofTerm t).ops.toList = .ok code ∧
        target.codeSize config.optLevel code ≤ config.codeLimit.getD target.pageSize := by
  rcases build_native_cases hc target h with ⟨o, ho, hb⟩ | ⟨hno, code, hcode, ⟨hlt, hb⟩ | ⟨hle, e, hb, -⟩⟩
  · rw [hb]
    constructor
    · nofun
    · rintro ⟨hno, -⟩
      exact absurd ho (hno.not_firstForeign o)
  · rw [hb]
    constructor
    · nofun
    · rintro ⟨-, code', hcode', hle⟩
      rw [hcode] at hcode'
      cases hcode'
      exact absurd hlt (Nat.not_lt.mpr hle)
  · exact iff_of_true ⟨e, hb⟩ ⟨hno, code, hcode, hle⟩

theorem backend_of_build_native {e : Expression ι}
    (he : (build (some target) config resolver text lookups).result = .ok e) : e.backend = .native := by
  rcases build_native_cases hc target h with ⟨o, -, hb⟩ | ⟨-, code, -, ⟨-, hb⟩ | ⟨-, e', hb, hbackend⟩⟩
  all_goals
    rw [hb] at he
    cases he
  exact hbackend

theorem canCompile_iff :
    Compiler.canCompile (some target) (.ofTerm t) = true ↔
      ∀ o, (build (some target) config resolver text lookups).result ≠ .error (.native (.unsupported o)) := by
  rw [Compiler.canCompile, Option.isSome_some, Bool.true_and, Option.isNone_iff_eq_none]
  constructor
  · intro hnone o he
    rw [Program.unsupported?_eq_some_iff.mpr ((build_unsupported_iff hc target h o).mp he)] at hnone
    cases hnone
  · intro hno
    cases hu : (Program.ofTerm t).unsupported? with
    | none => rfl
    | some o =>
      exact absurd ((build_unsupported_iff hc target h o).mpr (Program.unsupported?_eq_some_iff.mp hu)) (hno o)

theorem nativeOutcome_of_parse : NativeOutcome target config resolver text lookups (.ofTerm t) t where
  unsupported := build_unsupported_iff hc target h
  tooLarge := build_tooLarge_iff hc target h
  built := build_native_ok_iff hc target h
  backend _ := backend_of_build_native hc target h
  canCompile := canCompile_iff hc target h

end Outcomes

/-- Asking for native code, the errors of the text come first, then the lack of a target, then a foreign operator of
    the text and last the size of the code; what the compiler lets through has code; and whatever else is asked for
    is built without a target as with one. -/
theorem native_outcome {config : Config} (hc : config.choice = .always .native) (resolver : Option (Resolver τ ι))
    (text : String) (lookups : τ) :
    (∀ err, (Program.parse resolver text lookups).result = .error err → ∀ target,
      (build target config resolver text lookups).result = .error err) ∧
    (∀ p, (Program.parse resolver text lookups).result = .ok p →
      (build none config resolver text lookups).result = .error (.native .unavailable) ∧
      Compiler.canCompile none p = false ∧
      ∃ t, Term.ReadFrom resolver text lookups t ∧ (∀ u, Term.ReadFrom resolver text lookups u → u = t) ∧
        ∀ target, NativeOutcome target config resolver text lookups p t) ∧
    (∀ p : Program ι, p.unsupported? = none → ∃ code, NativeOp.lowerAll p.ops.toList = .ok code) ∧
    ∀ other : Config, other.choice ≠ .always .native → ∀ target,
      build none other resolver text lookups = build (some target) other resolver text lookups := by
  refine ⟨?_, ?_, ?_, ?_⟩
  · intro err h target
    rw [build_eq, h]
  · intro p h
    obtain ⟨t, ht, rfl⟩ := Program.exists_readFrom h
    exact ⟨build_native_none hc h, rfl, t, ht, fun u hu => hu.unique ht,
      fun target => nativeOutcome_of_parse hc target h⟩
  · intro p h
    exact Program.exists_code h
  · intro other h target
    unfold build
    simp only [Evaluator.ofConfig_of_ne_native h none (some target)]

/-- The power of two constants is no obstacle, the condition over a name is the first; without a target neither
    matters. -/
theorem native_outcome_of_condition :
    (∃ err, (Program.parse (some Resolver.itself) "x +" ()).result = .error err ∧
      ∀ target, (build target .native (some Resolver.itself) "x +" ()).result = .error err) ∧
    (∃ p, (Program.parse (some Resolver.itself) "2 3 ^ x if y 2 ^ *" ()).result = .ok p ∧
      (build none .native (some Resolver.itself) "2 3 ^ x if y 2 ^ *" ()).result = .error (.native .unavailable) ∧
      ∃ t, Term.ReadFrom (some Resolver.itself) "2 3 ^ x if y 2 ^ *" () t ∧ t.FirstForeign .cond) ∧
    (∃ code, NativeOp.lowerAll [.fetch, .fetch, .apply .add] = .ok code) ∧
    build none {} (some Resolver.itself) "2 3 ^ x if y 2 ^ *" () =
      build (some .host) {} (some Resolver.itself) "2 3 ^ x if y 2 ^ *" () := by
  have hbad : (Program.parse (some Resolver.itself) "x +" ()).result.toOption.isSome = false := by decide +kernel
  have hfirst : (Program.parse (some Resolver.itself) "2 3 ^ x if y 2 ^ *" ()).result.toOption.map
      Program.unsupported? = some (some .cond) := by
    decide +kernel
  obtain ⟨-, refused, coded, other⟩ :=
    @native_outcome _ _ .native rfl (some Resolver.itself) "2 3 ^ x if y 2 ^ *" ()
  refine ⟨?_, ?_, ?_, ?_⟩
  · cases he : (Program.parse (some Resolver.itself) "x +" ()).result with
    | ok p => rw [he] at hbad; cases hbad
    | error err => exact ⟨err, rfl, (@native_outcome _ _ .native rfl _ _ ()).1 err he⟩
  · cases hp : (Program.parse (some Resolver.itself) "2 3 ^ x if y 2 ^ *" ()).result with
    | error err => rw [hp] at hfirst; cases hfirst
    | ok p =>
      rw [hp] at hfirst
      have hu : p.unsupported? = some .cond := Option.some.inj hfirst
      have hbuild : (build (some .host) .native (some Resolver.itself) "2 3 ^ x if y 2 ^ *" ()).result =
          .error (.native (.unsupported .cond)) := by
        simp only [build_eq, hp, Evaluator.ofConfig, Config.native, Compiler.ofConfig,
          Compiler.compile_unsupported _ hu]
      obtain ⟨hnone, -, t, ht, -, outcome⟩ := refused p hp
      exact ⟨p, rfl, hnone, t, ht, ((outcome .host).unsupported .cond).mp hbuild⟩
  · exact coded (.ofParts #[.fetch, .fetch, .apply .add] #[] 0) rfl
  · exact other {} (by decide) .host

/-- Without a target no program can be compiled, although no operator is refused. -/
theorem canCompile_none_of_sum :
    ∃ p, (Program.parse (none : Option (Resolver Unit String)) "1 2 +" ()).result = .ok p ∧
      ¬(Compiler.canCompile none p = true ↔
        ∀ o, (build none .native (none : Option (Resolver Unit String)) "1 2 +" ()).result ≠
          .error (.native (.unsupported o))) := by
  have hok : (Program.parse (none : Option (Resolver Unit String)) "1 2 +" ()).result.toOption.isSome = true := by
    decide +kernel
  cases hp : (Program.parse (none : Option (Resolver Unit String)) "1 2 +" ()).result with
  | error err => rw [hp] at hok; cases hok
  | ok p =>
    refine ⟨p, rfl, ?_⟩
    intro h
    have hcan : Compiler.canCompile none p = true := by
      refine h.mpr ?_
      intro o
      rw [build_native_none rfl hp]
      nofun
    cases hcan

end ReversePolish
