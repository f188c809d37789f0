/-
  ReversePolish.Proofs.Workshop — a compiler and its routines at work.

  A workshop has one compiler and the routines it has compiled, each under the number of
  its function. A region is opened where the compiler counts a function, and goes by that
  number; what it takes to free one is told by the events that compiling, releasing and
  dropping report. The deeds of a workshop are compilations of any programs, calls and
  releases of a routine, also after its release, and drops, in any order.

  A call is followed also when it fails (`Routine.callKept`), so that a call after the
  release can be seen to read nothing and to change nothing; otherwise it is the routine's
  own (`act_call_ok`, `act_call_error`). What each deed does, and that
  it does so to no other routine, is an equation for the state after it (`act_compile_cases`,
  `act_call_of_serves`, `act_release_live` and so on).
-/

import Mathlib.Logic.Function.Basic
import ReversePolish.Proofs.Native

namespace ReversePolish

variable {ι σ : Type}

/-! ## Compilations -/

/-- Only operators without a native instruction have no code. -/
theorem NativeOp.lowerAll_ok {ops : List Instruction}
    (h : ∀ i ∈ ops, i.isNative = true) : ∃ code, lowerAll ops = .ok code := by
  induction ops with
  | nil => exact ⟨[], rfl⟩
  | cons i rest ih =>
    obtain ⟨code, hc⟩ := ih fun j hj => h j (List.mem_cons_of_mem i hj)
    obtain ⟨op, ho⟩ : ∃ op, lower i = .ok op := by
      have hi := h i List.mem_cons_self
      cases i with
      | fetch => exact ⟨_, rfl⟩
      | apply o => cases o <;> first | exact ⟨_, rfl⟩ | cases hi
    exact ⟨op :: code, by rw [lowerAll, ho, hc]; rfl⟩

theorem Program.isNative_of_unsupported? {p : Program ι} (h : p.unsupported? = none) :
    ∀ i ∈ p.ops.toList, i.isNative = true := by
  intro i hi
  have hn := List.findSome?_eq_none_iff.mp h i hi
  cases i with
  | fetch => rfl
  | apply o =>
    simp only [ite_eq_left_iff, reduceCtorEq, imp_false, Bool.not_eq_true, Bool.not_eq_false] at hn
    exact hn

namespace Compiler

def counted (c : Compiler) : Compiler := { c with functions := c.functions + 1 }

theorem compile_unsupported (c : Compiler) {p : Program ι} {o : Operator} (h : p.unsupported? = some o) :
    c.compile p = { result := .error (.unsupported o), compiler := c } := by
  simp only [compile, h]

/-- A program with native operators only is one more function, whose code is freed again if it is too large. -/
theorem compile_cases (c : Compiler) {p : Program ι} (h : p.unsupported? = none) :
    (∃ size, c.compile p =
      { result := .error (.tooLarge size c.codeLimit)
        compiler := c.counted
        events := [.codeGenerated, .codeTooLarge size c.codeLimit, .regionReleased] }) ∨
    (∃ routine size, routine.region = .live ∧ c.compile p =
      { result := .ok routine
        compiler := c.counted
        events := [.codeGenerated, .codeAccepted c.functionName size p.ops.size] }) := by
  obtain ⟨code, hcode⟩ := NativeOp.lowerAll_ok (Program.isNative_of_unsupported? h)
  simp only [compile, h, hcode, counted]
  split
  · exact Or.inl ⟨_, rfl⟩
  · exact Or.inr ⟨_, _, rfl, rfl⟩

end Compiler

/-! ## Calls -/

namespace Routine

def refreshKept (read : Reader ι σ) : List (Nat × ι) → Array Float → σ → Except Fault Unit × Array Float × σ
  | [], values, outside => (.ok (), values, outside)
  | (slot, loader) :: rest, values, outside =>
    let (x, outside) := read loader outside
    if h : slot < values.size then refreshKept read rest (values.set slot x) outside
    else (.error .operandMissing, values, outside)

/-- One call, with the routine and the outside state also when it fails. -/
def callKept (read : Reader ι σ) (r : Routine ι) (outside : σ) : Except Fault Float × Routine ι × σ :=
  if r.region.isReleased then (.error .calledAfterRelease, r, outside)
  else
    match refreshKept read r.dynamic r.values outside with
    | (.error e, values, outside) => (.error e, { r with values }, outside)
    | (.ok (), values, outside) =>
      match NativeOp.run r.code values r.scratch with
      | .error e => (.error e, { r with values }, outside)
      | .ok (x, scratch) => (.ok x, { r with values, scratch }, outside)

theorem refresh_eq (read : Reader ι σ) (dynamic : List (Nat × ι)) (values : Array Float) (outside : σ) :
    refresh read dynamic values outside =
      match refreshKept read dynamic values outside with
      | (.error e, _, _) => .error e
      | (.ok (), values, outside) => .ok (values, outside) := by
  induction dynamic generalizing values outside with
  | nil => rfl
  | cons slot rest ih =>
    simp only [refresh, refreshKept]
    split
    · exact ih _ _
    · rfl

/-- A call is a call that forgets the routine when it fails. -/
theorem call_eq (read : Reader ι σ) (r : Routine ι) (outside : σ) :
    r.call read outside =
      match r.callKept read outside with
      | (.error e, _, _) => .error e
      | (.ok x, r, outside) => .ok (x, r, outside) := by
  unfold call callKept
  split
  · rfl
  · rw [refresh_eq]
    rcases refreshKept read r.dynamic r.values outside with ⟨e | ⟨⟩, values, outside⟩
    · rfl
    · simp only
      rcases NativeOp.run r.code values r.scratch with e | ⟨x, scratch⟩
      · rfl
      · rfl

theorem callKept_of_call {read : Reader ι σ} {r r' : Routine ι} {outside outside' : σ} {x : Float}
    (h : r.call read outside = .ok (x, r', outside')) : r.callKept read outside = (.ok x, r', outside') := by
  rw [call_eq] at h
  rcases hk : r.callKept read outside with ⟨e | y, r₁, outside₁⟩
  · rw [hk] at h; cases h
  · rw [hk] at h; cases h; rfl

theorem callKept_of_call_error {read : Reader ι σ} {r : Routine ι} {outside : σ} {f : Fault}
    (h : r.call read outside = .error f) : ∃ r' outside', r.callKept read outside = (.error f, r', outside') := by
  rw [call_eq] at h
  rcases hk : r.callKept read outside with ⟨e | y, r₁, outside₁⟩
  · rw [hk] at h; cases h; exact ⟨r₁, outside₁, rfl⟩
  · rw [hk] at h; cases h

theorem serves_of_callKept {read : Reader ι σ} {r r' : Routine ι} {outside outside' : σ} {result : Except Fault Float}
    {t : Term (Operand ι)} (h : r.Serves t) (hc : r.callKept read outside = (result, r', outside')) : r'.Serves t := by
  obtain ⟨r₁, hr₁, e⟩ := call_of_serves read h outside
  rw [callKept_of_call e] at hc
  cases hc
  exact hr₁

end Routine

/-! ## The workshop -/

/-- A compiler, the routines that were compiled and not yet dropped, and what was freed. -/
structure Workshop (ι σ : Type) where
  compiler : Compiler
  routines : Nat → Option (Routine ι) := fun _ => none
  events : List Event := []
  /-- The number of a region, once for each time it was freed. -/
  freed : List Nat := []
  outside : σ

namespace Workshop

inductive Deed (ι σ : Type) where
  | compile (p : Program ι)
  | call (n : Nat)
  | release (n : Nat)
  | drop (n : Nat)
  /-- The outside state changes from elsewhere. -/
  | change (f : σ → σ)

inductive Answer (ι : Type) where
  | compiled (n : Nat)
  | refused (e : NativeError)
  /-- The value of a call, and the loaders read for it. -/
  | value (x : Float) (reads : List ι)
  | fault (f : Fault) (reads : List ι)
  | done
  /-- There is no such routine. -/
  | absent

def put (w : Workshop ι σ) (n : Nat) (r : Option (Routine ι)) : Workshop ι σ :=
  { w with routines := Function.update w.routines n r }

def report (w : Workshop ι σ) (n : Nat) (events : List Event) : Workshop ι σ :=
  { w with events := w.events ++ events, freed := w.freed ++ List.replicate (events.count .regionReleased) n }

def act (read : Reader ι σ) (w : Workshop ι σ) : Deed ι σ → Answer ι × Workshop ι σ
  | .compile p =>
    let n := w.compiler.functions
    let compilation := w.compiler.compile p
    let w := { w with compiler := compilation.compiler }.report n compilation.events
    match compilation.result with
    | .error e => (.refused e, w)
    | .ok r => (.compiled n, w.put n r)
  | .call n =>
    match w.routines n with
    | none => (.absent, w)
    | some r =>
      match r.callKept read.logged (w.outside, []) with
      | (.error f, r, outside, reads) => (.fault f reads, { w with outside }.put n r)
      | (.ok x, r, outside, reads) => (.value x reads, { w with outside }.put n r)
  | .release n =>
    match w.routines n with
    | none => (.absent, w)
    | some r =>
      match r.release with
      | .error f => (.fault f [], w)
      | .ok (r, events) => (.done, (w.put n r).report n events)
  | .drop n =>
    match w.routines n with
    | none => (.absent, w)
    | some r => (.done, (w.put n none).report n r.drop)
  | .change f => (.done, { w with outside := f w.outside })

def run (read : Reader ι σ) : List (Deed ι σ) → Workshop ι σ → List (Deed ι σ × Answer ι) × Workshop ι σ
  | [], w => ([], w)
  | deed :: rest, w =>
    let (answer, w) := w.act read deed
    let (log, w) := run read rest w
    ((deed, answer) :: log, w)

/-- The routine is there and was not released. -/
def held (w : Workshop ι σ) (n : Nat) : Bool := (w.routines n).any fun r => !r.region.isReleased

@[simp] theorem put_routines (w : Workshop ι σ) (n : Nat) (r : Option (Routine ι)) :
    (w.put n r).routines = Function.update w.routines n r := rfl

@[simp] theorem report_routines (w : Workshop ι σ) (n : Nat) (events : List Event) :
    (w.report n events).routines = w.routines := rfl

@[simp] theorem report_compiler (w : Workshop ι σ) (n : Nat) (events : List Event) :
    (w.report n events).compiler = w.compiler := rfl

@[simp] theorem put_compiler (w : Workshop ι σ) (n : Nat) (r : Option (Routine ι)) :
    (w.put n r).compiler = w.compiler := rfl

@[simp] theorem report_nil (w : Workshop ι σ) (n : Nat) : w.report n [] = w := by
  simp [report]

theorem put_self {w : Workshop ι σ} {n : Nat} {r : Option (Routine ι)} (h : w.routines n = r) : w.put n r = w := by
  subst h
  simp only [put, Function.update_eq_self]

/-! ### One deed -/

section

variable (read : Reader ι σ) {w : Workshop ι σ} {n : Nat} {r : Routine ι}

theorem act_compile_unsupported (w : Workshop ι σ) {p : Program ι} {o : Operator} (h : p.unsupported? = some o) :
    w.act read (.compile p) = (.refused (.unsupported o), w) := by
  simp only [act, Compiler.compile_unsupported w.compiler h, report_nil]

theorem act_compile_cases (w : Workshop ι σ) {p : Program ι} (h : p.unsupported? = none) :
    (∃ size, w.act read (.compile p) =
      (.refused (.tooLarge size w.compiler.codeLimit),
        { w with compiler := w.compiler.counted }.report w.compiler.functions
          [.codeGenerated, .codeTooLarge size w.compiler.codeLimit, .regionReleased])) ∨
    (∃ r size, r.region = .live ∧ (w.compiler.compile p).result = .ok r ∧ w.act read (.compile p) =
      (.compiled w.compiler.functions,
        ({ w with compiler := w.compiler.counted }.put w.compiler.functions r).report w.compiler.functions
          [.codeGenerated, .codeAccepted w.compiler.functionName size p.ops.size])) := by
  rcases Compiler.compile_cases w.compiler h with ⟨size, hc⟩ | ⟨r, size, hr, hc⟩
  · exact Or.inl ⟨size, by simp only [act, hc]⟩
  · exact Or.inr ⟨r, size, hr, by rw [hc], by simp only [act, hc]; rfl⟩

theorem act_call_released (hw : w.routines n = some r) (hr : r.region = .released) :
    w.act read (.call n) = (.fault .calledAfterRelease [], w) := by
  simp only [act, hw, Routine.callKept, hr, Region.isReleased, if_true]
  rw [put_self hw]

/-- A call that succeeds is the routine's own. -/
theorem act_call_ok (hw : w.routines n = some r) {x : Float} {r' : Routine ι} {outside : σ} {reads : List ι}
    (hc : r.call read.logged (w.outside, []) = .ok (x, r', outside, reads)) :
    w.act read (.call n) = (.value x reads, { w with outside }.put n (some r')) := by
  simp only [act, hw, Routine.callKept_of_call hc]

/-- And so is one that fails. -/
theorem act_call_error (hw : w.routines n = some r) {f : Fault}
    (hc : r.call read.logged (w.outside, []) = .error f) :
    ∃ reads, (w.act read (.call n)).1 = .fault f reads := by
  obtain ⟨r', outside, hk⟩ := Routine.callKept_of_call_error hc
  exact ⟨outside.2, by simp only [act, hw, hk]⟩

theorem act_call_of_serves (hw : w.routines n = some r) {t : Term (Operand ι)} (hr : r.Serves t) :
    ∃ r' : Routine ι, (∀ u, r.Serves u → r'.Serves u) ∧ w.act read (.call n) =
      (.value (t.eval read w.outside).1 t.loaders,
        { w with outside := (t.eval read w.outside).2 }.put n (some r')) := by
  obtain ⟨r', -, hc⟩ := Routine.call_of_serves read.logged hr (w.outside, [])
  rw [Term.eval_logged, List.nil_append] at hc
  exact ⟨r', fun u hu => Routine.serves_of_callKept hu (Routine.callKept_of_call hc), act_call_ok read hw hc⟩

theorem act_release_released (hw : w.routines n = some r) (hr : r.region = .released) :
    w.act read (.release n) = (.fault .releasedTwice [], w) := by
  simp only [act, hw, Routine.release, hr, Region.release]

theorem act_release_live (hw : w.routines n = some r) (hr : r.region = .live) :
    w.act read (.release n) =
      (.done, (w.put n (some { r with region := .released })).report n [.regionReleased]) := by
  simp only [act, hw, Routine.release, hr, Region.release]

theorem act_drop_released (hw : w.routines n = some r) (hr : r.region = .released) :
    w.act read (.drop n) = (.done, w.put n none) := by
  simp only [act, hw, Routine.drop, hr, Region.drop, report_nil]

theorem act_drop_live (hw : w.routines n = some r) (hr : r.region = .live) :
    w.act read (.drop n) = (.done, (w.put n none).report n [.regionReleased]) := by
  simp only [act, hw, Routine.drop, hr, Region.drop]

end

@[simp] theorem held_put (w : Workshop ι σ) (n : Nat) (r : Option (Routine ι)) :
    (w.put n r).held n = r.any fun r => !r.region.isReleased := by
  simp [held]

theorem held_of_live {w : Workshop ι σ} {n : Nat} {r : Routine ι} (hw : w.routines n = some r)
    (hr : r.region = .live) : w.held n = true := by
  simp [held, hw, hr, Region.isReleased]

theorem held_of_released {w : Workshop ι σ} {n : Nat} {r : Routine ι} (hw : w.routines n = some r)
    (hr : r.region = .released) : w.held n = false := by
  simp [held, hw, hr, Region.isReleased]

end Workshop

end ReversePolish
