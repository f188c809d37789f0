/-
  ReversePolish.Proofs.Bounds — a run stays within its stack and its operands.

  What a run touches is written down as a list of accesses (`trace`): an operand that is
  loaded, a place of the stack that is read or written. The list is complete: frames that
  agree on the places read go on alike and agree on the places written as well
  (`step_agree`).

  A program that is made, whatever its interpreter was used for before, runs without a
  fault to one value. No place is beyond the program's depth, and the operands are loaded
  once each and in order. Every place read was written earlier in the same run, so what
  earlier runs left makes no difference (`steps_agree`). The depth is reached at some point
  of the run, and the tokens themselves, before folding, build a stack at least as high
  (`run_bounded`). The tree of such a program is made without a fault as well.
-/

import ReversePolish.Proofs.Arena
import ReversePolish.Proofs.Depth
import ReversePolish.Proofs.Machine

namespace ReversePolish

variable {τ ι σ : Type}

/-! ## Stacks -/

namespace Stack

theorem push_eq_ok {s s' : Stack} {x : Float} (h : s.push x = .ok s') :
    ∃ hs : s.height < s.places.size, s' = { places := s.places.set s.height x, height := s.height + 1 } := by
  unfold push at h
  split at h
  · rename_i hs
    cases h
    exact ⟨hs, rfl⟩
  · cases h

theorem combine_eq_ok {s s' : Stack} {f : Float → Float → Float} (h : s.combine f = .ok s') :
    ∃ (_ : 2 ≤ s.height) (_ : s.height - 2 < s.places.size) (_ : s.height - 1 < s.places.size),
      s' = { places := s.places.set (s.height - 2) (f s.places[s.height - 2] s.places[s.height - 1])
             height := s.height - 1 } := by
  unfold combine at h
  split at h
  · rename_i hs
    cases h
    exact ⟨hs.1, by omega, by omega, rfl⟩
  · cases h

/-- The topmost value, with those below it. -/
theorem values_succ {places : Array Float} {n : Nat} (h : n < places.size) :
    ({ places, height := n + 1 } : Stack).values = places[n] :: ({ places, height := n } : Stack).values := by
  simp only [values]
  rw [List.take_add_one, List.reverse_append, Array.getElem?_toList, Array.getElem?_eq_getElem h]
  rfl

theorem values_of_combine {s s' : Stack} {f : Float → Float → Float} (h : s.combine f = .ok s') :
    ∃ x y rest, s.values = y :: x :: rest ∧ s'.values = f x y :: rest := by
  obtain ⟨hle, hlhs, hrhs, rfl⟩ := combine_eq_ok h
  obtain ⟨places, height⟩ := s
  obtain ⟨n, rfl⟩ := Nat.exists_eq_add_of_le' hle
  simp only at hrhs
  refine ⟨places[n], places[n + 1], ({ places, height := n } : Stack).values, ?_, ?_⟩
  · rw [values_succ (by omega), values_succ (by omega)]
  · simp only [Nat.add_sub_cancel, Nat.reduceSubDiff]
    rw [values_succ (by simp only [Array.size_set]; omega), Array.getElem_set_self]
    simp [values, List.take_set_of_le]

theorem values_of_top {s : Stack} {x : Float} (h : s.top = .ok x) (hs : s.height = 1) : s.values = [x] := by
  unfold top at h
  split at h
  · rename_i ht
    cases h
    obtain ⟨places, height⟩ := s
    obtain rfl : height = 1 := hs
    rw [values_succ ht.2]
    simp [values]
  · cases h

end Stack

namespace Interpreter

/-! ## What a run touches -/

inductive Access where
  | load (operand : Nat)
  | read (place : Nat)
  | write (place : Nat)
  deriving DecidableEq

namespace Access

def load? : Access → Option Nat
  | load operand => some operand
  | _ => none

def place? : Access → Option Nat
  | load _ => none
  | read place | write place => some place

end Access

def accesses (f : Frame σ) : Instruction → List Access
  | .fetch => [.load f.fetched, .write f.stack.height]
  | .apply _ => [.read (f.stack.height - 1), .read (f.stack.height - 2), .write (f.stack.height - 2)]

/-- What instructions touch, up to a fault; at the end the topmost place is read. -/
def trace (read : Reader ι σ) (operands : Array (Operand ι)) : List Instruction → Frame σ → List Access
  | [], f => [.read (f.stack.height - 1)]
  | i :: rest, f =>
    accesses f i ++
      match step read operands f i with
      | .ok f => trace read operands rest f
      | .error _ => []

variable {read : Reader ι σ} {operands : Array (Operand ι)}

theorem step_fetch_ok {f f' : Frame σ} (h : step read operands f .fetch = .ok f') :
    ∃ operand, operands[f.fetched]? = some operand ∧ ∃ hs : f.stack.height < f.stack.places.size,
      f' =
        { stack :=
            { places := f.stack.places.set f.stack.height (operand.source.load read f.outside).1
              height := f.stack.height + 1 }
          fetched := f.fetched + 1
          outside := (operand.source.load read f.outside).2 } := by
  unfold step at h
  cases ho : operands[f.fetched]? with
  | none => rw [ho] at h; cases h
  | some operand =>
    simp only [ho] at h
    cases hp : f.stack.push (operand.source.load read f.outside).1 with
    | error e => rw [hp] at h; cases h
    | ok stack =>
      rw [hp] at h
      cases h
      obtain ⟨hs, rfl⟩ := Stack.push_eq_ok hp
      exact ⟨operand, rfl, hs, rfl⟩

theorem step_apply_ok {f f' : Frame σ} {o : Operator} (h : step read operands f (.apply o) = .ok f') :
    ∃ (_ : 2 ≤ f.stack.height) (_ : f.stack.height - 2 < f.stack.places.size)
      (_ : f.stack.height - 1 < f.stack.places.size),
      f' =
        { f with
          stack :=
            { places := f.stack.places.set (f.stack.height - 2)
                (o.apply f.stack.places[f.stack.height - 2] f.stack.places[f.stack.height - 1])
              height := f.stack.height - 1 } } := by
  simp only [step] at h
  cases hc : f.stack.combine o.apply with
  | error e => rw [hc] at h; cases h
  | ok stack =>
    rw [hc] at h
    cases h
    obtain ⟨hle, hlhs, hrhs, rfl⟩ := Stack.combine_eq_ok hc
    exact ⟨hle, hlhs, hrhs, rfl⟩

theorem step_fetch {f : Frame σ} {operand : Operand ι} (ho : operands[f.fetched]? = some operand)
    (hs : f.stack.height < f.stack.places.size) :
    step read operands f .fetch =
      .ok
        { stack :=
            { places := f.stack.places.set f.stack.height (operand.source.load read f.outside).1
              height := f.stack.height + 1 }
          fetched := f.fetched + 1
          outside := (operand.source.load read f.outside).2 } := by
  simp only [step, ho, Stack.push, dif_pos hs]
  rfl

theorem step_apply {f : Frame σ} {o : Operator} (hs : 2 ≤ f.stack.height ∧ f.stack.height ≤ f.stack.places.size) :
    step read operands f (.apply o) =
      .ok
        { f with
          stack :=
            { places := f.stack.places.set (f.stack.height - 2)
                (o.apply f.stack.places[f.stack.height - 2] f.stack.places[f.stack.height - 1])
              height := f.stack.height - 1 } } := by
  simp only [step, Stack.combine, dif_pos hs]
  rfl

/-- An operator replaces the two topmost values. -/
theorem values_of_step {f f' : Frame σ} {o : Operator} (h : step read operands f (.apply o) = .ok f') :
    ∃ x y rest, f.stack.values = y :: x :: rest ∧ f'.stack.values = o.apply x y :: rest := by
  simp only [step] at h
  cases hc : f.stack.combine o.apply with
  | error e => rw [hc] at h; cases h
  | ok stack =>
    rw [hc] at h
    cases h
    exact Stack.values_of_combine hc

theorem steps_cons_ok {i : Instruction} {rest : List Instruction} {f f' : Frame σ}
    (h : steps read operands (i :: rest) f = .ok f') :
    ∃ g, step read operands f i = .ok g ∧ steps read operands rest g = .ok f' := by
  rw [steps] at h
  cases hg : step read operands f i with
  | error e => rw [hg] at h; cases h
  | ok g =>
    rw [hg] at h
    exact ⟨g, rfl, h⟩

theorem steps_append_ok {before after : List Instruction} {f f' : Frame σ}
    (h : steps read operands (before ++ after) f = .ok f') :
    ∃ g, steps read operands before f = .ok g ∧ steps read operands after g = .ok f' := by
  induction before generalizing f with
  | nil => exact ⟨f, rfl, h⟩
  | cons i rest ih =>
    obtain ⟨g, hg, hr⟩ := steps_cons_ok h
    obtain ⟨g', hg', h'⟩ := ih hr
    exact ⟨g', by rw [steps, hg]; exact hg', h'⟩

/-- The height of the stack is the depth of the instructions carried out. -/
theorem depthAfter?_of_steps {ops : List Instruction} {f f' : Frame σ} (h : steps read operands ops f = .ok f') :
    Program.depthAfter? ops f.stack.height = some f'.stack.height := by
  induction ops generalizing f with
  | nil =>
    cases h
    rfl
  | cons i rest ih =>
    obtain ⟨g, hg, hr⟩ := steps_cons_ok h
    cases i with
    | fetch =>
      obtain ⟨operand, -, hs, rfl⟩ := step_fetch_ok hg
      exact ih hr
    | apply o =>
      obtain ⟨hle, hlhs, hrhs, rfl⟩ := step_apply_ok hg
      rw [Program.depthAfter?, if_pos hle]
      exact ih hr

/-- The operands are loaded one after another, each once. -/
theorem loads_of_steps {ops : List Instruction} {f f' : Frame σ} (h : steps read operands ops f = .ok f') :
    (trace read operands ops f).filterMap Access.load? = List.range' f.fetched (ops.count .fetch) := by
  induction ops generalizing f with
  | nil => rfl
  | cons i rest ih =>
    obtain ⟨g, hg, hr⟩ := steps_cons_ok h
    rw [trace, hg, List.filterMap_append, ih hr]
    cases i with
    | fetch =>
      obtain ⟨operand, -, hs, rfl⟩ := step_fetch_ok hg
      rw [List.count_cons_self, List.range'_succ]
      rfl
    | apply o =>
      obtain ⟨hle, hlhs, hrhs, rfl⟩ := step_apply_ok hg
      rfl

theorem places_of_step {i : Instruction} {f g : Frame σ} (h : step read operands f i = .ok g) :
    g.stack.places.size = f.stack.places.size ∧ g.stack.height ≤ g.stack.places.size ∧
      ∀ a ∈ accesses f i, ∀ place, a.place? = some place → place < f.stack.places.size := by
  cases i with
  | fetch =>
    obtain ⟨operand, -, hs, rfl⟩ := step_fetch_ok h
    refine ⟨Array.size_set hs, ?_, ?_⟩
    · simp only [Array.size_set]
      omega
    · simpa [accesses, Access.place?] using hs
  | apply o =>
    obtain ⟨hle, hlhs, hrhs, rfl⟩ := step_apply_ok h
    refine ⟨by simp only [Array.size_set], ?_, ?_⟩
    · simp only [Array.size_set]
      omega
    · simp only [accesses, List.forall_mem_cons, Access.place?, Option.some.injEq, forall_eq']
      exact ⟨by omega, by omega, by omega, by simp⟩

/-- No place beyond the last is touched. -/
theorem place_lt_of_steps {ops : List Instruction} {f f' : Frame σ} (h : steps read operands ops f = .ok f')
    (hf : f.stack.height ≤ f.stack.places.size) (hf' : 0 < f'.stack.height) :
    ∀ a ∈ trace read operands ops f, ∀ place, a.place? = some place → place < f.stack.places.size := by
  induction ops generalizing f with
  | nil =>
    cases h
    simp only [trace, List.forall_mem_singleton, Access.place?, Option.some.injEq, forall_eq']
    omega
  | cons i rest ih =>
    obtain ⟨g, hg, hr⟩ := steps_cons_ok h
    obtain ⟨hsize, hle, hacc⟩ := places_of_step hg
    rw [trace, hg]
    have hrest := ih hr hle
    rw [hsize] at hrest
    exact List.forall_mem_append.mpr ⟨hacc, hrest⟩

/-- A run of instructions neither adds places nor goes beyond the last. -/
theorem places_of_steps {ops : List Instruction} {f f' : Frame σ} (h : steps read operands ops f = .ok f')
    (hf : f.stack.height ≤ f.stack.places.size) :
    f'.stack.places.size = f.stack.places.size ∧ f'.stack.height ≤ f'.stack.places.size := by
  induction ops generalizing f with
  | nil =>
    cases h
    exact ⟨rfl, hf⟩
  | cons i rest ih =>
    obtain ⟨g, hg, hr⟩ := steps_cons_ok h
    obtain ⟨hsize, hle, -⟩ := places_of_step hg
    obtain ⟨hsize', hle'⟩ := ih hr hle
    exact ⟨hsize'.trans hsize, hle'⟩

/-! ## What is read was written -/

/-- Every place that is read was written before, or was already among some places. -/
def WrittenFirst : (Nat → Prop) → List Access → Prop
  | _, [] => True
  | written, .load _ :: rest => WrittenFirst written rest
  | written, .read place :: rest => written place ∧ WrittenFirst written rest
  | written, .write place :: rest => WrittenFirst (fun q => q = place ∨ written q) rest

theorem WrittenFirst.write_mem {written : Nat → Prop} {before after : List Access} {place : Nat}
    (h : WrittenFirst written (before ++ .read place :: after)) : written place ∨ .write place ∈ before := by
  induction before generalizing written with
  | nil => exact Or.inl h.1
  | cons a rest ih =>
    cases a with
    | load operand => exact (ih h).imp_right (List.mem_cons_of_mem _)
    | read q => exact (ih h.2).imp_right (List.mem_cons_of_mem _)
    | write q =>
      rcases ih h with (rfl | hw) | hm
      · exact Or.inr List.mem_cons_self
      · exact Or.inl hw
      · exact Or.inr (List.mem_cons_of_mem _ hm)

/-- The places below the height are enough to go on with. -/
theorem writtenFirst_of_steps {ops : List Instruction} {f f' : Frame σ} (h : steps read operands ops f = .ok f')
    (hf' : 0 < f'.stack.height) {written : Nat → Prop} (hw : ∀ place < f.stack.height, written place) :
    WrittenFirst written (trace read operands ops f) := by
  induction ops generalizing f written with
  | nil =>
    cases h
    exact ⟨hw _ (by omega), trivial⟩
  | cons i rest ih =>
    obtain ⟨g, hg, hr⟩ := steps_cons_ok h
    rw [trace, hg]
    cases i with
    | fetch =>
      obtain ⟨operand, -, hs, rfl⟩ := step_fetch_ok hg
      refine ih hr ?_
      intro place hp
      by_cases he : place = f.stack.height
      · exact Or.inl he
      · exact Or.inr (hw place (by simp only at hp; omega))
    | apply o =>
      obtain ⟨hle, hlhs, hrhs, rfl⟩ := step_apply_ok hg
      refine ⟨hw _ (by omega), hw _ (by omega), ih hr ?_⟩
      intro place hp
      exact Or.inr (hw place (by simp only at hp; omega))

/-- Two frames at the same point that agree on some places. -/
structure Agree (written : Nat → Prop) (f g : Frame σ) : Prop where
  height : g.stack.height = f.stack.height
  size : g.stack.places.size = f.stack.places.size
  fetched : g.fetched = f.fetched
  outside : g.outside = f.outside
  places : ∀ place, written place → g.stack.places[place]? = f.stack.places[place]?

/-- What an instruction reads is enough for it, and it changes nothing but what it writes. -/
theorem step_agree {written : Nat → Prop} {i : Instruction} {f g f' : Frame σ} (h : Agree written f g)
    (hw : ∀ place, .read place ∈ accesses f i → written place) (hf : step read operands f i = .ok f') :
    ∃ g', step read operands g i = .ok g' ∧ Agree (fun q => .write q ∈ accesses f i ∨ written q) f' g' := by
  cases i with
  | fetch =>
    obtain ⟨operand, ho, hs, rfl⟩ := step_fetch_ok hf
    rw [← h.fetched] at ho
    rw [← h.height, ← h.size] at hs
    refine ⟨_, step_fetch ho hs, ⟨?_, ?_, ?_, ?_, ?_⟩⟩
    · simp only [h.height]
    · simp only [Array.size_set, h.size]
    · simp only [h.fetched]
    · simp only [h.outside]
    · intro place hp
      simp only [Array.getElem?_set, h.height, h.outside]
      split
      · rfl
      · rename_i hne
        rcases hp with hp | hp
        · simp only [accesses, List.mem_cons, reduceCtorEq, Access.write.injEq, List.not_mem_nil, or_false,
            false_or] at hp
          exact absurd hp.symm hne
        · exact h.places place hp
  | apply o =>
    obtain ⟨hle, hlhs, hrhs, rfl⟩ := step_apply_ok hf
    have hg : 2 ≤ g.stack.height ∧ g.stack.height ≤ g.stack.places.size := by
      rw [h.height, h.size]
      omega
    have same (place : Nat) (hm : .read place ∈ accesses f (.apply o)) (hp : place < f.stack.places.size) :
        ∃ _ : place < g.stack.places.size, g.stack.places[place] = f.stack.places[place] :=
      Array.getElem?_eq_some_iff.mp (by rw [h.places place (hw place hm), Array.getElem?_eq_getElem hp])
    obtain ⟨_, hl⟩ := same (f.stack.height - 2) (by simp [accesses]) hlhs
    obtain ⟨_, hr⟩ := same (f.stack.height - 1) (by simp [accesses]) hrhs
    refine ⟨_, step_apply hg, ⟨?_, ?_, h.fetched, h.outside, ?_⟩⟩
    · simp only [h.height]
    · simp only [Array.size_set, h.size]
    · intro place hp
      simp only [Array.getElem?_set, h.height, hl, hr]
      split
      · rfl
      · rename_i hne
        rcases hp with hp | hp
        · simp only [accesses, List.mem_cons, reduceCtorEq, Access.write.injEq, List.not_mem_nil, or_false,
            false_or] at hp
          exact absurd hp.symm hne
        · exact h.places place hp

/-- The accesses of one instruction come before those of the others. -/
theorem WrittenFirst.of_append {written : Nat → Prop} {f : Frame σ} {i : Instruction} {later : List Access}
    (h : WrittenFirst written (accesses f i ++ later)) :
    (∀ place, .read place ∈ accesses f i → written place) ∧
      WrittenFirst (fun q => .write q ∈ accesses f i ∨ written q) later := by
  cases i with
  | fetch =>
    refine ⟨by simp [accesses], ?_⟩
    simpa [accesses, WrittenFirst] using h
  | apply o =>
    obtain ⟨hrhs, hlhs, hlater⟩ := h
    refine ⟨?_, by simpa [accesses, WrittenFirst] using hlater⟩
    intro place hp
    simp only [accesses, List.mem_cons, Access.read.injEq, reduceCtorEq, List.not_mem_nil, or_false] at hp
    rcases hp with rfl | rfl
    · exact hrhs
    · exact hlhs

/-- Frames that agree on what is read before it is written go on to one value. -/
theorem steps_agree {ops : List Instruction} {written : Nat → Prop} {f g f' : Frame σ} {x : Float}
    (h : Agree written f g) (hw : WrittenFirst written (trace read operands ops f))
    (hf : steps read operands ops f = .ok f') (hx : f'.stack.top = .ok x) :
    ∃ g', steps read operands ops g = .ok g' ∧ g'.stack.top = .ok x ∧ g'.outside = f'.outside := by
  induction ops generalizing written f g with
  | nil =>
    cases hf
    refine ⟨g, rfl, ?_, h.outside⟩
    have hp := h.places _ hw.1
    rw [← hx]
    simp only [Stack.top, h.height, h.size]
    split
    · rename_i hs
      rw [Array.getElem?_eq_getElem (by rw [h.size]; omega), Array.getElem?_eq_getElem (by omega)] at hp
      exact congrArg Except.ok (Option.some.inj hp)
    · rfl
  | cons i rest ih =>
    obtain ⟨f₁, hf₁, hr⟩ := steps_cons_ok hf
    rw [trace, hf₁] at hw
    obtain ⟨hreads, hlater⟩ := WrittenFirst.of_append hw
    obtain ⟨g₁, hg₁, h₁⟩ := step_agree h hreads hf₁
    obtain ⟨g', hg', hx', ho'⟩ := ih h₁ hlater hr
    exact ⟨g', by rw [steps, hg₁]; exact hg', hx', ho'⟩

/-! ## Whole runs -/

def start (m : Interpreter ι) (outside : σ) : Frame σ := { stack := m.stack.clear, outside }

theorem run_eq (read : Reader ι σ) (m : Interpreter ι) (outside : σ) :
    m.run read outside =
      match steps read m.program.operands m.program.ops.toList (m.start outside) with
      | .error e => .error e
      | .ok f => f.stack.top.map fun x => (x, { m with stack := f.stack }, f.outside) := rfl

theorem run_eq_ok {m m' : Interpreter ι} {outside outside' : σ} {x : Float}
    (h : m.run read outside = .ok (x, m', outside')) :
    ∃ f, steps read m.program.operands m.program.ops.toList (m.start outside) = .ok f ∧ f.stack.top = .ok x ∧
      m' = { m with stack := f.stack } ∧ outside' = f.outside := by
  rw [run_eq] at h
  split at h
  · cases h
  · rename_i f hf
    cases ht : f.stack.top with
    | error e => rw [ht] at h; cases h
    | ok y =>
      rw [ht] at h
      cases h
      exact ⟨f, hf, ht, rfl, rfl⟩

/-- An interpreter of a program, fresh or after any number of runs with any loaders. -/
inductive Used (p : Program ι) : Interpreter ι → Prop
  | fresh : Used p (ofProgram p)
  | again {m m' : Interpreter ι} {σ : Type} {read : Reader ι σ} {outside outside' : σ} {x : Float} :
      Used p m → m.run read outside = .ok (x, m', outside') → Used p m'

theorem serves_of_used {p : Program ι} {m : Interpreter ι} (h : Used p m) : m.Serves p := by
  induction h with
  | fresh => exact serves_ofProgram p
  | again _ hr ih =>
    obtain ⟨f, hf, -, rfl, -⟩ := run_eq_ok hr
    exact ⟨ih.program, (places_of_steps hf (Nat.zero_le _)).1.trans ih.places⟩

structure Bounded (read : Reader ι σ) (p : Program ι) (m : Interpreter ι) (outside : σ) : Prop where
  /-- The run ends with one value, which is its result. -/
  ends : ∃ f x, steps read p.operands p.ops.toList (m.start outside) = .ok f ∧ f.stack.values = [x] ∧
    m.run read outside = .ok (x, { m with stack := f.stack }, f.outside)
  /-- An instruction that is no fetch finds two values, is applied to them and replaces them. -/
  operators : ∀ before i after, p.ops.toList = before ++ i :: after → i ≠ .fetch →
    ∃ f g x y z rest, steps read p.operands before (m.start outside) = .ok f ∧ step read p.operands f i = .ok g ∧
      f.stack.values = y :: x :: rest ∧ i.combine x y = .ok z ∧ g.stack.values = z :: rest
  places : ∀ a ∈ trace read p.operands p.ops.toList (m.start outside), ∀ place, a.place? = some place →
    place < p.maxDepth
  /-- Every operand is loaded once, in order. -/
  loads : (trace read p.operands p.ops.toList (m.start outside)).filterMap Access.load? = List.range p.operands.size
  /-- The loaders that are read are those of the operands, in order. -/
  reads : (m.run read.logged (outside, [])).map (fun r => r.2.2.2) =
    .ok (p.operands.toList.filterMap fun operand => operand.source.loader?)
  /-- A place that is read was written before, in the same run. -/
  written : ∀ before place after,
    trace read p.operands p.ops.toList (m.start outside) = before ++ .read place :: after → .write place ∈ before
  /-- The stack is never higher than the depth, -/
  highest : ∀ before after, p.ops.toList = before ++ after →
    ∃ f, steps read p.operands before (m.start outside) = .ok f ∧ f.stack.height ≤ p.maxDepth
  /-- and is so high at some point. -/
  reached : ∃ before after f, p.ops.toList = before ++ after ∧
    steps read p.operands before (m.start outside) = .ok f ∧ f.stack.height = p.maxDepth
  /-- What the places hold at the start makes no difference. -/
  independent : ∀ m' : Interpreter ι, m'.Serves p →
    (m'.run read outside).map (fun r => (r.1, r.2.2)) = (m.run read outside).map fun r => (r.1, r.2.2)

theorem bounded_of_serves (read : Reader ι σ) {t : Term (Operand ι)} {m : Interpreter ι} (h : m.Serves (.ofTerm t))
    (outside : σ) : m.Bounded read (.ofTerm t) outside := by
  obtain ⟨m₁, -, hrun⟩ := run_ofTerm read h outside
  obtain ⟨f, hf, hx, rfl, ho⟩ := run_eq_ok hrun
  rw [h.program] at hf
  have hops : (Program.ofTerm t).ops.toList = t.fold.instructions := rfl
  have hplaces : (m.start outside).stack.places.size = (Program.ofTerm t).maxDepth := h.places
  have hone : f.stack.height = 1 := by
    have hd := depthAfter?_of_steps hf
    rw [hops, Term.depthAfter?_instructions] at hd
    exact (Option.some.inj hd).symm
  have hwritten : WrittenFirst (fun _ => False) (trace read _ _ (m.start outside)) :=
    writtenFirst_of_steps hf (by omega) (by simp [start, Stack.clear])
  -- Every point of the run lies between instructions that succeed and instructions that succeed.
  have reach {before after : List Instruction} (happ : (Program.ofTerm t).ops.toList = before ++ after) :
      ∃ g, steps read (Program.ofTerm t).operands before (m.start outside) = .ok g ∧
        steps read (Program.ofTerm t).operands after g = .ok f := by
    rw [happ] at hf
    exact steps_append_ok hf
  refine ⟨?_, ?_, ?_, ?_, ?_, ?_, ?_, ?_, ?_⟩
  · exact ⟨f, _, hf, Stack.values_of_top hx hone, by rw [hrun, ho]⟩
  · intro before i after happ hi
    obtain ⟨g, hg, hrest⟩ := reach happ
    obtain ⟨g', hg', -⟩ := steps_cons_ok hrest
    cases i with
    | fetch => exact absurd rfl hi
    | apply o =>
      obtain ⟨x, y, rest, hv, hv'⟩ := values_of_step hg'
      exact ⟨g, g', x, y, _, rest, hg, hg', hv, rfl, hv'⟩
  · intro a ha place hp
    rw [← hplaces]
    exact place_lt_of_steps hf (Nat.zero_le _) (by omega) a ha place hp
  · rw [loads_of_steps hf, List.range_eq_range', hops, Term.count_fetch_instructions]
    simp [start, Program.ofTerm, Program.ofParts]
  · obtain ⟨m₂, -, hlogged⟩ := run_ofTerm read.logged h (outside, [])
    rw [← Term.eval_fold, Term.eval_logged] at hlogged
    rw [hlogged]
    simp [Except.map, Term.loaders, Program.ofTerm, Program.ofParts]
  · intro before place after htrace
    rw [htrace] at hwritten
    exact hwritten.write_mem.resolve_left id
  · intro before after happ
    obtain ⟨g, hg, -⟩ := reach happ
    obtain ⟨hsize, hle⟩ := places_of_steps hg (Nat.zero_le _)
    exact ⟨g, hg, by rwa [← hplaces, ← hsize]⟩
  · obtain ⟨before, after, happ, hd⟩ := t.fold.exists_depth_eq_need 0
    obtain ⟨g, hg, -⟩ := reach happ
    have hd' := depthAfter?_of_steps hg
    refine ⟨before, after, g, happ, hg, ?_⟩
    rw [Program.maxDepth_ofTerm]
    simp only [start, Stack.clear, hd, Option.some.injEq] at hd'
    omega
  · intro m' hm'
    have agree : Agree (fun _ => False) (m.start outside) (m'.start outside) :=
      ⟨rfl, hm'.places.trans h.places.symm, rfl, rfl, fun _ hp => hp.elim⟩
    obtain ⟨g, hg, hgx, hgo⟩ := steps_agree agree hwritten hf hx
    rw [hrun, run_eq, hm'.program, hg]
    simp only [hgx, Except.map, hgo, ho]

end Interpreter

/-- Every run of a program that is made stays within bounds, however often its interpreter was used. The
    depth of the program is counted without ever going below zero, the tokens reach it before they are
    folded, and its call tree is made. -/
theorem run_bounded {resolver : Option (Resolver τ ι)} {lookups : τ} {taken : List String} {p : Program ι}
    (h : Program.Made resolver lookups taken p) :
    (∀ m, Interpreter.Used p m → ∀ (σ : Type) (read : Reader ι σ) (outside : σ), m.Bounded read p outside) ∧
      (∀ before o after, p.ops.toList = before ++ .apply o :: after →
        0 < (before.foldl Program.depthStep (0, 0)).1) ∧
      (∃ k, (p.maxDepth : Int) ≤ height (taken.take k)) ∧
      ∃ tree, CallTree.ofProgram p = .ok tree := by
  obtain ⟨t, rfl, rfl, hv⟩ := Program.exists_term_of_made h
  refine ⟨?_, ?_, ?_, _, CallTree.ofProgram_ofTerm t⟩
  · intro m hm σ read outside
    exact Interpreter.bounded_of_serves read (Interpreter.serves_of_used hm) outside
  · intro before o after happ
    have hd := t.fold.depthAfter?_instructions 0
    rw [show t.fold.instructions = before ++ .apply o :: after from happ] at hd
    exact Program.foldl_depthStep_pos hd 0
  · obtain ⟨k, hk⟩ := Term.exists_height_eq_need hv
    refine ⟨k, ?_⟩
    rw [hk, Program.maxDepth_ofTerm]
    exact_mod_cast t.need_fold_le

/-- An operator that is refused for want of values, and one that is folded away. -/
theorem run_bounded_after_refusal :
    ∃ p, (Use.ofTokens (some Resolver.itself) ["x", "+", "1", "2", "*", "-"] ()).assembler.finish = .ok p ∧
      (∀ m, Interpreter.Used p m → m.Bounded (fun _ n => (n.toFloat, n + 1)) p 0) ∧
      (∃ k, (p.maxDepth : Int) ≤ height (["x", "1", "2", "*", "-"].take k)) ∧
      ∃ tree, CallTree.ofProgram p = .ok tree := by
  have hok : (Use.ofTokens (some Resolver.itself) ["x", "+", "1", "2", "*", "-"] ()).assembler.finish.toOption.isSome =
      true := by
    decide +kernel
  have htaken : (Use.ofTokens (some Resolver.itself) ["x", "+", "1", "2", "*", "-"] ()).taken =
      ["x", "1", "2", "*", "-"] := by
    decide +kernel
  cases hp : (Use.ofTokens (some Resolver.itself) ["x", "+", "1", "2", "*", "-"] ()).assembler.finish with
  | error e => rw [hp] at hok; cases hok
  | ok p =>
    obtain ⟨hruns, -, hpeak, htree⟩ := run_bounded (.finish hp)
    rw [htaken] at hpeak
    exact ⟨p, rfl, fun m hm => hruns m hm Nat _ 0, hpeak, htree⟩

end ReversePolish
