/-
  ReversePolish.Proofs.Native — a native routine computes its term, call after call.

  A call reads all loaders before the code runs. Operators read nothing, so that is the
  same as reading each loader when its leaf is met: `loadAll` gives the values and the
  outside state of the evaluation (`loadAll_leaves`), and the code over these values
  pushes the value of the term (`steps_lowerAll`).

  What a call finds in the arrays does not matter except for the constants: a routine
  `Serves` a term while every constant is in its place among the values (`Baked`). A call
  writes the places of the loaders only (`mem_dynamicFrom`), so the constants stay; it
  computes from the readings of all operands (`call_eq_of_serves`), and the routine serves
  the term again (`call_of_serves`).
-/

import Mathlib.Data.List.Forall2
import ReversePolish.Native.Compiler
import ReversePolish.Proofs.Machine

namespace ReversePolish

variable {ι σ : Type}

/-! ## All readings first -/

def loadAll (read : Reader ι σ) : List (Operand ι) → σ → List Float × σ
  | [], outside => ([], outside)
  | operand :: rest, outside =>
    let (x, outside) := operand.source.load read outside
    let (xs, outside) := loadAll read rest outside
    (x :: xs, outside)

theorem loadAll_append (read : Reader ι σ) (as bs : List (Operand ι)) (outside : σ) :
    loadAll read (as ++ bs) outside =
      ((loadAll read as outside).1 ++ (loadAll read bs (loadAll read as outside).2).1,
        (loadAll read bs (loadAll read as outside).2).2) := by
  induction as generalizing outside with
  | nil => rfl
  | cons a as ih => simp only [List.cons_append, loadAll, ih]

theorem loadAll_leaves (read : Reader ι σ) (t : Term (Operand ι)) (outside : σ) :
    (loadAll read t.leaves outside).2 = (t.eval read outside).2 := by
  induction t generalizing outside with
  | leaf operand => rfl
  | node o l r hl hr => simp only [Term.leaves, loadAll_append, Term.eval, hl, hr]

theorem length_loadAll (read : Reader ι σ) (operands : List (Operand ι)) (outside : σ) :
    (loadAll read operands outside).1.length = operands.length := by
  induction operands generalizing outside with
  | nil => rfl
  | cons a as ih => simp only [loadAll, List.length_cons, ih]

/-! ## The code -/

namespace NativeOp

theorem lowerAll_append {as bs : List Instruction} {code : List NativeOp} (h : lowerAll (as ++ bs) = .ok code) :
    ∃ x y, lowerAll as = .ok x ∧ lowerAll bs = .ok y ∧ code = x ++ y := by
  induction as generalizing code with
  | nil => exact ⟨[], code, rfl, h, rfl⟩
  | cons a as ih =>
    rw [List.cons_append, lowerAll] at h
    cases ha : lower a with
    | error e => rw [ha] at h; cases h
    | ok op =>
      rw [ha] at h
      cases hr : lowerAll (as ++ bs) with
      | error e => rw [hr] at h; cases h
      | ok rest =>
        rw [hr] at h
        cases h
        obtain ⟨x, y, hx, hy, rfl⟩ := ih hr
        exact ⟨op :: x, y, by rw [lowerAll, ha, hx]; rfl, hy, rfl⟩

theorem lowerAll_singleton {i : Instruction} {code : List NativeOp} (h : lowerAll [i] = .ok code) :
    ∃ op, lower i = .ok op ∧ code = [op] := by
  rw [lowerAll] at h
  cases hi : lower i with
  | error e => rw [hi] at h; cases h
  | ok op => rw [hi] at h; cases h; exact ⟨op, rfl, rfl⟩

/-- The native instruction of an operator applies the operator. -/
theorem step_of_lower {o : Operator} {op : NativeOp} (h : lower (.apply o) = .ok op) (values : Array Float)
    (r : Registers) : step values r op = (r.scratch.combine o.apply).map fun scratch => { r with scratch } := by
  cases o <;> cases h <;> rfl

/-- The code of a term pushes its value, over values that were read beforehand. -/
theorem steps_lowerAll (read : Reader ι σ) (values : Array Float) (t : Term (Operand ι)) {code : List NativeOp}
    (hc : lowerAll t.instructions = .ok code) (rest : List NativeOp) (after : List Float) (loaded : Nat)
    {n : Nat} {scratch : Stack} {xs : List Float} (outside : σ) (hs : scratch.Holds n xs) (hn : xs.length + t.need ≤ n)
    (hv : values.toList.drop loaded = (loadAll read t.leaves outside).1 ++ after) :
    ∃ scratch', scratch'.Holds n ((t.eval read outside).1 :: xs) ∧
      steps values (code ++ rest) { scratch, loaded } =
        steps values rest { scratch := scratch', loaded := loaded + t.leaves.length } := by
  induction t generalizing code rest after loaded scratch xs outside with
  | leaf operand =>
    simp only [Term.need] at hn
    cases hc
    have hx : values[loaded]? = some (operand.source.load read outside).1 := by
      rw [← Array.getElem?_toList, ← List.head?_drop, hv]; rfl
    obtain ⟨scratch', hp, hs'⟩ := hs.push (by omega) (operand.source.load read outside).1
    refine ⟨scratch', hs', ?_⟩
    simp only [List.singleton_append, steps, step, hx, hp, Except.map, Term.leaves, List.length_singleton]
  | node o l r ihl ihr =>
    simp only [Term.need] at hn
    simp only [Term.leaves, loadAll_append, List.append_assoc] at hv
    obtain ⟨lr, os, hlr, ho, rfl⟩ := lowerAll_append hc
    obtain ⟨lcode, rcode, hlc, hrc, rfl⟩ := lowerAll_append hlr
    obtain ⟨s₁, hs₁, e₁⟩ := ihl hlc (rcode ++ (os ++ rest)) _ loaded outside hs (by omega) hv
    have hv' : values.toList.drop (loaded + l.leaves.length) =
        (loadAll read r.leaves (l.eval read outside).2).1 ++ after := by
      rw [← List.drop_drop, hv, List.drop_left' (length_loadAll _ _ _), loadAll_leaves]
    obtain ⟨s₂, hs₂, e₂⟩ := ihr hrc (os ++ rest) after _ (l.eval read outside).2 hs₁
      (by rw [List.length_cons]; omega) hv'
    obtain ⟨s₃, hcomb, hs₃⟩ := hs₂.combine o.apply
    obtain ⟨op, hop, rfl⟩ := lowerAll_singleton ho
    refine ⟨s₃, hs₃, ?_⟩
    rw [List.append_assoc, List.append_assoc, e₁, e₂]
    simp only [List.singleton_append, steps, step_of_lower hop, hcomb, Except.map, Term.leaves, List.length_append,
      Nat.add_assoc]

end NativeOp

/-! ## Routines -/

/-- A value is in place for an operand: a constant's is the constant. -/
def Baked (x : Float) (operand : Operand ι) : Prop := ∀ c, operand.source = .constant c → x = c

theorem baked_loadAll (read : Reader ι σ) (operands : List (Operand ι)) (outside : σ) :
    List.Forall₂ Baked (loadAll read operands outside).1 operands := by
  induction operands generalizing outside with
  | nil => exact .nil
  | cons operand rest ih =>
    refine .cons (fun c hc => ?_) (ih _)
    simp only [hc]

theorem baked_constants (operands : List (Operand ι)) :
    List.Forall₂ Baked (operands.map fun operand => operand.source.constant?.getD 0) operands := by
  induction operands with
  | nil => exact .nil
  | cons operand rest ih =>
    refine .cons (fun c hc => ?_) ih
    simp only [hc, Source.constant?_constant, Option.getD_some]

theorem getElem?_of_baked {values : List Float} {operands : List (Operand ι)} (h : List.Forall₂ Baked values operands)
    {slot : Nat} {operand : Operand ι} {c : Float} (ho : operands[slot]? = some operand)
    (hc : operand.source = .constant c) : values[slot]? = some c := by
  induction h generalizing slot with
  | nil => cases ho
  | @cons x first values rest hx hrest ih =>
    cases slot with
    | zero => cases ho; rw [hx c hc]; rfl
    | succ slot => exact ih ho

namespace Routine

theorem dynamicFrom_eq (slot : Nat) (operands : List (Operand ι)) :
    dynamicFrom slot operands =
      (operands.zipIdx slot).filterMap fun (operand, slot) => operand.source.loader?.map (slot, ·) := by
  induction operands generalizing slot with
  | nil => rfl
  | cons operand rest ih =>
    obtain ⟨name, source⟩ := operand
    cases source with
    | constant c => simp [dynamicFrom, List.zipIdx_cons, List.filterMap_cons, ih]
    | dynamic loader => simp [dynamicFrom, List.zipIdx_cons, ih]

/-- The places that a call writes to are those of the dynamic operands. -/
theorem mem_dynamicFrom {operands : List (Operand ι)} {slot : Nat} {loader : ι} :
    (slot, loader) ∈ dynamicFrom 0 operands ↔
      ∃ operand, operands[slot]? = some operand ∧ operand.source.loader? = some loader := by
  simp only [dynamicFrom_eq, List.mem_filterMap, Prod.exists, List.mk_mem_zipIdx_iff_getElem?, Option.map_eq_some_iff,
    Prod.mk.injEq]
  constructor
  · rintro ⟨operand, k, hk, loader, hl, rfl, rfl⟩
    exact ⟨operand, hk, hl⟩
  · rintro ⟨operand, hk, hl⟩
    exact ⟨operand, slot, hk, loader, hl, rfl, rfl⟩

/-- The routine runs the code of a term, with the constants in their places and the code not freed. -/
structure Serves (r : Routine ι) (t : Term (Operand ι)) : Prop where
  live : r.region = .live
  code : NativeOp.lowerAll t.instructions = .ok r.code
  values : List.Forall₂ Baked r.values.toList t.leaves
  scratch : r.scratch.places.size = t.need
  dynamic : r.dynamic = dynamicFrom 0 t.leaves

/-- Refreshing leaves every value as if all operands had been read in order. -/
theorem refresh_dynamicFrom (read : Reader ι σ) (operands : List (Operand ι)) (values : Array Float)
    (done : List Float) {todo : List Float} (hv : values.toList = done ++ todo) (hb : List.Forall₂ Baked todo operands)
    (outside : σ) :
    ∃ values', values'.toList = done ++ (loadAll read operands outside).1 ∧
      refresh read (dynamicFrom done.length operands) values outside =
        .ok (values', (loadAll read operands outside).2) := by
  induction hb generalizing values done outside with
  | nil => exact ⟨values, hv, rfl⟩
  | @cons x operand todo rest hx hb ih =>
    obtain ⟨name, source⟩ := operand
    cases source with
    | constant c =>
      obtain rfl := hx c rfl
      obtain ⟨values', hv', e⟩ := ih values (done ++ [x]) (by rw [hv, List.append_assoc, List.singleton_append]) outside
      rw [List.length_append, List.length_singleton] at e
      exact ⟨values', by rw [hv', List.append_assoc, List.singleton_append]; rfl, by simp only [dynamicFrom, e]; rfl⟩
    | dynamic loader =>
      have hlt : done.length < values.size := by
        have := congrArg List.length hv
        simp at this
        omega
      obtain ⟨values', hv', e⟩ := ih (values.set done.length (read loader outside).1)
        (done ++ [(read loader outside).1]) (by simp [hv, List.set_append_right]) (read loader outside).2
      rw [List.length_append, List.length_singleton] at e
      refine ⟨values', by rw [hv', List.append_assoc, List.singleton_append]; rfl, ?_⟩
      simp only [dynamicFrom, refresh, dif_pos hlt, e]
      rfl

/-- A call computes the value of the term from what all its operands give, over any scratch. -/
theorem call_eq_of_serves (read : Reader ι σ) {r : Routine ι} {t : Term (Operand ι)} (h : r.Serves t) (outside : σ) :
    ∃ values scratch, values.toList = (loadAll read t.leaves outside).1 ∧ scratch.places.size = t.need ∧
      NativeOp.run r.code values r.scratch = .ok ((t.eval read outside).1, scratch) ∧
      r.call read outside = .ok ((t.eval read outside).1, { r with values, scratch }, (t.eval read outside).2) := by
  obtain ⟨values, hv, hrefresh⟩ := refresh_dynamicFrom read t.leaves _ [] (List.nil_append _).symm h.values outside
  obtain ⟨scratch, hs, hsteps⟩ := NativeOp.steps_lowerAll read values t h.code [] [] 0 outside
    (Stack.holds_clear h.scratch) (by simp) (by simpa using hv)
  rw [List.append_nil] at hsteps
  have hrun : NativeOp.run r.code values r.scratch = .ok ((t.eval read outside).1, scratch) := by
    simp only [NativeOp.run, hsteps, NativeOp.steps, hs.top]
    rfl
  refine ⟨values, scratch, hv, hs.size, hrun, ?_⟩
  rw [loadAll_leaves, List.length_nil] at hrefresh
  simp only [call, h.live, Region.isReleased, Bool.false_eq_true, if_false, h.dynamic]
  rw [hrefresh]
  simp only [hrun]

theorem Serves.refreshed {r : Routine ι} {t : Term (Operand ι)} (h : r.Serves t) {read : Reader ι σ} {outside : σ}
    {values : Array Float} {scratch : Stack} (hv : values.toList = (loadAll read t.leaves outside).1)
    (hs : scratch.places.size = t.need) : { r with values, scratch }.Serves t :=
  ⟨h.live, h.code, by rw [hv]; exact baked_loadAll read t.leaves outside, hs, h.dynamic⟩

/-- A call gives the value of the term, and the routine can be called again. -/
theorem call_of_serves (read : Reader ι σ) {r : Routine ι} {t : Term (Operand ι)} (h : r.Serves t) (outside : σ) :
    ∃ r', r'.Serves t ∧ r.call read outside = .ok ((t.eval read outside).1, r', (t.eval read outside).2) := by
  obtain ⟨values, scratch, hv, hs, -, hcall⟩ := call_eq_of_serves read h outside
  exact ⟨_, h.refreshed hv hs, hcall⟩

end Routine

namespace Compiler

/-- What is compiled is the routine of the program, with its code in live memory. -/
theorem compile_ok {c : Compiler} {p : Program ι} {r : Routine ι} (h : (c.compile p).result = .ok r) :
    ∃ code size, NativeOp.lowerAll p.ops.toList = .ok code ∧ r = .ofProgram p .live code size := by
  unfold compile at h
  split at h
  · cases h
  · simp only at h
    split at h
    · cases h
    · rename_i code hcode
      split at h
      · cases h
      · cases h
        exact ⟨code, _, hcode, rfl⟩

/-- A compiled routine serves the folded term of its program. -/
theorem serves_of_compile {c : Compiler} {t : Term (Operand ι)} {r : Routine ι}
    (h : (c.compile (Program.ofTerm t)).result = .ok r) : r.Serves t.fold := by
  obtain ⟨code, size, hcode, rfl⟩ := compile_ok h
  exact ⟨rfl, hcode, by simpa [Routine.ofProgram, Program.ofTerm, Program.ofParts] using baked_constants _,
    by simpa [Routine.ofProgram, Stack.ofSize] using Program.maxDepth_ofTerm t, rfl⟩

end Compiler

end ReversePolish
