/-
  ReversePolish.Proofs.Simulation — the call tree and native routines keep step with the
  stack machine.

  Evaluations come in `rounds`: before each the outside state may change from elsewhere,
  and each starts from what the one before left, in the arrays as well as outside. What
  a round shows is its value, the loaders it read and their order, and the outside state.
  Two evaluators show the same for any number of rounds if some relation between them is
  kept by every evaluation that shows the same of both (`rounds_agree`).

  The call tree of a program keeps nothing between rounds, and the relation is that the
  stack machine serves the same term (`tree_simulates_machine`). A routine reads all its
  operands before it computes and keeps its arrays. It `Runs` the program as long as the
  constants are in their places, which is all that its calls depend on, for every other
  place is refreshed before the code reads it (`Refreshes`); so it keeps step with the
  stack machine, which reads while it computes (`routine_simulates_machine`).
-/

import ReversePolish.Proofs.Arena
import ReversePolish.Proofs.Usage
import ReversePolish.Proofs.Workshop

namespace ReversePolish

variable {α β ι σ : Type}

/-! ## Rounds -/

structure Round (ι σ : Type) where
  value : Float
  reads : List ι
  outside : σ

/-- Evaluations in turn, each after a change of the outside state from elsewhere. -/
def rounds (run : α → σ × List ι → Except Fault (Float × α × σ × List ι)) :
    List (σ → σ) → α → σ → Except Fault (List (Round ι σ) × α)
  | [], a, _ => .ok ([], a)
  | change :: rest, a, outside =>
    match run a (change outside, []) with
    | .error e => .error e
    | .ok (value, a, outside, reads) =>
      match rounds run rest a outside with
      | .error e => .error e
      | .ok (more, a) => .ok ({ value, reads, outside } :: more, a)

/-- If an evaluation shows the same of two related evaluators and keeps them related, then so do any number. -/
theorem rounds_agree (run : α → σ × List ι → Except Fault (Float × α × σ × List ι))
    (run' : β → σ × List ι → Except Fault (Float × β × σ × List ι)) (related : α → β → Prop)
    (step : ∀ a b outside, related a b → ∃ x a' b' s, run a (outside, []) = .ok (x, a', s) ∧
      run' b (outside, []) = .ok (x, b', s) ∧ related a' b')
    (changes : List (σ → σ)) {a : α} {b : β} (h : related a b) (outside : σ) :
    ∃ shown a' b', rounds run changes a outside = .ok (shown, a') ∧
      rounds run' changes b outside = .ok (shown, b') ∧ related a' b' := by
  induction changes generalizing a b outside with
  | nil => exact ⟨[], a, b, rfl, rfl, h⟩
  | cons change rest ih =>
    -- the outside state is shown, so the rounds that follow start from one state for both
    obtain ⟨x, a₁, b₁, ⟨outside₁, reads⟩, ha, hb, h₁⟩ := step a b (change outside) h
    obtain ⟨more, a₂, b₂, ha₂, hb₂, h₂⟩ := ih h₁ outside₁
    exact ⟨{ value := x, reads, outside := outside₁ } :: more, a₂, b₂, by simp only [rounds, ha, ha₂],
      by simp only [rounds, hb, hb₂], h₂⟩

/-! ## The call tree -/

namespace CallTree

def running (read : Reader ι σ) (tree : CallTree ι) (outside : σ) : Except Fault (Float × CallTree ι × σ) :=
  (tree.eval read outside).map fun (x, outside) => (x, tree, outside)

theorem eval_agrees (read : Reader ι σ) {t : Term (Operand ι)} {tree : CallTree ι} {m : Interpreter ι}
    (ht : ofProgram (.ofTerm t) = .ok tree) (hm : m.Serves (.ofTerm t)) (outside : σ) :
    ∃ x m' s, m.run read outside = .ok (x, m', s) ∧ m'.Serves (.ofTerm t) ∧ tree.eval read outside = .ok (x, s) := by
  obtain ⟨m', hm', hrun⟩ := Interpreter.run_ofTerm read hm outside
  exact ⟨_, m', _, hrun, hm', eval_ofTerm read ht outside⟩

end CallTree

/-- The call tree of a program, whatever its depth, gives the value that the stack machine gives, fresh or
    used, after the same loads and with the same outside state; and so do any number of rounds. -/
theorem tree_simulates_machine {p : Program ι} (h : p.IsMade) :
    ∃ tree, CallTree.ofProgram p = .ok tree ∧ ∀ m : Interpreter ι, m.Serves p → ∀ (σ : Type) (read : Reader ι σ),
      (∀ outside, ∃ x m' s, m.run read.logged (outside, []) = .ok (x, m', s) ∧ m'.Serves p ∧
        tree.eval read.logged (outside, []) = .ok (x, s)) ∧
      ∀ (changes : List (σ → σ)) (outside : σ), ∃ shown m',
        rounds (Interpreter.run read.logged) changes m outside = .ok (shown, m') ∧
        rounds (CallTree.running read.logged) changes tree outside = .ok (shown, tree) := by
  obtain ⟨t, rfl⟩ := Program.exists_term_of_isMade h
  obtain ⟨tree, htree⟩ : ∃ tree, CallTree.ofProgram (.ofTerm t) = .ok tree := ⟨_, CallTree.ofProgram_ofTerm t⟩
  refine ⟨tree, htree, ?_⟩
  intro m hm σ read
  refine ⟨?_, ?_⟩
  · intro outside
    exact CallTree.eval_agrees read.logged htree hm (outside, [])
  · intro changes outside
    have step : ∀ (m : Interpreter ι) (tree' : CallTree ι) (outside : σ), m.Serves (.ofTerm t) ∧ tree' = tree →
        ∃ x m' tree'' s, m.run read.logged (outside, []) = .ok (x, m', s) ∧
          tree'.running read.logged (outside, []) = .ok (x, tree'', s) ∧ m'.Serves (.ofTerm t) ∧ tree'' = tree := by
      rintro m _ outside ⟨hm, rfl⟩
      obtain ⟨x, m', s, hrun, hm', heval⟩ := CallTree.eval_agrees read.logged htree hm (outside, [])
      exact ⟨x, m', _, s, hrun, by rw [CallTree.running, heval]; rfl, hm', rfl⟩
    obtain ⟨shown, m', _, hmachine, htrees, -, rfl⟩ := rounds_agree _ _ _ step changes ⟨hm, rfl⟩ outside
    exact ⟨shown, m', hmachine, htrees⟩

/-- Operators that tell left from right, over loaders that count their readings. -/
theorem tree_simulates_machine_over_counter :
    ∃ p, (Program.parse (some Resolver.itself) "x y - z if 2 3 * ^" ()).result = .ok p ∧
      ∃ tree, CallTree.ofProgram p = .ok tree ∧ ∃ shown m,
        rounds (Interpreter.run (Reader.logged fun _ n => (n.toFloat, n + 1))) [id, (· + 5)] (.ofProgram p) 0 =
          .ok (shown, m) ∧
        rounds (CallTree.running (Reader.logged fun _ n => (n.toFloat, n + 1))) [id, (· + 5)] tree 0 =
          .ok (shown, tree) := by
  have hok : (Program.parse (some Resolver.itself) "x y - z if 2 3 * ^" ()).result.toOption.isSome = true := by
    decide +kernel
  cases hp : (Program.parse (some Resolver.itself) "x y - z if 2 3 * ^" ()).result with
  | error e => rw [hp] at hok; cases hok
  | ok p =>
    obtain ⟨tree, htree, h⟩ := tree_simulates_machine ⟨Unit, some Resolver.itself, (), _, .parse hp⟩
    have agree := (h (.ofProgram p) (Interpreter.serves_ofProgram p) Nat fun _ n => (n.toFloat, n + 1)).2
    exact ⟨p, rfl, tree, htree, agree [id, (· + 5)] 0⟩

/-! ## Native routines -/

namespace Routine

/-- The routine is one of the program and not released, with the constants in their places; what else its
    values and its scratch stack hold is open. -/
structure Runs (r : Routine ι) (p : Program ι) : Prop where
  live : r.region = .live
  code : NativeOp.lowerAll p.ops.toList = .ok r.code
  values : List.Forall₂ Baked r.values.toList p.operands.toList
  scratch : r.scratch.places.size = p.maxDepth
  dynamic : r.dynamic = dynamicFrom 0 p.operands.toList

structure Refreshes (r : Routine ι) (p : Program ι) : Prop where
  /-- A slot holds a constant and is not among those that a call writes to, or it is one of these. -/
  slots : ∀ slot operand, p.operands[slot]? = some operand →
    (∃ c, operand.source = .constant c ∧ r.values[slot]? = some c ∧ ∀ loader, (slot, loader) ∉ r.dynamic) ∨
      ∃ loader, operand.source = .dynamic loader ∧ (slot, loader) ∈ r.dynamic
  /-- A call computes from the values that all operands have at that call. -/
  calls : ∀ (σ : Type) (read : Reader ι σ) (outside : σ), ∃ x values scratch,
    values.toList = (loadAll read p.operands.toList outside).1 ∧
      NativeOp.run r.code values r.scratch = .ok (x, scratch) ∧
      r.call read outside = .ok (x, { r with values, scratch }, (loadAll read p.operands.toList outside).2) ∧
      { r with values, scratch }.Runs p

theorem runs_ofProgram {p : Program ι} {code : List NativeOp} (h : NativeOp.lowerAll p.ops.toList = .ok code)
    (size : Nat) : (ofProgram p .live code size).Runs p :=
  ⟨rfl, h, by rw [ofProgram, Array.toList_map]; exact baked_constants _, Array.size_replicate, rfl⟩

theorem runs_ofTerm_iff {r : Routine ι} {t : Term (Operand ι)} : r.Runs (.ofTerm t) ↔ r.Serves t.fold :=
  ⟨fun h => ⟨h.live, h.code, h.values, h.scratch.trans (Program.maxDepth_ofTerm t), h.dynamic⟩,
    fun h => ⟨h.live, h.code, h.values, h.scratch.trans (Program.maxDepth_ofTerm t).symm, h.dynamic⟩⟩

theorem refreshes_of_runs {r : Routine ι} {t : Term (Operand ι)} (h : r.Runs (.ofTerm t)) :
    r.Refreshes (.ofTerm t) := by
  refine ⟨?_, ?_⟩
  · intro slot operand ho
    have written : ∀ loader, (slot, loader) ∈ r.dynamic ↔ operand.source.loader? = some loader := by
      intro loader
      rw [h.dynamic, mem_dynamicFrom, Array.getElem?_toList, ho]
      simp
    cases hs : operand.source with
    | constant c =>
      refine Or.inl ⟨c, rfl, ?_, ?_⟩
      · rw [← Array.getElem?_toList]
        exact getElem?_of_baked h.values (Array.getElem?_toList.trans ho) hs
      · intro loader hl
        rw [written, hs] at hl
        cases hl
    | dynamic loader =>
      refine Or.inr ⟨loader, rfl, ?_⟩
      rw [written, hs]
      rfl
  · intro σ read outside
    have hs := runs_ofTerm_iff.mp h
    obtain ⟨values, scratch, hv, hscratch, hrun, hcall⟩ := call_eq_of_serves read hs outside
    rw [← loadAll_leaves] at hcall
    exact ⟨_, values, scratch, hv, hrun, hcall, runs_ofTerm_iff.mpr (hs.refreshed hv hscratch)⟩

theorem call_agrees (read : Reader ι σ) {t : Term (Operand ι)} {r : Routine ι} {m : Interpreter ι}
    (hr : r.Serves t.fold) (hm : m.Serves (.ofTerm t)) (outside : σ) :
    ∃ x r' m' s, r.call read outside = .ok (x, r', s) ∧ m.run read outside = .ok (x, m', s) ∧
      r'.Serves t.fold ∧ m'.Serves (.ofTerm t) := by
  obtain ⟨r', hr', hcall⟩ := call_of_serves read hr outside
  obtain ⟨m', hm', hrun⟩ := Interpreter.run_ofTerm read hm outside
  rw [Term.eval_fold] at hcall
  exact ⟨_, r', m', _, hcall, hrun, hr', hm'⟩

end Routine

/-- A program with native operators only has a routine. It reads all operands before it computes; still, and
    whatever earlier calls left in its arrays, each call gives the value that the stack machine gives, after the
    same loads and with the same outside state. -/
theorem routine_simulates_machine {p : Program ι} (hm : p.IsMade) (hn : ∀ i ∈ p.ops.toList, i.isNative = true) :
    (∃ code, NativeOp.lowerAll p.ops.toList = .ok code ∧ ∀ size, (Routine.ofProgram p .live code size).Runs p) ∧
    (∀ (c : Compiler) (r : Routine ι), (c.compile p).result = .ok r → r.Runs p) ∧
    ∀ r : Routine ι, r.Runs p → r.Refreshes p ∧
      ∀ m : Interpreter ι, m.Serves p → ∀ (σ : Type) (read : Reader ι σ) (changes : List (σ → σ)) (outside : σ),
        ∃ shown r' m', rounds (Routine.call read.logged) changes r outside = .ok (shown, r') ∧
          rounds (Interpreter.run read.logged) changes m outside = .ok (shown, m') := by
  obtain ⟨t, rfl⟩ := Program.exists_term_of_isMade hm
  obtain ⟨code, hcode⟩ := NativeOp.lowerAll_ok hn
  refine ⟨⟨code, hcode, Routine.runs_ofProgram hcode⟩, ?_, ?_⟩
  · intro c r hr
    exact Routine.runs_ofTerm_iff.mpr (Compiler.serves_of_compile hr)
  · intro r hr
    refine ⟨Routine.refreshes_of_runs hr, ?_⟩
    intro m hm σ read changes outside
    have step : ∀ (r : Routine ι) (m : Interpreter ι) (outside : σ), r.Serves t.fold ∧ m.Serves (.ofTerm t) →
        ∃ x r' m' s, r.call read.logged (outside, []) = .ok (x, r', s) ∧
          m.run read.logged (outside, []) = .ok (x, m', s) ∧ r'.Serves t.fold ∧ m'.Serves (.ofTerm t) :=
      fun r m outside h => Routine.call_agrees read.logged h.1 h.2 (outside, [])
    obtain ⟨shown, r', m', hcalls, hruns, -⟩ :=
      rounds_agree _ _ _ step changes ⟨Routine.runs_ofTerm_iff.mp hr, hm⟩ outside
    exact ⟨shown, r', m', hcalls, hruns⟩

/-- A constant between two loaders that count their readings. -/
theorem routine_simulates_machine_over_counter :
    ∃ p, (Program.parse (some Resolver.itself) "x 2 3 * - y /" ()).result = .ok p ∧
      ∃ code, NativeOp.lowerAll p.ops.toList = .ok code ∧
        (Routine.ofProgram p .live code 0).Refreshes p ∧ ∃ shown r m,
          rounds (Routine.call (Reader.logged fun _ n => (n.toFloat, n + 1))) [id, (· + 5), id]
            (.ofProgram p .live code 0) 0 = .ok (shown, r) ∧
          rounds (Interpreter.run (Reader.logged fun _ n => (n.toFloat, n + 1))) [id, (· + 5), id] (.ofProgram p) 0 =
            .ok (shown, m) := by
  have hok : ((Program.parse (some Resolver.itself) "x 2 3 * - y /" ()).result.toOption.any fun p =>
      p.ops.toList.all Instruction.isNative) = true := by
    decide +kernel
  cases hp : (Program.parse (some Resolver.itself) "x 2 3 * - y /" ()).result with
  | error e => rw [hp] at hok; cases hok
  | ok p =>
    rw [hp] at hok
    obtain ⟨⟨code, hcode, hruns⟩, -, h⟩ :=
      routine_simulates_machine ⟨Unit, some Resolver.itself, (), _, .parse hp⟩ (List.all_eq_true.mp hok)
    obtain ⟨hrefreshes, agree⟩ := h _ (hruns 0)
    exact ⟨p, rfl, code, hcode, hrefreshes,
      agree (.ofProgram p) (Interpreter.serves_ofProgram p) Nat _ [id, (· + 5), id] 0⟩

end ReversePolish
