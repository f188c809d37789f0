/-
  ReversePolish.Proofs.Machine — the stack machine computes terms.

  A stack of `n` places `Holds` some values when it has that many values and these are
  they; what the places above them hold is left open, so nothing left by an earlier run
  matters. From any such stack the instructions of a term push the term's value, whatever
  instructions follow and whatever operands were fetched before (`steps_instructions`): no
  access fails as long as the places suffice for what the term needs.

  An interpreter that `Serves` a program, fresh or used, thus runs the program of a term
  without a fault, gives the value of the term and serves it again (`run_ofTerm`).
-/

import ReversePolish.Evaluator.Interpreter
import ReversePolish.Proofs.Assembly

namespace ReversePolish

/-! ## Stacks -/

namespace Stack

/-- The stack has `n` places and holds these values, the topmost first. -/
structure Holds (s : Stack) (n : Nat) (xs : List Float) : Prop where
  size : s.places.size = n
  height : s.height = xs.length
  values : ∃ above, s.places.toList = xs.reverse ++ above

theorem Holds.height_le {s : Stack} {n : Nat} {xs : List Float} (h : s.Holds n xs) : xs.length ≤ n := by
  obtain ⟨above, ha⟩ := h.values
  have := congrArg List.length ha
  simp only [Array.length_toList, h.size, List.length_append, List.length_reverse] at this
  omega

theorem holds_clear {s : Stack} {n : Nat} (h : s.places.size = n) : s.clear.Holds n [] :=
  ⟨h, rfl, s.places.toList, rfl⟩

theorem Holds.push {s : Stack} {n : Nat} {xs : List Float} (h : s.Holds n xs) (hn : xs.length < n) (x : Float) :
    ∃ s', s.push x = .ok s' ∧ s'.Holds n (x :: xs) := by
  obtain ⟨above, ha⟩ := h.values
  have hlt : s.height < s.places.size := by rw [h.height, h.size]; exact hn
  refine ⟨_, by rw [Stack.push, dif_pos hlt], ⟨by simp [h.size], by simp [h.height], ?_⟩⟩
  cases above with
  | nil =>
    have := congrArg List.length ha
    simp [h.size] at this
    omega
  | cons a above => exact ⟨above, by simp [ha, h.height, List.set_append_right]⟩

theorem Holds.combine {s : Stack} {n : Nat} {xs : List Float} {x y : Float} (h : s.Holds n (y :: x :: xs))
    (f : Float → Float → Float) : ∃ s', s.combine f = .ok s' ∧ s'.Holds n (f x y :: xs) := by
  obtain ⟨above, ha⟩ := h.values
  have hh : s.height = xs.length + 2 := h.height
  have hc : 2 ≤ s.height ∧ s.height ≤ s.places.size := by
    have := h.height_le
    rw [List.length_cons, List.length_cons] at this
    rw [h.size]; omega
  have hx : s.places[s.height - 2] = x := by
    rw [← Array.getElem_toList]
    simp [ha, hh]
  have hy : s.places[s.height - 1] = y := by
    rw [← Array.getElem_toList]
    simp [ha, hh]
  refine ⟨_, by rw [Stack.combine, dif_pos hc], ⟨by simp [h.size], by simp [hh], y :: above, ?_⟩⟩
  simp only [hx, hy]
  simp [ha, hh, List.set_append_right]

theorem Holds.top {s : Stack} {n : Nat} {xs : List Float} {x : Float} (h : s.Holds n (x :: xs)) : s.top = .ok x := by
  obtain ⟨above, ha⟩ := h.values
  have hh : s.height = xs.length + 1 := h.height
  have hc : 0 < s.height ∧ s.height ≤ s.places.size := by
    have := h.height_le
    rw [List.length_cons] at this
    rw [h.size]; omega
  rw [Stack.top, dif_pos hc, ← Array.getElem_toList]
  simp [ha, hh]

end Stack

/-! ## The interpreter -/

namespace Interpreter

variable {ι σ : Type}

/-- The interpreter has the program and a stack of its depth; what is in the places is open. -/
structure Serves (m : Interpreter ι) (p : Program ι) : Prop where
  program : m.program = p
  places : m.stack.places.size = p.maxDepth

theorem serves_ofProgram (p : Program ι) : (ofProgram p).Serves p := ⟨rfl, Array.size_replicate⟩

/-- The instructions of a term push its value. -/
theorem steps_instructions (read : Reader ι σ) (operands : Array (Operand ι)) (t : Term (Operand ι))
    (rest : List Instruction) (after : List (Operand ι)) (fetched : Nat) {n : Nat} {stack : Stack} {xs : List Float}
    (outside : σ) (hs : stack.Holds n xs) (hn : xs.length + t.need ≤ n)
    (hl : operands.toList.drop fetched = t.leaves ++ after) :
    ∃ stack', stack'.Holds n ((t.eval read outside).1 :: xs) ∧
      steps read operands (t.instructions ++ rest) { stack, fetched, outside } =
        steps read operands rest
          { stack := stack', fetched := fetched + t.leaves.length, outside := (t.eval read outside).2 } := by
  induction t generalizing rest after fetched stack xs outside with
  | leaf operand =>
    simp only [Term.need] at hn
    have hf : operands[fetched]? = some operand := by
      rw [← Array.getElem?_toList, ← List.head?_drop, hl]; rfl
    obtain ⟨stack', hp, hs'⟩ := hs.push (by omega) (operand.source.load read outside).1
    refine ⟨stack', hs', ?_⟩
    simp only [Term.instructions, List.singleton_append, steps, step, hf, hp, Except.map, Term.eval, Term.leaves,
      List.length_singleton]
  | node o l r ihl ihr =>
    simp only [Term.need] at hn
    simp only [Term.leaves, List.append_assoc] at hl
    simp only [Term.instructions, List.append_assoc]
    obtain ⟨s₁, hs₁, e₁⟩ := ihl (r.instructions ++ ([.apply o] ++ rest)) (r.leaves ++ after) fetched outside hs
      (by omega) hl
    have hl' : operands.toList.drop (fetched + l.leaves.length) = r.leaves ++ after := by
      rw [← List.drop_drop, hl, List.drop_left]
    -- the value of the left operand takes one place while the right one is computed
    obtain ⟨s₂, hs₂, e₂⟩ := ihr ([.apply o] ++ rest) after _ (l.eval read outside).2 hs₁
      (by rw [List.length_cons]; omega) hl'
    obtain ⟨s₃, hc, hs₃⟩ := hs₂.combine o.apply
    refine ⟨s₃, hs₃, ?_⟩
    rw [e₁, e₂]
    simp only [List.singleton_append, steps, step, hc, Except.map, Term.eval, Term.leaves, List.length_append,
      Nat.add_assoc]

/-- A run of the program of a term gives the term's value, and the interpreter can be used again. -/
theorem run_ofTerm (read : Reader ι σ) {m : Interpreter ι} {t : Term (Operand ι)} (h : m.Serves (.ofTerm t))
    (outside : σ) :
    ∃ m', m'.Serves (.ofTerm t) ∧ m.run read outside = .ok ((t.eval read outside).1, m', (t.eval read outside).2) := by
  obtain ⟨p, stack⟩ := m
  obtain ⟨rfl, hn⟩ := h
  have hd := Program.maxDepth_ofTerm t
  have hclear : stack.clear.Holds t.fold.need [] := Stack.holds_clear (hn.trans hd)
  obtain ⟨stack', hs', e⟩ := steps_instructions read (Program.ofTerm t).operands t.fold [] [] 0 outside
    hclear (by simp) (by simp [Program.ofTerm, Program.ofParts])
  refine ⟨{ program := .ofTerm t, stack := stack' }, ⟨rfl, hs'.size.trans hd.symm⟩, ?_⟩
  simp only [List.append_nil] at e
  simp only [run, Program.ofTerm, Program.ofParts] at e ⊢
  rw [e]
  simp only [steps, hs'.top, Except.map, Term.eval_fold]

end Interpreter

end ReversePolish
