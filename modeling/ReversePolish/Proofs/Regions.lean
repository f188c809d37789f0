/-
  ReversePolish.Proofs.Regions — executable memory is freed exactly once.

  The books of a workshop (`Books`) have two parts. The ledger says of every number
  whether its region was freed: exactly once, unless its routine is there and was not
  released. The records say which program a routine was compiled from, and that it counts
  as released from its first release on. Every deed keeps both (`act_books`), whichever
  routine it is done to.

  So the events of freeing are as many as the regions opened less the routines there
  and not released (`Ledger.balance`), and with the books it is known what each deed does
  next (`run_accounts`).
-/

import Mathlib.Order.Interval.Finset.Nat
import ReversePolish.Proofs.Usage
import ReversePolish.Proofs.Workshop

namespace ReversePolish

variable {ι σ : Type}

namespace Workshop

/-! ### What is freed -/

/-- How often the region of a number has to be freed by now: once, unless its routine is there and was not
    released. -/
def due (first : Nat) (w : Workshop ι σ) (n : Nat) : Nat :=
  if first ≤ n ∧ n < w.compiler.functions ∧ w.held n = false then 1 else 0

structure Ledger (first : Nat) (w : Workshop ι σ) : Prop where
  first_le : first ≤ w.compiler.functions
  present : ∀ m, (w.routines m).isSome → first ≤ m ∧ m < w.compiler.functions
  freed : ∀ m, w.freed.count m = w.due first m
  events : w.events.count .regionReleased = w.freed.length

theorem routines_eq_none {first m : Nat} {w : Workshop ι σ} (h : w.Ledger first) (hm : w.compiler.functions ≤ m) :
    w.routines m = none := by
  by_contra hne
  have := (h.present m (Option.ne_none_iff_isSome.mp hne)).2
  omega

theorem due_eq_zero {first n : Nat} {w : Workshop ι σ} (h : w.held n = true ∨ w.compiler.functions ≤ n) :
    w.due first n = 0 := by
  refine if_neg ?_
  rintro ⟨-, hlt, hfalse⟩
  rcases h with h | h
  · rw [h] at hfalse
    cases hfalse
  · omega

theorem due_eq_one {first n : Nat} {w : Workshop ι σ} (hn : first ≤ n ∧ n < w.compiler.functions)
    (h : w.held n = false) : w.due first n = 1 := if_pos ⟨hn.1, hn.2, h⟩

theorem due_pos_iff {first n : Nat} {w : Workshop ι σ} :
    0 < w.due first n ↔ first ≤ n ∧ n < w.compiler.functions ∧ w.held n = false := by
  unfold due
  split
  · rename_i h
    exact ⟨fun _ => h, fun _ => Nat.one_pos⟩
  · rename_i h
    exact ⟨nofun, fun h' => absurd h' h⟩

theorem due_put {first n : Nat} {w : Workshop ι σ} {r : Option (Routine ι)}
    (hn : first ≤ n ∧ n < w.compiler.functions) (hr : (r.any fun r => !r.region.isReleased) = false) :
    (w.put n r).due first n = 1 := by
  rw [← held_put w n r] at hr
  exact due_eq_one hn hr

@[simp] theorem due_report (first : Nat) (w : Workshop ι σ) (n : Nat) (events : List Event) (m : Nat) :
    (w.report n events).due first m = w.due first m := rfl

theorem due_congr (first : Nat) {w w' : Workshop ι σ} {m : Nat} (hr : w'.routines m = w.routines m)
    (hlt : m < w'.compiler.functions ↔ m < w.compiler.functions) : w'.due first m = w.due first m := by
  have hheld : w'.held m = w.held m := by rw [held, held, hr]
  simp only [due, hheld, hlt]

/-- What happens to one region is right if it is freed as often as it becomes due. -/
theorem Ledger.put_report {first n : Nat} {w : Workshop ι σ} (h : w.Ledger first) {compiler : Compiler} {outside : σ}
    {r : Option (Routine ι)} {events : List Event} (hle : w.compiler.functions ≤ compiler.functions)
    (hother : ∀ m, m ≠ n → m < compiler.functions → m < w.compiler.functions)
    (hn : first ≤ n ∧ n < compiler.functions)
    (hdue : ({ w with compiler, outside }.put n r).due first n = w.due first n + events.count .regionReleased) :
    (({ w with compiler, outside }.put n r).report n events).Ledger first := by
  generalize hw' : { w with compiler, outside }.put n r = w' at hdue ⊢
  have hsame (m : Nat) (hmn : m ≠ n) : w'.routines m = w.routines m := by
    rw [← hw', put_routines, Function.update_of_ne hmn]
  obtain ⟨hfun, hfreed, hevents⟩ : w'.compiler = compiler ∧ w'.freed = w.freed ∧ w'.events = w.events := by
    rw [← hw']
    exact ⟨rfl, rfl, rfl⟩
  rw [← hfun] at hle hother hn
  refine ⟨h.first_le.trans hle, ?_, ?_, ?_⟩
  · intro m hm
    by_cases hmn : m = n
    · exact hmn ▸ hn
    · obtain ⟨hlo, hhi⟩ := h.present m (hsame m hmn ▸ hm)
      exact ⟨hlo, Nat.lt_of_lt_of_le hhi hle⟩
  · intro m
    rw [due_report, report, hfreed, List.count_append, h.freed m]
    by_cases hmn : m = n
    · subst hmn
      rw [List.count_replicate_self, hdue]
    · rw [List.count_replicate, if_neg (by simpa using Ne.symm hmn), Nat.add_zero]
      exact (due_congr first (hsame m hmn) ⟨hother m hmn, fun hm => Nat.lt_of_lt_of_le hm hle⟩).symm
  · simp only [report, hfreed, hevents, List.count_append, List.length_append, List.length_replicate, h.events]

/-- Freed or held: so many regions were opened. -/
theorem Ledger.balance {first : Nat} {w : Workshop ι σ} (h : w.Ledger first) :
    w.events.count .regionReleased + ((Finset.Ico first w.compiler.functions).filter fun n => w.held n = true).card =
      w.compiler.functions - first := by
  have hnodup : w.freed.Nodup := by
    rw [List.nodup_iff_count_le_one]
    intro n
    rw [h.freed n, due]
    split <;> omega
  have hfreed : w.freed.toFinset = (Finset.Ico first w.compiler.functions).filter fun n => ¬ w.held n = true := by
    ext n
    rw [List.mem_toFinset, ← List.count_pos_iff, h.freed n, due_pos_iff]
    simp [and_assoc]
  rw [h.events, ← List.toFinset_card_of_nodup hnodup, hfreed, Nat.add_comm, Finset.card_filter_add_card_filter_not,
    Nat.card_Ico]

/-! ### What was done -/

/-- The routines there are those that were compiled; they are released when they were released before, and
    evaluate their programs until then. -/
structure Records (log : List (Deed ι σ × Answer ι)) (w : Workshop ι σ) : Prop where
  present : ∀ m r, w.routines m = some r →
    (r.region = .released ↔ (.release m, .done) ∈ log) ∧ ∃ p, (.compile p, .compiled m) ∈ log
  released : ∀ m, (.release m, .done) ∈ log → m < w.compiler.functions
  compiled : ∀ m p, (.compile p, .compiled m) ∈ log → m < w.compiler.functions ∧
    ∀ r, w.routines m = some r → ∃ t, p = .ofTerm t ∧ (r.region = .live → r.Serves t.fold)

/-- What neither compiles nor releases a routine may drop one, or use it. -/
theorem Records.quiet {log : List (Deed ι σ × Answer ι)} {entry : Deed ι σ × Answer ι} {w w' : Workshop ι σ}
    (h : w.Records log) (hrel : ∀ m, (.release m, .done) ≠ entry) (hcomp : ∀ m p, (.compile p, .compiled m) ≠ entry)
    (hle : w.compiler.functions ≤ w'.compiler.functions)
    (hsub : ∀ m r', w'.routines m = some r' →
      ∃ r, w.routines m = some r ∧ r'.region = r.region ∧ ∀ t, r.Serves t → r'.Serves t) :
    w'.Records (log ++ [entry]) := by
  have hr (m : Nat) : (.release m, .done) ∈ log ++ [entry] ↔ (.release m, .done) ∈ log := by
    simp only [List.mem_append, List.mem_singleton, hrel m, or_false]
  have hc (m : Nat) (p : Program ι) : (.compile p, .compiled m) ∈ log ++ [entry] ↔ (.compile p, .compiled m) ∈ log := by
    simp only [List.mem_append, List.mem_singleton, hcomp m p, or_false]
  refine ⟨?_, ?_, ?_⟩
  · intro m r' hm
    obtain ⟨r, hw, hregion, -⟩ := hsub m r' hm
    simp only [hr, hc, hregion]
    exact h.present m r hw
  · intro m hm
    exact Nat.lt_of_lt_of_le (h.released m ((hr m).mp hm)) hle
  · intro m p hm
    obtain ⟨hlt, hall⟩ := h.compiled m p ((hc m p).mp hm)
    refine ⟨Nat.lt_of_lt_of_le hlt hle, ?_⟩
    intro r' hm'
    obtain ⟨r, hw, hregion, hserves⟩ := hsub m r' hm'
    obtain ⟨t, rfl, hs⟩ := hall r hw
    exact ⟨t, rfl, fun hlive => hserves _ (hs (hregion ▸ hlive))⟩

theorem Records.release {log : List (Deed ι σ × Answer ι)} {w : Workshop ι σ} {n : Nat} {r : Routine ι}
    (h : w.Records log) (hw : w.routines n = some r) (events : List Event) :
    ((w.put n (some { r with region := .released })).report n events).Records (log ++ [(.release n, .done)]) := by
  obtain ⟨-, p, hp⟩ := h.present n r hw
  refine ⟨?_, ?_, ?_⟩
  · intro m r' hm
    by_cases hmn : m = n
    · subst hmn
      obtain rfl : _ = r' := by simpa using hm
      exact ⟨by simp, p, List.mem_append_left _ hp⟩
    · obtain ⟨hr, q, hq⟩ := h.present m r' (by simpa [Function.update_of_ne hmn] using hm)
      exact ⟨by simpa [hmn] using hr, q, List.mem_append_left _ hq⟩
  · intro m hm
    rcases List.mem_append.mp hm with hm | hm
    · exact h.released m hm
    · obtain rfl : m = n := by simpa using hm
      exact (h.compiled m p hp).1
  · intro m q hm
    obtain ⟨hlt, hall⟩ := h.compiled m q (by simpa using hm)
    refine ⟨hlt, ?_⟩
    intro r' hm'
    by_cases hmn : m = n
    · subst hmn
      obtain rfl : _ = r' := by simpa using hm'
      obtain ⟨t, rfl, -⟩ := hall r hw
      exact ⟨t, rfl, nofun⟩
    · exact hall r' (by simpa [Function.update_of_ne hmn] using hm')

theorem Records.compile {log : List (Deed ι σ × Answer ι)} {w : Workshop ι σ} {r : Routine ι} {p : Program ι}
    {t : Term (Operand ι)} (h : w.Records log) (hp : p = .ofTerm t) (hr : r.Serves t.fold) (events : List Event) :
    (({ w with compiler := w.compiler.counted }.put w.compiler.functions (some r)).report w.compiler.functions
      events).Records (log ++ [(Deed.compile p, Answer.compiled w.compiler.functions)]) := by
  refine ⟨?_, ?_, ?_⟩
  · intro m r' hm
    by_cases hmn : m = w.compiler.functions
    · subst hmn
      obtain rfl : r = r' := by simpa using hm
      refine ⟨?_, p, by simp⟩
      have hnone : (.release w.compiler.functions, .done) ∉ log := fun hrel => Nat.lt_irrefl _ (h.released _ hrel)
      simp [hr.live, hnone]
    · obtain ⟨hrel, q, hq⟩ := h.present m r' (by simpa [Function.update_of_ne hmn] using hm)
      exact ⟨by simpa using hrel, q, List.mem_append_left _ hq⟩
  · intro m hm
    have := h.released m (by simpa using hm)
    simp only [report_compiler, put_compiler, Compiler.counted]
    omega
  · intro m q hm
    rcases List.mem_append.mp hm with hm | hm
    · obtain ⟨hlt, hall⟩ := h.compiled m q hm
      have hmn : m ≠ w.compiler.functions := by omega
      refine ⟨by simp only [report_compiler, put_compiler, Compiler.counted]; omega, ?_⟩
      intro r' hm'
      exact hall r' (by simpa [Function.update_of_ne hmn] using hm')
    · obtain ⟨rfl, rfl⟩ : q = p ∧ m = w.compiler.functions := by simpa using hm
      refine ⟨Nat.lt_succ_self _, ?_⟩
      intro r' hm'
      obtain rfl : r = r' := by simpa using hm'
      exact ⟨t, hp, fun _ => hr⟩

/-! ### Every deed -/

structure Books (first : Nat) (log : List (Deed ι σ × Answer ι)) (w : Workshop ι σ) : Prop where
  ledger : w.Ledger first
  records : w.Records log

variable (read : Reader ι σ) {first : Nat} {log : List (Deed ι σ × Answer ι)} {w : Workshop ι σ}

theorem Books.quiet (h : w.Books first log) {entry : Deed ι σ × Answer ι} (hrel : ∀ m, (.release m, .done) ≠ entry)
    (hcomp : ∀ m p, (.compile p, .compiled m) ≠ entry) : w.Books first (log ++ [entry]) :=
  ⟨h.ledger, h.records.quiet hrel hcomp (Nat.le_refl _) fun _ r hr => ⟨r, hr, rfl, fun _ => id⟩⟩

/-- A routine that is there and not released evaluates every program that was compiled for it. -/
theorem Books.serves (h : w.Books first log) {n : Nat} {r : Routine ι} (hw : w.routines n = some r)
    (hr : r.region = .live) {p : Program ι} (hp : (.compile p, .compiled n) ∈ log) :
    ∃ t, p = .ofTerm t ∧ r.Serves t.fold := by
  obtain ⟨t, ht, hs⟩ := (h.records.compiled n p hp).2 r hw
  exact ⟨t, ht, hs hr⟩

theorem books_compile (h : w.Books first log) {p : Program ι} (hp : p.IsMade) :
    (w.act read (.compile p)).2.Books first (log ++ [(.compile p, (w.act read (.compile p)).1)]) := by
  cases hu : p.unsupported? with
  | some o =>
    rw [act_compile_unsupported read w hu]
    exact h.quiet (by simp) (by simp)
  | none =>
    have hnone := routines_eq_none h.ledger (Nat.le_refl _)
    have hzero : w.due first w.compiler.functions = 0 := due_eq_zero (Or.inr (Nat.le_refl _))
    have hother (m : Nat) (hm : m ≠ w.compiler.functions) (hlt : m < w.compiler.counted.functions) :
        m < w.compiler.functions := by
      simp only [Compiler.counted] at hlt
      omega
    have hn : first ≤ w.compiler.functions ∧ w.compiler.functions < w.compiler.counted.functions :=
      ⟨h.ledger.first_le, Nat.lt_succ_self _⟩
    rcases act_compile_cases read w hu with ⟨size, hact⟩ | ⟨r, size, hlive, hr, hact⟩
    · rw [hact, ← put_self (w := { w with compiler := w.compiler.counted }) hnone]
      refine ⟨h.ledger.put_report (Nat.le_succ _) hother hn ?_, h.records.quiet (by simp) (by simp) (Nat.le_succ _) ?_⟩
      · rw [hzero, due_put hn rfl]
        rfl
      · intro m r hm
        rw [report_routines, put_routines, ← hnone, Function.update_eq_self] at hm
        exact ⟨r, hm, rfl, fun _ => id⟩
    · obtain ⟨t, rfl⟩ := Program.exists_term_of_isMade hp
      rw [hact]
      refine ⟨h.ledger.put_report (Nat.le_succ _) hother hn ?_, h.records.compile rfl (Compiler.serves_of_compile hr) _⟩
      rw [hzero, due_eq_zero (Or.inl (by simp [hlive, Region.isReleased]))]
      rfl

theorem books_call (h : w.Books first log) (n : Nat) :
    (w.act read (.call n)).2.Books first (log ++ [(.call n, (w.act read (.call n)).1)]) := by
  cases hw : w.routines n with
  | none =>
    simp only [act, hw]
    exact h.quiet (by simp) (by simp)
  | some r =>
    cases hr : r.region with
    | released =>
      rw [act_call_released read hw hr]
      exact h.quiet (by simp) (by simp)
    | live =>
      obtain ⟨-, p, hp⟩ := h.records.present n r hw
      obtain ⟨t, rfl, hs⟩ := h.serves hw hr hp
      obtain ⟨r', hr', hact⟩ := act_call_of_serves read hw hs
      have hlive : r'.region = .live := (hr' _ hs).live
      rw [hact, ← report_nil (Workshop.put _ _ _) n]
      refine ⟨h.ledger.put_report (Nat.le_refl _) (fun _ _ => id) (h.ledger.present n (by simp [hw])) ?_,
        h.records.quiet (by simp) (by simp) (Nat.le_refl _) ?_⟩
      · rw [due_eq_zero (Or.inl (held_of_live hw hr)), due_eq_zero (Or.inl (by simp [hlive, Region.isReleased]))]
        rfl
      · intro m r₁ hm
        by_cases hmn : m = n
        · subst hmn
          obtain rfl : r' = r₁ := by simpa using hm
          exact ⟨r, hw, hlive.trans hr.symm, hr'⟩
        · exact ⟨r₁, by simpa [Function.update_of_ne hmn] using hm, rfl, fun _ => id⟩

theorem books_release (h : w.Books first log) (n : Nat) :
    (w.act read (.release n)).2.Books first (log ++ [(.release n, (w.act read (.release n)).1)]) := by
  cases hw : w.routines n with
  | none =>
    simp only [act, hw]
    exact h.quiet (by simp) (by simp)
  | some r =>
    have hn := h.ledger.present n (by simp [hw])
    cases hr : r.region with
    | released =>
      rw [act_release_released read hw hr]
      exact h.quiet (by simp) (by simp)
    | live =>
      rw [act_release_live read hw hr]
      refine ⟨h.ledger.put_report (Nat.le_refl _) (fun _ _ => id) hn ?_, h.records.release hw _⟩
      rw [due_put hn rfl, due_eq_zero (Or.inl (held_of_live hw hr))]
      rfl

theorem books_drop (h : w.Books first log) (n : Nat) :
    (w.act read (.drop n)).2.Books first (log ++ [(.drop n, (w.act read (.drop n)).1)]) := by
  cases hw : w.routines n with
  | none =>
    simp only [act, hw]
    exact h.quiet (by simp) (by simp)
  | some r =>
    have hn := h.ledger.present n (by simp [hw])
    have hsub (m : Nat) (r₁ : Routine ι) (hm : (w.put n none).routines m = some r₁) : w.routines m = some r₁ := by
      by_cases hmn : m = n
      · subst hmn
        simp at hm
      · simpa [Function.update_of_ne hmn] using hm
    cases hr : r.region with
    | released =>
      rw [act_drop_released read hw hr, ← report_nil (Workshop.put _ _ _) n]
      refine ⟨h.ledger.put_report (Nat.le_refl _) (fun _ _ => id) hn ?_,
        h.records.quiet (by simp) (by simp) (Nat.le_refl _) fun m r₁ hm => ⟨r₁, hsub m r₁ hm, rfl, fun _ => id⟩⟩
      rw [due_put hn rfl, due_eq_one hn (held_of_released hw hr)]
      rfl
    | live =>
      rw [act_drop_live read hw hr]
      refine ⟨h.ledger.put_report (Nat.le_refl _) (fun _ _ => id) hn ?_,
        h.records.quiet (by simp) (by simp) (Nat.le_refl _) fun m r₁ hm => ⟨r₁, hsub m r₁ hm, rfl, fun _ => id⟩⟩
      rw [due_put hn rfl, due_eq_zero (Or.inl (held_of_live hw hr))]
      rfl

/-- Every deed keeps the books. -/
theorem act_books (h : w.Books first log) (deed : Deed ι σ) (hmade : ∀ p, deed = .compile p → p.IsMade) :
    (w.act read deed).2.Books first (log ++ [(deed, (w.act read deed).1)]) := by
  cases deed with
  | compile p => exact books_compile read h (hmade p rfl)
  | call n => exact books_call read h n
  | release n => exact books_release read h n
  | drop n => exact books_drop read h n
  | change f => exact ⟨⟨h.ledger.first_le, h.ledger.present, h.ledger.freed, h.ledger.events⟩,
      h.records.quiet (by simp) (by simp) (Nat.le_refl _) fun _ r hr => ⟨r, hr, rfl, fun _ => id⟩⟩

theorem run_books (deeds : List (Deed ι σ)) (h : w.Books first log) (hmade : ∀ p, .compile p ∈ deeds → p.IsMade) :
    (run read deeds w).2.Books first (log ++ (run read deeds w).1) := by
  induction deeds generalizing log w with
  | nil => simpa [run] using h
  | cons deed rest ih =>
    have hstep := act_books read h deed fun p hp => hmade p (by simp [hp])
    have hrest := ih hstep fun p hp => hmade p (List.mem_cons_of_mem _ hp)
    rw [List.append_assoc] at hrest
    exact hrest

/-! ### The accounts -/

structure Accounts (first : Nat) (log : List (Deed ι σ × Answer ι)) (w : Workshop ι σ) : Prop where
  /-- A region that was opened is freed once, unless its routine is there and was not released. -/
  freed : ∀ n, first ≤ n → n < w.compiler.functions → w.freed.count n = if w.held n then 0 else 1
  /-- No other region is freed or held. -/
  opened : ∀ n, n ∈ w.freed ∨ w.held n = true → first ≤ n ∧ n < w.compiler.functions
  balance :
    w.events.count .regionReleased + ((Finset.Ico first w.compiler.functions).filter fun n => w.held n = true).card =
      w.compiler.functions - first
  /-- A routine is released from its first release on. -/
  released : ∀ n r, w.routines n = some r → (r.region.isReleased = true ↔ (.release n, .done) ∈ log)
  compiled : ∀ n r, w.routines n = some r → ∃ p, (.compile p, .compiled n) ∈ log
  /-- An operator without a native instruction is refused before anything happens. -/
  compileUnsupported : ∀ p o, p.unsupported? = some o → w.act read (.compile p) = (.refused (.unsupported o), w)
  /-- Any other compilation opens a region, and frees it once if the code is too large. -/
  compileNative : ∀ p : Program ι, p.unsupported? = none →
    (∃ size, w.act read (.compile p) =
      (.refused (.tooLarge size w.compiler.codeLimit),
        { w with compiler := w.compiler.counted }.report w.compiler.functions
          [.codeGenerated, .codeTooLarge size w.compiler.codeLimit, .regionReleased])) ∨
    ∃ r size, r.region = .live ∧ w.act read (.compile p) =
      (.compiled w.compiler.functions,
        ({ w with compiler := w.compiler.counted }.put w.compiler.functions (some r)).report w.compiler.functions
          [.codeGenerated, .codeAccepted w.compiler.functionName size p.ops.size])
  /-- A call gives what the routine gives when it is called, and fails where that fails. -/
  callGives : ∀ n r x r' outside reads, w.routines n = some r →
    r.call read.logged (w.outside, []) = .ok (x, r', outside, reads) →
    w.act read (.call n) = (.value x reads, { w with outside }.put n (some r'))
  callFails : ∀ n r f, w.routines n = some r → r.call read.logged (w.outside, []) = .error f →
    ∃ reads, (w.act read (.call n)).1 = .fault f reads
  /-- A call gives what the routine's own program gives, and leaves all else as it was. -/
  callLive : ∀ n r p, w.routines n = some r → r.region = .live → (.compile p, .compiled n) ∈ log →
    ∃ x m outside reads r',
      (Interpreter.ofProgram p).run read.logged (w.outside, []) = .ok (x, m, outside, reads) ∧
      r'.region = .live ∧ w.act read (.call n) = (.value x reads, { w with outside }.put n (some r'))
  callReleased : ∀ n r, w.routines n = some r → r.region = .released →
    w.act read (.call n) = (.fault .calledAfterRelease [], w)
  releaseLive : ∀ n r, w.routines n = some r → r.region = .live →
    w.act read (.release n) =
      (.done, (w.put n (some { r with region := .released })).report n [.regionReleased])
  releaseReleased : ∀ n r, w.routines n = some r → r.region = .released →
    w.act read (.release n) = (.fault .releasedTwice [], w)
  dropLive : ∀ n r, w.routines n = some r → r.region = .live →
    w.act read (.drop n) = (.done, (w.put n none).report n [.regionReleased])
  dropReleased : ∀ n r, w.routines n = some r → r.region = .released →
    w.act read (.drop n) = (.done, w.put n none)

theorem Books.accounts (h : w.Books first log) : w.Accounts read first log := by
  refine ⟨?_, ?_, h.ledger.balance, ?_, ?_, ?_, ?_, ?_, ?_, ?_, ?_, ?_, ?_, ?_, ?_⟩
  · intro n hlo hhi
    rw [h.ledger.freed n]
    cases hn : w.held n with
    | true => exact due_eq_zero (Or.inl hn)
    | false => exact due_eq_one ⟨hlo, hhi⟩ hn
  · rintro n (hn | hn)
    · rw [← List.count_pos_iff, h.ledger.freed n, due_pos_iff] at hn
      exact ⟨hn.1, hn.2.1⟩
    · exact h.ledger.present n (Option.isSome_of_any hn)
  · intro n r hw
    rw [← (h.records.present n r hw).1]
    cases r.region with
    | live => exact ⟨nofun, nofun⟩
    | released => exact ⟨fun _ => rfl, fun _ => rfl⟩
  · intro n r hw
    exact (h.records.present n r hw).2
  · intro p o hp
    exact act_compile_unsupported read w hp
  · intro p hp
    rcases act_compile_cases read w hp with hlarge | ⟨r, size, hr, -, hact⟩
    · exact Or.inl hlarge
    · exact Or.inr ⟨r, size, hr, hact⟩
  · intro n r x r' outside reads hw hc
    exact act_call_ok read hw hc
  · intro n r f hw hc
    exact act_call_error read hw hc
  · intro n r p hw hr hp
    obtain ⟨t, rfl, hs⟩ := h.serves hw hr hp
    obtain ⟨r', hr', hact⟩ := act_call_of_serves read hw hs
    obtain ⟨m, -, hm⟩ := Interpreter.run_ofTerm read.logged (Interpreter.serves_ofProgram (.ofTerm t)) (w.outside, [])
    rw [← Term.eval_fold, Term.eval_logged, List.nil_append] at hm
    exact ⟨_, m, _, _, r', hm, (hr' _ hs).live, hact⟩
  · intro n r hw hr
    exact act_call_released read hw hr
  · intro n r hw hr
    exact act_release_live read hw hr
  · intro n r hw hr
    exact act_release_released read hw hr
  · intro n r hw hr
    exact act_drop_live read hw hr
  · intro n r hw hr
    exact act_drop_released read hw hr

/-- Whatever is compiled, called, released and dropped, in any order: every region is freed exactly once, at
    the latest when its routine is dropped, and no routine matters to another. -/
theorem run_accounts (c : Compiler) (outside : σ) (deeds : List (Deed ι σ))
    (hmade : ∀ p, .compile p ∈ deeds → p.IsMade) :
    (run read deeds { compiler := c, outside }).2.Accounts read c.functions
      (run read deeds { compiler := c, outside }).1 := by
  have start : ({ compiler := c, outside } : Workshop ι σ).Books c.functions [] := by
    refine ⟨⟨Nat.le_refl _, nofun, ?_, rfl⟩, nofun, nofun, nofun⟩
    intro n
    rw [due, if_neg (by simp only; omega)]
    rfl
  have h := run_books read deeds start hmade
  rw [List.nil_append] at h
  exact h.accounts read

/-- A routine is released, called and dropped, and a second one stays: one region is freed, and only once. -/
theorem run_accounts_release_then_drop :
    ∃ p log w, (Program.parse (some Resolver.itself) "x 1 +" ()).result = .ok p ∧
      run (fun _ n => (n.toFloat, n + 1)) [.compile p, .release 0, .call 0, .drop 0, .compile p, .call 1]
        { compiler := { target := .host, optLevel := .speed, codeLimit := 64 }, outside := 0 } = (log, w) ∧
      w.Accounts (fun _ n => (n.toFloat, n + 1)) 0 log ∧ w.freed = [0] ∧ w.held 1 = true ∧ w.outside = 1 := by
  have hw : (Program.parse (some Resolver.itself) "x 1 +" ()).result.map (fun p =>
      let w := (run (fun _ n => (n.toFloat, n + 1))
        [.compile p, .release 0, .call 0, .drop 0, .compile p, .call 1]
        { compiler := { target := .host, optLevel := .speed, codeLimit := 64 }, outside := 0 }).2
      (w.freed, w.held 1, w.outside)) = .ok ([0], true, 1) := by
    decide +kernel
  cases hp : (Program.parse (some Resolver.itself) "x 1 +" ()).result with
  | error e => rw [hp] at hw; cases hw
  | ok p =>
    have hmade : p.IsMade := ⟨Unit, _, (), _, .parse hp⟩
    have h := run_accounts (fun _ n => (n.toFloat, n + 1)) { target := .host, optLevel := .speed, codeLimit := 64 } 0
      [.compile p, .release 0, .call 0, .drop 0, .compile p, .call 1] (by simpa using hmade)
    rw [hp] at hw
    simp only [Except.map, Except.ok.injEq, Prod.mk.injEq] at hw
    generalize hrun : run _ _ _ = result at h hw
    exact ⟨p, result.1, result.2, rfl, hrun, h, hw⟩

end Workshop

end ReversePolish
