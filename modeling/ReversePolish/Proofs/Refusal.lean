/-
  ReversePolish.Proofs.Refusal — a refused token leaves no trace.

  A token is refused because an operator finds too few values, because there is no
  resolver, or because the resolver has no source for it. In each case the assembler is
  the one it was before (`push_error`). The resolver was asked, though, and its state may
  be another. If it goes by the name, its state shows nowhere: assemblers that hold the
  same answer every further token alike (`answers_alike`).

  So the assembler that some tokens were offered to is the assembler that only the taken
  ones were offered to. The same comes of finishing it, and later tokens are answered
  alike, errors with their positions included (`refusals_leave_no_trace`).
-/

import ReversePolish.Proofs.Usage

namespace ReversePolish

variable {τ ι : Type}

namespace Assembler

theorem pushOperator_error {a : Assembler ι} {o : Operator} {token : String} {e : BuildError}
    (h : (a.pushOperator o token).1 = .error e) : (a.pushOperator o token).2.1 = a := by
  rcases a with ⟨ops, operands, pending, position, folded⟩
  match pending with
  | [] => rfl
  | [some rhs] => rfl
  | [none] => rfl
  | some rhs :: some lhs :: rest => cases h
  | some rhs :: none :: rest => cases h
  | none :: lhs :: rest => cases h

/-- A refused token leaves the assembler as it was. -/
theorem push_error {resolver : Option (Resolver τ ι)} {token : String} {a : Assembler ι} {s : τ} {e : BuildError}
    (h : (a.push resolver token s).1.result = .error e) : (a.push resolver token s).2 = a := by
  unfold push at h ⊢
  cases ho : Operator.ofSymbol? token with
  | some o =>
    simp only [ho] at h
    exact pushOperator_error h
  | none =>
    simp only [ho] at h
    rcases hr : readValue resolver token s with ⟨e' | source, s', events⟩
    · rfl
    · rw [hr] at h
      cases h

theorem push_byName {resolver : Option (Resolver τ ι)} (hr : ∀ r ∈ resolver, r.ByName) (token : String)
    (a : Assembler ι) (s s' : τ) :
    (a.push resolver token s).1.result = (a.push resolver token s').1.result ∧
      (a.push resolver token s).2 = (a.push resolver token s').2 := by
  unfold push
  cases Operator.ofSymbol? token with
  | some o => exact ⟨rfl, rfl⟩
  | none =>
    have h := readValue_byName hr token s s'
    rcases h₁ : readValue resolver token s with ⟨e | source, t, events⟩ <;>
      rcases h₂ : readValue resolver token s' with ⟨e' | source', t', events'⟩ <;> rw [h₁, h₂] at h <;> cases h
    · exact ⟨rfl, rfl⟩
    · exact ⟨rfl, rfl⟩

end Assembler

namespace Use

def answer (resolver : Option (Resolver τ ι)) (u : Use τ ι) (token : String) : Except BuildError Unit :=
  (u.assembler.push resolver token u.lookups).1.result

def answers (resolver : Option (Resolver τ ι)) (u : Use τ ι) : List String → List (Except BuildError Unit)
  | [] => []
  | token :: rest => u.answer resolver token :: (u.offer resolver token).answers resolver rest

theorem assembler_offer (resolver : Option (Resolver τ ι)) (u : Use τ ι) (token : String) :
    (u.offer resolver token).assembler = (u.assembler.push resolver token u.lookups).2 := by
  unfold offer
  rcases u.assembler.push resolver token u.lookups with ⟨⟨e | x, s, events⟩, a⟩ <;> rfl

theorem offer_error {resolver : Option (Resolver τ ι)} {u : Use τ ι} {token : String} {e : BuildError}
    (h : u.answer resolver token = .error e) :
    (u.offer resolver token).assembler = u.assembler ∧ (u.offer resolver token).taken = u.taken := by
  refine ⟨?_, ?_⟩
  · rw [assembler_offer]
    exact Assembler.push_error h
  · unfold answer at h
    unfold offer
    rcases hp : u.assembler.push resolver token u.lookups with ⟨⟨e' | x, s, events⟩, a⟩
    · rfl
    · rw [hp] at h
      cases h

theorem offer_ok {resolver : Option (Resolver τ ι)} {u : Use τ ι} {token : String}
    (h : u.answer resolver token = .ok ()) : (u.offer resolver token).taken = u.taken ++ [token] := by
  unfold answer at h
  unfold offer
  rcases hp : u.assembler.push resolver token u.lookups with ⟨⟨e' | x, s, events⟩, a⟩
  · rw [hp] at h
    cases h
  · rfl

/-! ## Assemblers that hold the same -/

theorem offer_alike {resolver : Option (Resolver τ ι)} (hr : ∀ r ∈ resolver, r.ByName) {u v : Use τ ι}
    (h : u.assembler = v.assembler) (token : String) :
    u.answer resolver token = v.answer resolver token ∧
      (u.offer resolver token).assembler = (v.offer resolver token).assembler := by
  rw [assembler_offer, assembler_offer, answer, answer, h]
  exact Assembler.push_byName hr token v.assembler u.lookups v.lookups

theorem answers_alike {resolver : Option (Resolver τ ι)} (hr : ∀ r ∈ resolver, r.ByName) {u v : Use τ ι}
    (h : u.assembler = v.assembler) (tokens : List String) : u.answers resolver tokens = v.answers resolver tokens := by
  induction tokens generalizing u v with
  | nil => rfl
  | cons token rest ih =>
    obtain ⟨ha, hn⟩ := offer_alike hr h token
    rw [answers, answers, ha, ih hn]

/-- Of the tokens offered to one assembler, another that holds the same takes those that the first took, and
    ends where the first one does. -/
theorem exists_kept {resolver : Option (Resolver τ ι)} (hr : ∀ r ∈ resolver, r.ByName) {u v : Use τ ι}
    (h : u.assembler = v.assembler) (tokens : List String) :
    ∃ kept, (tokens.foldl (offer resolver) u).taken = u.taken ++ kept ∧
      (kept.foldl (offer resolver) v).taken = v.taken ++ kept ∧
      (kept.foldl (offer resolver) v).assembler = (tokens.foldl (offer resolver) u).assembler ∧
      v.answers resolver kept = kept.map fun _ => .ok () := by
  induction tokens generalizing u v with
  | nil => exact ⟨[], by simp, by simp, h.symm, rfl⟩
  | cons token rest ih =>
    obtain ⟨ha, hn⟩ := offer_alike hr h token
    cases hu : u.answer resolver token with
    | error e =>
      -- the first assembler is as it was, and the second one never sees the token
      obtain ⟨hsame, htaken⟩ := offer_error hu
      obtain ⟨kept, hk, hv, hend, hok⟩ := ih (hsame.trans h)
      exact ⟨kept, by rw [List.foldl_cons, hk, htaken], hv, hend, hok⟩
    | ok x =>
      obtain ⟨kept, hk, hv, hend, hok⟩ := ih hn
      have hvtoken : v.answer resolver token = .ok () := ha.symm.trans hu
      refine ⟨token :: kept, ?_, ?_, hend, ?_⟩
      · rw [List.foldl_cons, hk, offer_ok hu, List.append_assoc, List.singleton_append]
      · rw [List.foldl_cons, hv, offer_ok hvtoken, List.append_assoc, List.singleton_append]
      · rw [answers, hvtoken, hok, List.map_cons]

/-- Nothing that is asked of an assembler in use tells the two apart. -/
structure Same (resolver : Option (Resolver τ ι)) (u v : Use τ ι) : Prop where
  assembler : u.assembler = v.assembler
  taken : u.taken = v.taken
  finish : u.assembler.finish = v.assembler.finish
  answers : ∀ tokens, u.answers resolver tokens = v.answers resolver tokens

end Use

/-- Refused, a token leaves an assembler as it was. So however tokens were offered, the assembler is the same
    that is offered the taken ones alone, of which it refuses none. -/
theorem refusals_leave_no_trace {resolver : Option (Resolver τ ι)} (hr : ∀ r ∈ resolver, r.ByName)
    (offered : List String) (s : τ) :
    (∀ (token : String) (s' : τ) (e : BuildError),
      ((Use.ofTokens resolver offered s).assembler.push resolver token s').1.result = .error e →
      ((Use.ofTokens resolver offered s).assembler.push resolver token s').2 =
        (Use.ofTokens resolver offered s).assembler) ∧
    ∀ s' : τ,
      Use.answers resolver { lookups := s' } (Use.ofTokens resolver offered s).taken =
        (Use.ofTokens resolver offered s).taken.map (fun _ => .ok ()) ∧
      Use.Same resolver (Use.ofTokens resolver (Use.ofTokens resolver offered s).taken s')
        (Use.ofTokens resolver offered s) := by
  refine ⟨?_, ?_⟩
  · intro token s' e h
    exact Assembler.push_error h
  · intro s'
    have hstart : ({ lookups := s } : Use τ ι).assembler = ({ lookups := s' } : Use τ ι).assembler := rfl
    obtain ⟨kept, hk, hv, hend, hok⟩ := Use.exists_kept hr hstart offered
    rw [List.nil_append] at hk hv
    have htaken : (Use.ofTokens resolver offered s).taken = kept := hk
    rw [htaken]
    exact ⟨hok, hend, hv.trans hk.symm, congrArg Assembler.finish hend, Use.answers_alike hr hend⟩

/-- Without a resolver a name, a blank and an operator over one value are refused, and folding goes on past them. -/
theorem refusals_leave_no_trace_between_constants :
    (Use.ofTokens (none : Option (Resolver Unit String)) ["1", "x", "+", "", "2", "a b", "+"] ()).taken =
      ["1", "2", "+"] ∧
    (∃ e, ((Use.ofTokens (none : Option (Resolver Unit String)) ["1", "x", "+", "", "2", "a b", "+"] ()).assembler.push
        none "^" ()).1.result = .error e ∧
      ((Use.ofTokens (none : Option (Resolver Unit String)) ["1", "x", "+", "", "2", "a b", "+"] ()).assembler.push
        none "^" ()).2 =
      (Use.ofTokens (none : Option (Resolver Unit String)) ["1", "x", "+", "", "2", "a b", "+"] ()).assembler) ∧
    Use.Same none (Use.ofTokens (none : Option (Resolver Unit String)) ["1", "2", "+"] ())
      (Use.ofTokens none ["1", "x", "+", "", "2", "a b", "+"] ()) := by
  have ht : (Use.ofTokens (none : Option (Resolver Unit String)) ["1", "x", "+", "", "2", "a b", "+"] ()).taken =
      ["1", "2", "+"] := by
    decide +kernel
  have he : ((Use.ofTokens (none : Option (Resolver Unit String)) ["1", "x", "+", "", "2", "a b", "+"] ()).assembler.push
      none "^" ()).1.result.toOption = none := by
    decide +kernel
  obtain ⟨hkeep, hsame⟩ := @refusals_leave_no_trace Unit String none (by simp) ["1", "x", "+", "", "2", "a b", "+"] ()
  obtain ⟨-, h⟩ := hsame ()
  rw [ht] at h
  refine ⟨ht, ?_, h⟩
  cases hp : ((Use.ofTokens (none : Option (Resolver Unit String)) ["1", "x", "+", "", "2", "a b", "+"]
      ()).assembler.push none "^" ()).1.result with
  | ok x => rw [hp] at he; cases he
  | error e => exact ⟨e, rfl, hkeep "^" () e hp⟩

end ReversePolish
