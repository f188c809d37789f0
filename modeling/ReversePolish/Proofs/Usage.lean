/-
  ReversePolish.Proofs.Usage — assemblers in use, and the programs made with them.

  Tokens are offered to an assembler one after another. A token that is refused is left
  out, and the assembler is used on, with the resolver in whatever state the refusal left
  it. So what it holds are the terms of the tokens taken (`holds_ofTokens`): these tokens
  are the postorders of its terms, whose leaves are value tokens and whose nodes are
  operator tokens.

  A program is made from a text in one go, or by finishing an assembler in use. Either
  way it is the program of the one term whose postorder was taken (`exists_term_of_made`).
-/

import ReversePolish.Proofs.Acceptance

namespace ReversePolish

variable {τ ι : Type}

/-! ## Offering tokens -/

structure Use (τ ι : Type) where
  assembler : Assembler ι := {}
  lookups : τ
  taken : List String := []

namespace Use

def offer (resolver : Option (Resolver τ ι)) (u : Use τ ι) (token : String) : Use τ ι :=
  match u.assembler.push resolver token u.lookups with
  | ({ result := .ok (), lookups, .. }, assembler) => { assembler, lookups, taken := u.taken ++ [token] }
  | ({ result := .error _, lookups, .. }, assembler) => { u with assembler, lookups }

def ofTokens (resolver : Option (Resolver τ ι)) (tokens : List String) (lookups : τ) : Use τ ι :=
  tokens.foldl (offer resolver) { lookups }

end Use

namespace Term

def Valued (t : Term (Operand ι)) : Prop := (t.map Operand.name).Values

theorem valued_leaf {operand : Operand ι} : (leaf operand).Valued ↔ Operator.ofSymbol? operand.name = none := by
  simp [Valued, Values, map, leaves]

theorem valued_node {o : Operator} {l r : Term (Operand ι)} : (node o l r).Valued ↔ l.Valued ∧ r.Valued := by
  simp only [Valued, Values, map, leaves, List.mem_append, or_imp, forall_and]

theorem valued_take {resolver : Option (Resolver τ ι)} {token : String} {ts us : List (Term (Operand ι))} {s s' : τ}
    (hts : ∀ t ∈ ts, t.Valued) (h : take resolver token ts s = (.ok us, s')) : ∀ t ∈ us, t.Valued := by
  unfold take at h
  split at h
  · split at h
    · rename_i r l rest
      cases h
      intro t ht
      rcases List.mem_cons.mp ht with rfl | ht
      · exact valued_node.mpr ⟨hts l (by simp), hts r (by simp)⟩
      · exact hts t (by simp [ht])
    · cases h
  · rename_i hv
    cases hs : (readValue resolver token s).result with
    | error e => rw [hs] at h; cases h
    | ok source =>
      rw [hs] at h
      cases h
      intro t ht
      rcases List.mem_cons.mp ht with rfl | ht
      · exact valued_leaf.mpr hv
      · exact hts t ht

end Term

namespace Use

/-- The assembler holds some terms, the last first, and their tokens are those taken. -/
structure Holds (u : Use τ ι) (ts : List (Term (Operand ι))) : Prop where
  assembler : u.assembler = .ofTerms ts
  taken : u.taken = Term.namesAll ts
  valued : ∀ t ∈ ts, t.Valued

theorem holds_offer {u : Use τ ι} {ts : List (Term (Operand ι))} (h : u.Holds ts) (resolver : Option (Resolver τ ι))
    (token : String) : ∃ us, (u.offer resolver token).Holds us := by
  obtain ⟨ha, ht, hv⟩ := h
  obtain ⟨events, hp⟩ := Assembler.push_ofTerms resolver token ts u.lookups
  unfold offer
  rw [ha, hp]
  rcases htake : Term.take resolver token ts u.lookups with ⟨e | us, s⟩
  · exact ⟨ts, rfl, ht, hv⟩
  · exact ⟨us, rfl, by rw [ht, Term.namesAll_take htake], Term.valued_take hv htake⟩

theorem holds_foldl {u : Use τ ι} {ts : List (Term (Operand ι))} (h : u.Holds ts) (resolver : Option (Resolver τ ι))
    (tokens : List String) : ∃ us, (tokens.foldl (offer resolver) u).Holds us := by
  induction tokens generalizing u ts with
  | nil => exact ⟨ts, h⟩
  | cons token rest ih =>
    obtain ⟨us, hu⟩ := holds_offer h resolver token
    exact ih hu

/-- Whatever was offered, the assembler holds the terms of what it took. -/
theorem holds_ofTokens (resolver : Option (Resolver τ ι)) (tokens : List String) (lookups : τ) :
    ∃ ts, (ofTokens resolver tokens lookups).Holds ts :=
  holds_foldl ⟨Assembler.ofTerms_nil.symm, rfl, by simp⟩ resolver tokens

/-- An operator that finds too few values is left out. -/
example : (ofTokens (some Resolver.itself) ["x", "+", "1", "*"] ()).taken = ["x", "1", "*"] := by decide +kernel

end Use

/-! ## Programs -/

/-- A program is made of some tokens: from a text, or by finishing an assembler in use. -/
inductive Program.Made (resolver : Option (Resolver τ ι)) (lookups : τ) : List String → Program ι → Prop
  | parse {text : String} {p : Program ι} : (Program.parse resolver text lookups).result = .ok p →
      Made resolver lookups (tokenize text) p
  | finish {tokens : List String} {p : Program ι} :
      (Use.ofTokens resolver tokens lookups).assembler.finish = .ok p →
      Made resolver lookups (Use.ofTokens resolver tokens lookups).taken p

/-- A program is that of the term whose tokens it was made of. -/
theorem Program.exists_term_of_made {resolver : Option (Resolver τ ι)} {lookups : τ} {taken : List String}
    {p : Program ι} (h : Made resolver lookups taken p) :
    ∃ t : Term (Operand ι), p = ofTerm t ∧ t.names = taken ∧ t.Valued := by
  cases h with
  | parse h =>
    obtain ⟨t, s', hr, hn, rfl⟩ := parse_eq_ok_iff.mp h
    exact ⟨t, rfl, hn, Term.values_of_reads hr⟩
  | @finish tokens p h =>
    obtain ⟨ts, ha, ht, hv⟩ := Use.holds_ofTokens resolver tokens lookups
    rw [ha, Assembler.finish_ofTerms] at h
    match ts, h with
    | [t], h =>
      cases h
      exact ⟨t, rfl, by rw [ht]; simp [Term.namesAll], hv t (List.mem_singleton_self t)⟩

def Program.IsMade (p : Program ι) : Prop :=
  ∃ (τ : Type) (resolver : Option (Resolver τ ι)) (lookups : τ) (taken : List String), Made resolver lookups taken p

theorem Program.exists_term_of_isMade {p : Program ι} (h : p.IsMade) : ∃ t, p = ofTerm t := by
  obtain ⟨τ, resolver, lookups, taken, hm⟩ := h
  obtain ⟨t, ht, -⟩ := exists_term_of_made hm
  exact ⟨t, ht⟩

end ReversePolish
