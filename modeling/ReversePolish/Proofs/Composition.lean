/-
  ReversePolish.Proofs.Composition — programs are put together from programs.

  Folding takes instructions and operands back from the lists that all terms share. It
  never takes back more than the term that is being assembled has put there, whatever
  stands before it, be it constants. So when some tokens make a program on their own, the
  same tokens offered to any assembler in use add just this program to it
  (`Assembler.append`): its instructions, its operands, and one entry that is a constant
  if the program is.

  An expression of two expressions and an operator thus has a program that is known from
  the two programs alone (`Program.join`): one folded constant over two constants, and
  otherwise the instructions of both and the operator. `parse_composes` states both for
  every resolver that goes by the name.
-/

import ReversePolish.Proofs.Usage

namespace ReversePolish

variable {τ ι : Type}

/-! ## Programs side by side -/

/-- The assembler after the tokens of a program, `tokens` in number. -/
def Assembler.append (a : Assembler ι) (p : Program ι) (tokens : Nat) : Assembler ι :=
  { ops := a.ops ++ p.ops
    operands := a.operands ++ p.operands
    pending := p.constant? :: a.pending
    position := a.position + tokens
    folded := a.folded + p.folded }

/-- The program of an operator over two programs; over two constants it is a constant. -/
def Program.join (o : Operator) (p q : Program ι) : Program ι :=
  match p.constant?, q.constant? with
  | some x, some y =>
    let value := o.apply x y
    .ofParts #[.fetch] #[{ name := Double.plain value, source := .constant value }] (p.folded + q.folded + 1)
  | _, _ => .ofParts ((p.ops ++ q.ops).push (.apply o)) (p.operands ++ q.operands) (p.folded + q.folded)

namespace Program

theorem constant?_ofTerm (t : Term (Operand ι)) : (ofTerm t).constant? = t.fold.constant? := by
  unfold constant?
  cases ht : t.fold with
  | leaf operand => simp [ofTerm, ofParts, ht, Term.instructions, Term.leaves]
  | node o l r =>
    split
    · rename_i operand hops hoperands
      have h := congrArg List.length hops
      have := l.size_pos
      simp only [ofTerm, ofParts, ht, Term.length_instructions, Term.size, List.length_singleton] at h
      omega
    · rfl

theorem ofTerm_node (o : Operator) (l r : Term (Operand ι)) :
    ofTerm (.node o l r) = join o (ofTerm l) (ofTerm r) := by
  unfold join
  rw [constant?_ofTerm, constant?_ofTerm]
  rcases hl : l.fold.constant? with _ | x <;> rcases hr : r.fold.constant? with _ | y
  all_goals
    simp [ofTerm, ofParts, Term.fold, Term.combine, Term.foldings, hl, hr, Term.instructions, Term.leaves, Term.ofFloat]

end Program

theorem Assembler.ofTerms_cons (t : Term (Operand ι)) (ts : List (Term (Operand ι))) :
    ofTerms (t :: ts) = (ofTerms ts).append (.ofTerm t) t.size := by
  simp only [append, Program.constant?_ofTerm]
  simp [ofTerms, Program.ofTerm, Program.ofParts, Term.total, Nat.add_comm]

/-! ## Tokens in any context -/

theorem Term.reads_byName {resolver : Option (Resolver τ ι)} (hr : ∀ r ∈ resolver, r.ByName) {t : Term (Operand ι)}
    {s₀ s₁ : τ} (h : Reads resolver s₀ t s₁) (s : τ) : ∃ s', Reads resolver s t s' := by
  induction h generalizing s with
  | leaf operand s₀ hv hs => exact ⟨_, .leaf operand s hv (by rw [readValue_byName hr _ s s₀]; exact hs)⟩
  | node o _ _ ihl ihr =>
    obtain ⟨s₁, hl⟩ := ihl s
    obtain ⟨s₂, hr⟩ := ihr s₁
    exact ⟨s₂, .node o hl hr⟩

/-- Tokens that finish to a program are those of one term. -/
theorem Assembler.exists_term_of_finish {resolver : Option (Resolver τ ι)} {tokens : List String} {s : τ}
    {a : Assembler ι} {p : Program ι} (ha : (pushAll resolver tokens {} s #[]).result = .ok a)
    (hp : a.finish = .ok p) : ∃ t s', Term.Reads resolver s t s' ∧ t.names = tokens ∧ p = .ofTerm t := by
  obtain ⟨events, h⟩ := pushAll_ofTerms resolver tokens [] s #[]
  rw [ofTerms_nil] at h
  rw [h] at ha
  rcases ht : Term.takeAll resolver tokens [] s with ⟨e | ts, s'⟩
  · rw [ht] at ha; cases ha
  · rw [ht] at ha
    cases ha
    rw [finish_ofTerms] at hp
    match ts, hp with
    | [t], hp =>
      cases hp
      obtain ⟨hr, hn⟩ := Term.takeAll_eq_singleton_iff.mp ht
      exact ⟨t, s', hr, hn, rfl⟩

theorem Assembler.pushAll_names {resolver : Option (Resolver τ ι)} {t : Term (Operand ι)} {s s' : τ}
    (h : Term.Reads resolver s t s') (ts : List (Term (Operand ι))) (log : Array Event) :
    (pushAll resolver t.names (ofTerms ts) s log).result = .ok ((ofTerms ts).append (.ofTerm t) t.size) := by
  obtain ⟨events, hpush⟩ := pushAll_ofTerms resolver t.names ts s log
  have htake := Term.takeAll_names h [] ts
  rw [List.append_nil] at htake
  rw [hpush, htake, ← ofTerms_cons]
  rfl

/-- Tokens that make a program on their own add this program to an assembler in any state that tokens bring it
    to, and two expressions with an operator after them have the program joined from theirs. -/
theorem parse_composes {resolver : Option (Resolver τ ι)} (hr : ∀ r ∈ resolver, r.ByName) :
    (∀ (tokens : List String) (s : τ) (a : Assembler ι) (p : Program ι),
      (Assembler.pushAll resolver tokens {} s #[]).result = .ok a → a.finish = .ok p →
      ∀ (offered : List String) (s₀ s' : τ) (log : Array Event),
        (Assembler.pushAll resolver tokens (Use.ofTokens resolver offered s₀).assembler s' log).result =
          .ok ((Use.ofTokens resolver offered s₀).assembler.append p tokens.length)) ∧
    ∀ (left right : String) (s s' : τ) (p q : Program ι),
      (Program.parse resolver left s).result = .ok p → (Program.parse resolver right s').result = .ok q →
      ∀ (o : Operator) (s'' : τ),
        (Program.parse resolver (left ++ " " ++ right ++ " " ++ o.symbol) s'').result = .ok (.join o p q) := by
  refine ⟨?_, ?_⟩
  · intro tokens s a p ha hp offered s₀ s' log
    obtain ⟨t, s₁, ht, rfl, rfl⟩ := Assembler.exists_term_of_finish ha hp
    obtain ⟨ts, hts, -⟩ := Use.holds_ofTokens resolver offered s₀
    obtain ⟨s₂, ht'⟩ := Term.reads_byName hr ht s'
    rw [hts, Assembler.pushAll_names ht', Term.length_tokens]
  · intro left right s s' p q hp hq o s''
    obtain ⟨l, s₁, hl, hln, rfl⟩ := Program.parse_eq_ok_iff.mp hp
    obtain ⟨r, s₂, hrr, hrn, rfl⟩ := Program.parse_eq_ok_iff.mp hq
    -- the right text is read after the left one here, from another state of the resolver
    obtain ⟨s₃, hl'⟩ := Term.reads_byName hr hl s''
    obtain ⟨s₄, hr'⟩ := Term.reads_byName hr hrr s₃
    refine Program.parse_eq_ok_iff.mpr ⟨.node o l r, s₄, .node o hl' hr', ?_, (Program.ofTerm_node o l r).symm⟩
    rw [tokenize_append, tokenize_append, tokenize_token o.isToken_symbol, ← hln, ← hrn]
    rfl

/-- A constant on top of two constants that stay, and an operator over a constant and a name. -/
theorem parse_composes_over_constants :
    (∃ a p, (Assembler.pushAll (some Resolver.itself) ["1", "2", "-", "5", "*"] {} () #[]).result = .ok a ∧
      a.finish = .ok p ∧
      (Assembler.pushAll (some Resolver.itself) ["1", "2", "-", "5", "*"]
        (Use.ofTokens (some Resolver.itself) ["x", "+", "3", "4"] ()).assembler () #[]).result =
          .ok ((Use.ofTokens (some Resolver.itself) ["x", "+", "3", "4"] ()).assembler.append p 5)) ∧
    ∃ p q, (Program.parse (some Resolver.itself) "1 2 -" ()).result = .ok p ∧
      (Program.parse (some Resolver.itself) " x 3  *" ()).result = .ok q ∧
      ∀ o, (Program.parse (some Resolver.itself) ("1 2 -" ++ " " ++ " x 3  *" ++ " " ++ o.symbol) ()).result =
        .ok (.join o p q) := by
  obtain ⟨hcontext, hjoin⟩ := parse_composes Resolver.itself_byName
  refine ⟨?_, ?_⟩
  · have hok : ((Assembler.pushAll (some Resolver.itself) ["1", "2", "-", "5", "*"] {} () #[]).result.toOption.any
        fun a => a.finish.toOption.isSome) = true := by
      decide +kernel
    cases ha : (Assembler.pushAll (some Resolver.itself) ["1", "2", "-", "5", "*"] {} () #[]).result with
    | error e => rw [ha] at hok; cases hok
    | ok a =>
      rw [ha] at hok
      cases hp : a.finish with
      | error e => simp [Except.toOption, hp] at hok
      | ok p => exact ⟨a, p, rfl, hp, hcontext _ _ a p ha hp ["x", "+", "3", "4"] () () #[]⟩
  · have hok : ((Program.parse (some Resolver.itself) "1 2 -" ()).result.toOption.isSome &&
        (Program.parse (some Resolver.itself) " x 3  *" ()).result.toOption.isSome) = true := by
      decide +kernel
    cases hp : (Program.parse (some Resolver.itself) "1 2 -" ()).result with
    | error e => rw [hp] at hok; cases hok
    | ok p =>
      cases hq : (Program.parse (some Resolver.itself) " x 3  *" ()).result with
      | error e => rw [hp, hq] at hok; cases hok
      | ok q => exact ⟨p, q, rfl, rfl, fun o => hjoin _ _ _ _ p q hp hq o ()⟩

end ReversePolish
