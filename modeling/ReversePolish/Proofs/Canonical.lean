/-
  ReversePolish.Proofs.Canonical — the text of a program builds the program again.

  The text of a program is the postorder of its folded term, with the names of the
  operands for the leaves. A name is a token of the first text, or the plain text of a
  constant that folding made; neither is empty or has a space in it, so cutting the text
  at its spaces gives these tokens back (`tokenize_intercalate`). Both are read as the
  sources they had: a token because the resolver goes by the name, a plain text because
  it is a literal of its double, before any resolver is asked. And nothing is left to
  fold. So the second program is the first one, with nothing folded (`parse_text`).
-/

import ReversePolish.Program.Text
import ReversePolish.Proofs.Assembly
import ReversePolish.Proofs.Double.RoundTrip
import ReversePolish.Proofs.Pieces

namespace ReversePolish

variable {τ ι : Type}

/-! ## The text of a program -/

namespace Term

theorem tokens_instructions (t : Term (Operand ι)) (ops : List Instruction) (operands : List (Operand ι)) :
    Program.tokens (t.instructions ++ ops) (t.leaves ++ operands) = t.names ++ Program.tokens ops operands := by
  induction t generalizing ops operands with
  | leaf operand => rfl
  | node o l r ihl ihr =>
    simp only [instructions, leaves, List.append_assoc, names, tokens]
    rw [ihl, ihr]
    rfl

theorem mem_names {t : Term (Operand ι)} {token : String} (h : token ∈ t.names) :
    (∃ operand ∈ t.leaves, token = operand.name) ∨ ∃ o : Operator, token = o.symbol := by
  induction t with
  | leaf operand => exact Or.inl ⟨operand, List.mem_singleton_self _, List.mem_singleton.mp h⟩
  | node o l r ihl ihr =>
    rw [names, tokens, List.mem_append, List.mem_append, List.mem_singleton] at h
    rcases h with (h | h) | h
    · rcases ihl h with ⟨operand, hm, ho⟩ | ho
      · exact Or.inl ⟨operand, List.mem_append_left _ hm, ho⟩
      · exact Or.inr ho
    · rcases ihr h with ⟨operand, hm, ho⟩ | ho
      · exact Or.inl ⟨operand, List.mem_append_right _ hm, ho⟩
      · exact Or.inr ho
    · exact Or.inr ⟨o, h⟩

/-- The leaves of a folded term are leaves of the term, or constants named by their text. -/
theorem mem_leaves_fold {t : Term (Operand ι)} {operand : Operand ι} (h : operand ∈ t.fold.leaves) :
    operand ∈ t.leaves ∨ ∃ x, operand = { name := Double.plain x, source := .constant x } := by
  induction t with
  | leaf a => exact Or.inl h
  | node o l r ihl ihr =>
    rw [fold, combine] at h
    split at h
    · exact Or.inr ⟨_, List.mem_singleton.mp h⟩
    · rcases List.mem_append.mp h with h | h
      · exact (ihl h).imp_left (List.mem_append_left _)
      · exact (ihr h).imp_left (List.mem_append_right _)

end Term

theorem Program.text_ofTerm (t : Term (Operand ι)) : (Program.ofTerm t).text = " ".intercalate t.fold.names := by
  have h := t.fold.tokens_instructions [] []
  rw [List.append_nil, List.append_nil, Program.tokens, List.append_nil] at h
  rw [text, ofTerm, ofParts, h]

/-! ## Reading the names again -/

/-- The name is a value token that is read as the source, whenever it is. -/
structure Rereads (resolver : Option (Resolver τ ι)) (operand : Operand ι) : Prop where
  token : IsToken operand.name
  value : Operator.ofSymbol? operand.name = none
  source : ∀ s, (readValue resolver operand.name s).result = .ok operand.source

/-- The text of a constant is read as the constant, whatever the resolver. -/
theorem rereads_plain (resolver : Option (Resolver τ ι)) (x : Float) :
    Rereads resolver { name := Double.plain x, source := .constant x } := by
  have hparse := Double.parse?_plain x
  refine ⟨⟨fun he => ?_, fun h => Double.plain_no_space x ' ' h rfl⟩, ?_, fun s => ?_⟩
  · have hempty : Double.Literal.parse? "" = none := by decide +kernel
    rw [show Double.plain x = "" from he, hempty] at hparse
    cases hparse
  · cases ho : Operator.ofSymbol? (Double.plain x) with
    | none => rfl
    | some o =>
      have hnone : Double.Literal.parse? o.symbol = none := by cases o <;> decide +kernel
      rw [Operator.eq_symbol ho, hnone] at hparse
      cases hparse
  · simp only [readValue, hparse]

namespace Term

/-- What a resolver that goes by the name has read, it reads again. -/
theorem rereads_of_reads {resolver : Option (Resolver τ ι)} (hr : ∀ r ∈ resolver, r.ByName) {t : Term (Operand ι)}
    {s s' : τ} (h : Reads resolver s t s') (hn : ∀ token ∈ t.names, IsToken token) :
    ∀ operand ∈ t.leaves, Rereads resolver operand := by
  induction h with
  | leaf operand s hv hs =>
    intro a ha
    obtain rfl := List.mem_singleton.mp ha
    exact ⟨hn _ (List.mem_singleton_self _), hv, fun s' => (readValue_byName hr _ s' s).trans hs⟩
  | node o hl hr ihl ihr =>
    intro a ha
    rcases List.mem_append.mp ha with ha | ha
    · exact ihl (fun token ht => hn token (List.mem_append_left _ (List.mem_append_left _ ht))) a ha
    · exact ihr (fun token ht => hn token (List.mem_append_left _ (List.mem_append_right _ ht))) a ha

theorem reads_of_rereads {resolver : Option (Resolver τ ι)} {t : Term (Operand ι)}
    (h : ∀ operand ∈ t.leaves, Rereads resolver operand) (s : τ) : ∃ s', Reads resolver s t s' := by
  induction t generalizing s with
  | leaf operand =>
    have ho := h operand (List.mem_singleton_self _)
    exact ⟨_, .leaf operand s ho.value (ho.source s)⟩
  | node o l r ihl ihr =>
    obtain ⟨s₁, hl⟩ := ihl (fun operand hm => h operand (List.mem_append_left _ hm)) s
    obtain ⟨s₂, hr⟩ := ihr (fun operand hm => h operand (List.mem_append_right _ hm)) s₁
    exact ⟨s₂, .node o hl hr⟩

end Term

/-- The text of a program builds the program again, with the same operands in the same places and
    nothing folded, so its text is the text again. -/
theorem parse_text {resolver : Option (Resolver τ ι)} (hr : ∀ r ∈ resolver, r.ByName) {text : String} {s : τ}
    {p : Program ι} (h : (Program.parse resolver text s).result = .ok p) (s' : τ) :
    ∃ q, (Program.parse resolver p.text s').result = .ok q ∧ q.ops = p.ops ∧ q.operands = p.operands ∧
      q.maxDepth = p.maxDepth ∧ q.folded = 0 ∧ q.text = p.text := by
  obtain ⟨t, s₁, hreads, hnames, rfl⟩ := Program.parse_eq_ok_iff.mp h
  have htokens : ∀ token ∈ t.names, IsToken token := fun token ht =>
    @isToken_of_mem_tokenize text _ (hnames ▸ ht)
  have hleaves : ∀ operand ∈ t.fold.leaves, Rereads resolver operand := by
    intro operand ho
    rcases Term.mem_leaves_fold ho with ho | ⟨x, rfl⟩
    · exact Term.rereads_of_reads hr hreads htokens operand ho
    · exact rereads_plain resolver x
  have hfold : ∀ token ∈ t.fold.names, IsToken token := by
    intro token ht
    rcases Term.mem_names ht with ⟨operand, ho, rfl⟩ | ⟨o, rfl⟩
    · exact (hleaves operand ho).token
    · exact o.isToken_symbol
  obtain ⟨s₂, hagain⟩ := Term.reads_of_rereads hleaves s'
  have hcut : t.fold.names = tokenize (Program.ofTerm t).text := by
    rw [Program.text_ofTerm, tokenize_intercalate hfold]
  obtain ⟨hself, hzero⟩ := Term.fold_eq_self t.folded_fold
  have hops : (Program.ofTerm t.fold).ops = (Program.ofTerm t).ops := by
    rw [Program.ofTerm, hself]
    rfl
  have hoperands : (Program.ofTerm t.fold).operands = (Program.ofTerm t).operands := by
    rw [Program.ofTerm, hself]
    rfl
  refine ⟨.ofTerm t.fold, Program.parse_eq_ok_iff.mpr ⟨_, s₂, hagain, hcut, rfl⟩, hops, hoperands, ?_, hzero, ?_⟩
  · rw [Program.maxDepth_ofTerm, Program.maxDepth_ofTerm, hself]
  · rw [Program.text_ofTerm, Program.text_ofTerm, hself]

/-- An infinity and a negative zero that were folded are written as `inf` and `-0`. -/
theorem parse_text_inf_negative_zero :
    ∃ p, (Program.parse (some Resolver.itself) "x 1 0 / * y 0 -1 * + if" ()).result = .ok p ∧
      p.text = "x inf * y -0 + if" ∧
      ∃ q, (Program.parse (some Resolver.itself) p.text ()).result = .ok q ∧ q.ops = p.ops ∧
        q.operands = p.operands ∧ q.maxDepth = p.maxDepth ∧ q.folded = 0 ∧ q.text = p.text := by
  have ht : (Program.parse (some Resolver.itself) "x 1 0 / * y 0 -1 * + if" ()).result.map Program.text =
      .ok "x inf * y -0 + if" := by
    decide +kernel
  cases hp : (Program.parse (some Resolver.itself) "x 1 0 / * y 0 -1 * + if" ()).result with
  | error e => rw [hp] at ht; cases ht
  | ok p =>
    rw [hp] at ht
    exact ⟨p, rfl, Except.ok.inj ht, parse_text Resolver.itself_byName hp ()⟩

end ReversePolish
