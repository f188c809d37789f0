/-
  ReversePolish.Proofs.Acceptance — which texts are expressions, and what the others are
  refused for.

  Operators take two values and leave one, so after some tokens there are as many values
  as there are value tokens more than operators (`height`). A token is refused if it is a
  value that stands for nothing, or an operator with fewer than two values before it
  (`refusal?`). The first refused token decides: its refusal is the error of the text,
  and the height before it is the number of values that an operator found. If no token is
  refused, the height at the end decides: there is no value only if there is no token,
  and two or more values are too many (`parse_reports_first`).

  What remains is reverse Polish notation. A text is accepted exactly if its values stand
  for something and its tokens, the only ones that it spaces out (`Spaced`), are the postorder
  of a tree, and there is one such tree only.
-/

import ReversePolish.Proofs.Assembly
import ReversePolish.Proofs.Pieces

namespace ReversePolish

variable {τ ι : Type}

/-- How many more values than operators there are. -/
def height : List String → Int
  | [] => 0
  | token :: rest => (if (Operator.ofSymbol? token).isSome then -1 else 1) + height rest

/-- The state of the resolver after it was asked for all values among some tokens. -/
def lookupsAfter (resolver : Option (Resolver τ ι)) : List String → τ → τ
  | [], s => s
  | token :: rest, s =>
    match Operator.ofSymbol? token with
    | some _ => lookupsAfter resolver rest s
    | none => lookupsAfter resolver rest (readValue resolver token s).lookups

def missing? (resolver : Option (Resolver τ ι)) (token : String) (s : τ) : Option (Option ResolveError) :=
  match Double.Literal.parse? token, resolver with
  | some _, _ => none
  | none, none => some none
  | none, some resolve =>
    match (resolve token s).1 with
    | .ok _ => none
    | .error cause => some (some cause)

/-- What the token at an index is refused for. -/
def refusal? (resolver : Option (Resolver τ ι)) (tokens : List String) (s : τ) (i : Nat) : Option BuildError :=
  match tokens[i]? with
  | none => none
  | some token =>
    match Operator.ofSymbol? token with
    | some _ =>
      if height (tokens.take i) < 2 then some (.malformed i token (height (tokens.take i)).toNat) else none
    | none => (missing? resolver token (lookupsAfter resolver (tokens.take i) s)).map (.unresolved token)

def Resolves (resolver : Option (Resolver τ ι)) (tokens : List String) (s : τ) : Prop :=
  ∀ i token, tokens[i]? = some token → Operator.ofSymbol? token = none →
    missing? resolver token (lookupsAfter resolver (tokens.take i) s) = none

theorem height_append (before after : List String) : height (before ++ after) = height before + height after := by
  induction before with
  | nil => simp only [List.nil_append, height, Int.zero_add]
  | cons token rest ih => simp only [List.cons_append, height, ih, Int.add_assoc]

theorem lookupsAfter_append (resolver : Option (Resolver τ ι)) (before after : List String) (s : τ) :
    lookupsAfter resolver (before ++ after) s = lookupsAfter resolver after (lookupsAfter resolver before s) := by
  induction before generalizing s with
  | nil => rfl
  | cons token rest ih =>
    simp only [List.cons_append, lookupsAfter]
    cases Operator.ofSymbol? token with
    | some o => exact ih s
    | none => exact ih _

/-- A value is read, or it is missing and the error says why. -/
theorem readValue_missing (resolver : Option (Resolver τ ι)) (token : String) (s : τ) :
    match missing? resolver token s with
    | none => ∃ source, (readValue resolver token s).result = .ok source
    | some cause => (readValue resolver token s).result = .error (.unresolved token cause) := by
  unfold missing? readValue
  cases Double.Literal.parse? token with
  | some x => exact ⟨_, rfl⟩
  | none =>
    cases resolver with
    | none => rfl
    | some resolve =>
      rcases h : resolve token s with ⟨cause | source, s'⟩
      · simp only [h]
      · simp only [h]; exact ⟨source, rfl⟩

namespace Term

/-- No leaf is an operator. -/
def Values (t : Term String) : Prop := ∀ token ∈ t.leaves, Operator.ofSymbol? token = none

theorem height_names {resolver : Option (Resolver τ ι)} {t : Term (Operand ι)} {s s' : τ}
    (h : Reads resolver s t s') : height t.names = 1 := by
  induction h with
  | leaf operand s hv hs => simp [tokens, height, hv]
  | node o hl hr ihl ihr =>
    rw [names, tokens, height_append, height_append, ihl, ihr]
    simp [height]

theorem lookupsAfter_names {resolver : Option (Resolver τ ι)} {t : Term (Operand ι)} {s s' : τ}
    (h : Reads resolver s t s') : lookupsAfter resolver t.names s = s' := by
  induction h with
  | leaf operand s hv hs => simp only [tokens, lookupsAfter, hv]
  | node o hl hr ihl ihr =>
    rw [names, tokens, lookupsAfter_append, lookupsAfter_append, ihl, ihr]
    simp only [lookupsAfter, Operator.ofSymbol?_symbol]

/-- What a stack of terms knows of the tokens it comes from. -/
theorem namesAll_of_readsAll {resolver : Option (Resolver τ ι)} {ts : List (Term (Operand ι))} {s s' : τ}
    (h : ReadsAll resolver s ts s') :
    height (namesAll ts) = ts.length ∧ (namesAll ts).length = total size ts ∧
      lookupsAfter resolver (namesAll ts) s = s' := by
  induction h with
  | nil => exact ⟨rfl, rfl, rfl⟩
  | @cons ts t s' s'' hts ht ih =>
    obtain ⟨hh, hl, hs⟩ := ih
    refine ⟨?_, ?_, ?_⟩
    · rw [namesAll_cons, height_append, hh, height_names ht, List.length_cons]
      omega
    · rw [namesAll_cons, List.length_append, hl, length_tokens, total]
      omega
    · rw [namesAll_cons, lookupsAfter_append, hs, lookupsAfter_names ht]

theorem takeAll_append (resolver : Option (Resolver τ ι)) (before after : List String)
    (ts : List (Term (Operand ι))) (s : τ) :
    takeAll resolver (before ++ after) ts s =
      match takeAll resolver before ts s with
      | (.ok us, s) => takeAll resolver after us s
      | (.error e, s) => (.error e, s) := by
  induction before generalizing ts s with
  | nil => rfl
  | cons token rest ih =>
    simp only [List.cons_append, takeAll]
    rcases take resolver token ts s with ⟨e | us, s'⟩
    · rfl
    · exact ih us s'

/-- The next token is taken unless it is refused, and then the error is its refusal. -/
theorem take_refusal {resolver : Option (Resolver τ ι)} {tokens : List String} {i : Nat} {token : String}
    {ts : List (Term (Operand ι))} {s s' : τ} (ht : tokens[i]? = some token) (h : ReadsAll resolver s ts s')
    (hn : namesAll ts = tokens.take i) :
    match refusal? resolver tokens s i with
    | some e => (take resolver token ts s').1 = .error e
    | none => ∃ us, (take resolver token ts s').1 = .ok us := by
  obtain ⟨hh, hl, hs⟩ := namesAll_of_readsAll h
  rw [hn] at hh hl hs
  have hi : i < tokens.length := (List.getElem?_eq_some_iff.mp ht).1
  have hsum : total size ts = i := by
    rw [← hl, List.length_take]
    omega
  unfold refusal? take
  simp only [ht]
  cases Operator.ofSymbol? token with
  | some o =>
    have hnat : (height (tokens.take i)).toNat = ts.length := by rw [hh]; rfl
    -- there are as many terms as the height says, and an operator takes two
    rcases ts with _ | ⟨r, _ | ⟨l, rest⟩⟩
    · have hlt : height (tokens.take i) < 2 := by rw [hh]; simp
      simp only [if_pos hlt, hsum, hnat]
    · have hlt : height (tokens.take i) < 2 := by rw [hh]; simp
      simp only [if_pos hlt, hsum, hnat]
    · have hge : ¬height (tokens.take i) < 2 := by rw [hh, List.length_cons, List.length_cons]; omega
      simp only [if_neg hge]
      exact ⟨_, rfl⟩
  | none =>
    have hv := readValue_missing resolver token s'
    simp only [hs]
    cases hm : missing? resolver token s' with
    | none =>
      rw [hm] at hv
      obtain ⟨source, hr⟩ := hv
      simp only [hr, Option.map_none]
      exact ⟨_, rfl⟩
    | some cause =>
      rw [hm] at hv
      simp only [hv, Option.map_some]
      rfl

/-- All tokens before the first refused one are taken. -/
theorem takeAll_before {resolver : Option (Resolver τ ι)} {tokens : List String} {s : τ} {i : Nat}
    (hi : i ≤ tokens.length) (h : ∀ j < i, refusal? resolver tokens s j = none) :
    ∃ ts s', takeAll resolver (tokens.take i) [] s = (.ok ts, s') ∧ ReadsAll resolver s ts s' ∧
      namesAll ts = tokens.take i := by
  induction i with
  | zero => exact ⟨[], s, rfl, .nil, rfl⟩
  | succ i ih =>
    obtain ⟨ts, s', htake, hts, hn⟩ := ih (by omega) fun j hj => h j (by omega)
    have ht : tokens[i]? = some tokens[i] := List.getElem?_eq_getElem (by omega)
    have hnext := take_refusal ht hts hn
    rw [h i (Nat.lt_succ_self i)] at hnext
    obtain ⟨us, hus⟩ := hnext
    rcases hp : take resolver tokens[i] ts s' with ⟨result, s''⟩
    rw [hp] at hus
    subst hus
    refine ⟨us, s'', ?_, ?_⟩
    · rw [List.take_add_one, ht, takeAll_append, htake]
      simp only [Option.toList, takeAll, hp]
    · have hok := take_ok hts hp
      rw [List.take_add_one, ht]
      exact ⟨hok.1, by rw [hok.2, hn]; rfl⟩

/-! ## Trees of tokens -/

theorem values_of_reads {resolver : Option (Resolver τ ι)} {t : Term (Operand ι)} {s s' : τ}
    (h : Reads resolver s t s') : (t.map Operand.name).Values := by
  intro token ht
  rw [leaves_map] at ht
  induction h with
  | leaf operand s hv hs =>
    obtain rfl : token = operand.name := by simpa [leaves] using ht
    exact hv
  | node o hl hr ihl ihr =>
    rw [leaves, List.map_append, List.mem_append] at ht
    rcases ht with ht | ht
    · exact ihl ht
    · exact ihr ht

theorem resolves_append {resolver : Option (Resolver τ ι)} {before after : List String} {s : τ}
    (h : Resolves resolver (before ++ after) s) :
    Resolves resolver before s ∧ Resolves resolver after (lookupsAfter resolver before s) := by
  refine ⟨?_, ?_⟩
  · intro i token ht hv
    have hi : i < before.length := (List.getElem?_eq_some_iff.mp ht).1
    have := h i token (by rw [List.getElem?_append_left hi, ht]) hv
    rwa [List.take_append_of_le_length (by omega)] at this
  · intro i token ht hv
    have := h (before.length + i) token (by rw [List.getElem?_append_right (by omega), Nat.add_sub_cancel_left, ht]) hv
    rwa [List.take_length_add_append, lookupsAfter_append] at this

/-- A tree of values that stand for something is read as a term. -/
theorem exists_reads {resolver : Option (Resolver τ ι)} {t : Term String} {s : τ} (hv : t.Values)
    (h : Resolves resolver (t.tokens id) s) : ∃ u s', Reads resolver s u s' ∧ u.map Operand.name = t := by
  induction t generalizing s with
  | leaf token =>
    have hop : Operator.ofSymbol? token = none := hv token (List.mem_singleton_self token)
    have hread := readValue_missing resolver token s
    have hm : missing? resolver token s = none := h 0 token rfl hop
    rw [hm] at hread
    obtain ⟨source, hr⟩ := hread
    exact ⟨leaf { name := token, source }, _, .leaf { name := token, source } s hop hr, rfl⟩
  | node o l r ihl ihr =>
    obtain ⟨hlr, -⟩ := resolves_append h
    obtain ⟨hl, hr⟩ := resolves_append hlr
    obtain ⟨u, s₁, hu, rfl⟩ := ihl (fun token ht => hv token (List.mem_append_left _ ht)) hl
    rw [tokens_map, Function.id_comp, lookupsAfter_names hu] at hr
    obtain ⟨v, s₂, hw, rfl⟩ := ihr (fun token ht => hv token (List.mem_append_right _ ht)) hr
    exact ⟨node o u v, s₂, .node o hu hw, rfl⟩

/-- A tree is known from its postorder: over names an assembler finds it again. -/
theorem eq_of_tokens_eq {t u : Term String} (ht : t.Values) (hu : u.Values) (h : t.tokens id = u.tokens id) :
    t = u := by
  have hres : ∀ tokens : List String, Resolves (some Resolver.itself) tokens () := by
    intro tokens i token _ _
    unfold missing?
    cases Double.Literal.parse? token <;> rfl
  obtain ⟨t', s, htr, rfl⟩ := exists_reads ht (hres _)
  obtain ⟨u', s', hur, rfl⟩ := exists_reads hu (hres _)
  have hnames : t'.names = u'.names := by
    rwa [tokens_map, tokens_map] at h
  have htake := takeAll_names htr [] []
  have hutake := takeAll_names hur [] []
  rw [hnames, hutake, takeAll, takeAll] at htake
  cases htake
  rfl

end Term

/-! ## The error of a text -/

theorem refusal?_of_le {resolver : Option (Resolver τ ι)} {tokens : List String} {s : τ} {i : Nat} {e : BuildError}
    (h : refusal? resolver tokens s i = some e) : ∃ token, tokens[i]? = some token := by
  unfold refusal? at h
  split at h
  · cases h
  · exact ⟨_, ‹_›⟩

/-- The first refusal is the error, and the height before it counts values. -/
theorem parse_refusal {resolver : Option (Resolver τ ι)} {text : String} {s : τ} {i : Nat} {e : BuildError}
    (h : refusal? resolver (tokenize text) s i = some e)
    (hfirst : ∀ j < i, refusal? resolver (tokenize text) s j = none) :
    (Program.parse resolver text s).result = .error e ∧ 0 ≤ height ((tokenize text).take i) := by
  obtain ⟨token, ht⟩ := refusal?_of_le h
  have hi : i < (tokenize text).length := (List.getElem?_eq_some_iff.mp ht).1
  obtain ⟨ts, s', htake, hts, hn⟩ := Term.takeAll_before (by omega) hfirst
  have hnext := Term.take_refusal ht hts hn
  rw [h] at hnext
  refine ⟨?_, ?_⟩
  · have hsplit : tokenize text = (tokenize text).take i ++ token :: (tokenize text).drop (i + 1) := by
      rw [← (List.getElem?_eq_some_iff.mp ht).2, List.getElem_cons_drop, List.take_append_drop]
    have hall : (Term.takeAll resolver (tokenize text) [] s).1 = .error e := by
      rw [hsplit, Term.takeAll_append, htake]
      simp only [Term.takeAll]
      rcases hp : Term.take resolver token ts s' with ⟨result, s''⟩
      rw [hp] at hnext
      subst hnext
      rfl
    rw [Program.parse_eq, hall]
  · rw [← hn, (Term.namesAll_of_readsAll hts).1]
    exact Int.natCast_nonneg _

/-- Without a refusal the height at the end decides. -/
theorem parse_unrefused {resolver : Option (Resolver τ ι)} {text : String} {s : τ}
    (h : ∀ i, refusal? resolver (tokenize text) s i = none) :
    (height (tokenize text) = 0 ∧ tokenize text = [] ∧ (Program.parse resolver text s).result = .error .empty) ∨
      (height (tokenize text) = 1 ∧ ∃ p, (Program.parse resolver text s).result = .ok p) ∨
      ∃ n : Nat, 2 ≤ n ∧ height (tokenize text) = n ∧
        (Program.parse resolver text s).result = .error (.unbalanced n) := by
  obtain ⟨ts, s', htake, hts, hn⟩ := Term.takeAll_before (Nat.le_refl _) fun j _ => h j
  rw [List.take_length] at htake hn
  have hh := (Term.namesAll_of_readsAll hts).1
  rw [hn] at hh
  rw [Program.parse_eq, htake]
  match ts, hh, hn with
  | [], hh, hn => exact Or.inl ⟨hh, hn.symm, rfl⟩
  | [t], hh, _ => exact Or.inr (Or.inl ⟨hh, _, rfl⟩)
  | r :: l :: ts, hh, _ =>
    refine Or.inr (Or.inr ⟨(r :: l :: ts).length, ?_, hh, rfl⟩)
    rw [List.length_cons, List.length_cons]
    omega

theorem unrefused_of_parse {resolver : Option (Resolver τ ι)} {text : String} {s : τ} {p : Program ι}
    (h : (Program.parse resolver text s).result = .ok p) (i : Nat) : refusal? resolver (tokenize text) s i = none := by
  induction i using Nat.strongRecOn with
  | _ i ih =>
    cases hr : refusal? resolver (tokenize text) s i with
    | none => rfl
    | some e =>
      rw [(parse_refusal hr ih).1] at h
      cases h

theorem resolves_of_unrefused {resolver : Option (Resolver τ ι)} {tokens : List String} {s : τ}
    (h : ∀ i, refusal? resolver tokens s i = none) : Resolves resolver tokens s := by
  intro i token ht hv
  have hr := h i
  unfold refusal? at hr
  simp only [ht, hv] at hr
  exact Option.map_eq_none_iff.mp hr

/-- Without a refusal the three outcomes are told apart by the number of tokens and the height. -/
theorem result_of_unrefused {resolver : Option (Resolver τ ι)} {text : String} {s : τ}
    (h : ∀ i, refusal? resolver (tokenize text) s i = none) :
    ((Program.parse resolver text s).result = .error .empty ↔ tokenize text = []) ∧
      (∀ n : Nat, (Program.parse resolver text s).result = .error (.unbalanced n) ↔
        2 ≤ n ∧ height (tokenize text) = n) ∧
      ((∃ p, (Program.parse resolver text s).result = .ok p) ↔
        tokenize text ≠ [] ∧ height (tokenize text) < 2) := by
  have hnil : tokenize text = [] → height (tokenize text) = 0 := by
    intro he
    rw [he]
    rfl
  rcases parse_unrefused h with ⟨hh, hn, hp⟩ | ⟨hh, p, hp⟩ | ⟨n, hn, hh, hp⟩
  · rw [hp, hh]
    refine ⟨⟨fun _ => hn, fun _ => rfl⟩, fun m => ⟨fun he => (nomatch he), ?_⟩, ⟨fun ⟨_, he⟩ => (nomatch he), ?_⟩⟩
    · intro he
      have := he.1
      omega
    · intro he
      exact absurd hn he.1
  · have hne : tokenize text ≠ [] := by
      intro he
      have := hnil he
      omega
    rw [hp, hh]
    refine ⟨⟨fun he => (nomatch he), fun he => absurd he hne⟩, fun m => ⟨fun he => (nomatch he), ?_⟩,
      ⟨fun _ => ⟨hne, by omega⟩, fun _ => ⟨p, rfl⟩⟩⟩
    intro he
    have := he.1
    omega
  · have hne : tokenize text ≠ [] := by
      intro he
      have := hnil he
      omega
    rw [hp, hh]
    refine ⟨⟨fun he => (nomatch he), fun he => absurd he hne⟩, fun m => ⟨?_, ?_⟩, ⟨fun ⟨_, he⟩ => (nomatch he), ?_⟩⟩
    · intro he
      cases he
      exact ⟨hn, rfl⟩
    · intro he
      rw [Int.natCast_inj.mp he.2]
    · intro he
      have := he.2
      omega

/-- What is accepted are the postorders of trees over values that stand for something. -/
theorem accepts_iff_postorder (resolver : Option (Resolver τ ι)) (text : String) (s : τ) :
    (∃ p, (Program.parse resolver text s).result = .ok p) ↔
      Resolves resolver (tokenize text) s ∧ ∃ t : Term String, t.Values ∧ t.tokens id = tokenize text := by
  constructor
  · intro h
    obtain ⟨p, hp⟩ := h
    obtain ⟨t, s', hr, hn, -⟩ := Program.parse_eq_ok_iff.mp hp
    refine ⟨resolves_of_unrefused (unrefused_of_parse hp), t.map Operand.name, Term.values_of_reads hr, ?_⟩
    rw [Term.tokens_map, Function.id_comp]
    exact hn
  · intro h
    obtain ⟨hres, t, hv, hn⟩ := h
    obtain ⟨u, s', hr, rfl⟩ := Term.exists_reads hv (hn ▸ hres)
    rw [Term.tokens_map, Function.id_comp] at hn
    exact ⟨_, Program.parse_eq_ok_iff.mpr ⟨u, s', hr, hn, rfl⟩⟩

/-- The tokens are the only ones that the text spaces out. The first refused one decides, then the height at the
    end. What is accepted are the postorders of trees over values that stand for something, each of one tree. -/
theorem parse_reports_first (resolver : Option (Resolver τ ι)) (text : String) (s : τ) :
    (∀ tokens, Spaced tokens text.toList ↔ tokens = tokenize text) ∧
    (∀ i e, refusal? resolver (tokenize text) s i = some e →
      (∀ j < i, refusal? resolver (tokenize text) s j = none) →
      (Program.parse resolver text s).result = .error e ∧ 0 ≤ height ((tokenize text).take i)) ∧
    ((∀ i, refusal? resolver (tokenize text) s i = none) →
      ((Program.parse resolver text s).result = .error .empty ↔ tokenize text = []) ∧
      (∀ n : Nat, (Program.parse resolver text s).result = .error (.unbalanced n) ↔
        2 ≤ n ∧ height (tokenize text) = n) ∧
      ((∃ p, (Program.parse resolver text s).result = .ok p) ↔
        tokenize text ≠ [] ∧ height (tokenize text) < 2)) ∧
    ((∃ p, (Program.parse resolver text s).result = .ok p) ↔
      Resolves resolver (tokenize text) s ∧ ∃ t : Term String, t.Values ∧ t.tokens id = tokenize text) ∧
    ∀ t u : Term String, t.Values → u.Values → t.tokens id = tokenize text → u.tokens id = tokenize text → t = u := by
  refine ⟨?_, ?_, result_of_unrefused, accepts_iff_postorder resolver text s, ?_⟩
  · intro tokens
    rw [← tokenize_eq_iff, eq_comm]
  · intro i e h hfirst
    exact parse_refusal h hfirst
  · intro t u ht hu hnt hnu
    exact Term.eq_of_tokens_eq ht hu (hnt.trans hnu.symm)

/-- The operator comes before the name that nobody knows. -/
example : refusal? (none : Option (Resolver Unit String)) (tokenize "1 + x") () 1 = some (.malformed 1 "+" 1) := by
  decide +kernel

end ReversePolish
