/-
  ReversePolish.Proofs.Double.Notations — the notations of an integer agree.

  An integer is written in a radix (`InRadix`) or as a decimal (`InDecimal`), with any
  number of zeros in front, digits in either case, and after a decimal nothing, a point, zeros
  behind the point or an exponent that is zero. The two are read on different ways: an
  integer in a radix becomes a word first and then a double, and a decimal is rounded as
  it stands. Both come to the double nearest to the integer, and there is one such double
  only (`parse?_of_inRadix`, `parse?_of_inDecimal`). A word holds 64 bits, so beyond them
  only the decimals are left.

  Hence it would make no difference to read decimals as words first wherever they are
  (`integerFirst?`), but for the zero with a minus, which a word does not keep
  (`integerFirst?_eq_or`).
-/

import ReversePolish.Proofs.Double.Grammar

namespace ReversePolish.Double.Literal

/-! ## Writing integers -/

def InRadix (n : ℤ) (text : List Char) : Prop :=
  ∃ base rest negative digits m, Prefixed text base rest ∧ Signed rest negative digits ∧ Spells base digits m ∧
    signed negative m = n

/-- A text is an integer as a decimal, where only negative integers have a minus. -/
def InDecimal (n : ℤ) (text : List Char) : Prop :=
  ∃ digits point exponent, Signed text (decide (n < 0)) (digits ++ point ++ exponent) ∧ Spells 10 digits n.natAbs ∧
    (point = [] ∨ ∃ k, point = '.' :: List.replicate k '0') ∧ ExponentPart id exponent 0

theorem Spells.singleton {base : Nat} {c : Char} {d : Nat} (h : IsDigit base c d) : Spells base [c] d := by
  have := Spells.intro (List.cons_ne_nil c []) (.cons h .nil)
  rwa [List.reverse_singleton, Nat.ofDigits_singleton] at this

theorem Spells.concat {base : Nat} {text : List Char} {n : Nat} (h : Spells base text n) {c : Char} {d : Nat}
    (hc : IsDigit base c d) : Spells base (text ++ [c]) (base * n + d) := by
  obtain ⟨hne, hd⟩ := h
  have := Spells.intro (List.append_ne_nil_of_left_ne_nil hne [c]) (List.rel_append hd (.cons hc .nil))
  rw [List.reverse_append, List.reverse_singleton, List.singleton_append, Nat.ofDigits_cons, Nat.add_comm] at this
  exact this

theorem Spells.base_pos {base : Nat} {text : List Char} {n : Nat} (h : Spells base text n) : 0 < base := by
  obtain ⟨hne, hd⟩ := h
  cases hd with
  | nil => exact absurd rfl hne
  | cons hc _ => exact Nat.zero_lt_of_lt hc.1

/-- Zeros in front do not count. -/
theorem Spells.zeros_append {base : Nat} {text : List Char} {n : Nat} (h : Spells base text n) (k : Nat) :
    Spells base (List.replicate k '0' ++ text) n := by
  have hzero : IsDigit base '0' 0 := ⟨h.base_pos, Or.inl rfl⟩
  induction k with
  | zero => exact h
  | succ k ih =>
    rw [List.replicate_succ, List.cons_append]
    obtain ⟨-, hd⟩ := ih
    have := Spells.intro (List.cons_ne_nil _ _) (.cons hzero hd)
    rwa [List.reverse_cons, Nat.ofDigits_append, Nat.ofDigits_singleton, Nat.mul_zero, Nat.add_zero] at this

/-- Each zero behind is one more factor of the base. -/
theorem Spells.append_zeros {base : Nat} {text : List Char} {n : Nat} (h : Spells base text n) (k : Nat) :
    Spells base (text ++ List.replicate k '0') (n * base ^ k) := by
  have hzero : IsDigit base '0' 0 := ⟨h.base_pos, Or.inl rfl⟩
  induction k with
  | zero => simpa using h
  | succ k ih =>
    have := ih.concat hzero
    rwa [List.append_assoc, ← List.replicate_succ', Nat.add_zero, Nat.mul_comm, Nat.mul_assoc, ← Nat.pow_succ] at this

/-- Digits that are written one by one spell the number. -/
theorem spells_map_toDigits {base : Nat} (hb : 1 < base) {f : Char → Char}
    (hf : ∀ d < base, IsDigit base (f (Nat.digitChar d)) d) (n : Nat) :
    Spells base ((Nat.toDigits base n).map f) n := by
  induction n using Nat.strongRecOn with
  | _ n ih =>
    rcases Nat.lt_or_ge n base with hn | hn
    · rw [Nat.toDigits_of_lt_base hn]
      exact .singleton (hf n hn)
    · rw [Nat.toDigits_of_base_le hb hn, List.map_append]
      have := (ih (n / base) (Nat.div_lt_self (by omega) hb)).concat (hf _ (Nat.mod_lt n (by omega)))
      rwa [Nat.div_add_mod] at this

/-- The usual digits of a number spell it, in lower case, in upper case, and after zeros. -/
theorem spells_toDigits {base : Nat} (hb : 1 < base) (n k : Nat) :
    Spells base (List.replicate k '0' ++ Nat.toDigits base n) n ∧
      Spells base (List.replicate k '0' ++ (Nat.toDigits base n).map Char.toUpper) n := by
  have hlower := spells_map_toDigits (f := id) hb (fun d hd => ⟨hd, Or.inl rfl⟩) n
  have hupper := spells_map_toDigits hb (fun d hd => ⟨hd, Or.inr rfl⟩) n
  rw [List.map_id] at hlower
  exact ⟨hlower.zeros_append k, hupper.zeros_append k⟩

/-! ## Reading integers in a radix -/

theorem parse?_of_inRadix {n : ℤ} {token : String} (h : InRadix n token.toList) :
    parse? token = if -2 ^ 63 ≤ n ∧ n ≤ 2 ^ 63 - 1 then some (ofInt n) else none := by
  obtain ⟨base, rest, negative, digits, m, hp, hs, hd, rfl⟩ := h
  have hfits : (fitsWord (signed negative m) = true) = (-2 ^ 63 ≤ signed negative m ∧ signed negative m ≤ 2 ^ 63 - 1) :=
    propext fitsWord_iff
  rw [parse?, ofChars?, radix?_eq_some_iff.mpr hp]
  simp only [word?_of_spells hp.base_le hs hd, hfits]
  split <;> rfl

/-! ## Reading decimals -/

def isDecimalChar (c : Char) : Bool := c.isDigit || ['+', '-', '.', 'e', 'E'].contains c

theorem not_prefixed {text : List Char} (h : ∀ c ∈ text, isDecimalChar c = true) : ∀ base rest, ¬Prefixed text base rest := by
  intro base rest hp
  cases hp with
  | zeroX => exact absurd (h 'x' (by simp)) (by decide)
  | h => exact absurd (h 'h' (by simp)) (by decide)
  | b => exact absurd (h 'b' (by simp)) (by decide)
  | o => exact absurd (h 'o' (by simp)) (by decide)

theorem isDecimalChar_of_spells {text : List Char} {n : Nat} (h : Spells 10 text n) : ∀ c ∈ text, isDecimalChar c = true := by
  intro c hc
  rw [isDecimalChar, (spells_ten_iff.mp h).2.1 c hc, Bool.true_or]

theorem isDecimalChar_of_signed {text rest : List Char} {negative : Bool} (hs : Signed text negative rest)
    (h : ∀ c ∈ rest, isDecimalChar c = true) : ∀ c ∈ text, isDecimalChar c = true := by
  cases hs with
  | bare => exact h
  | plus => exact List.forall_mem_cons.mpr ⟨by decide, h⟩
  | minus => exact List.forall_mem_cons.mpr ⟨by decide, h⟩

theorem isDecimalChar_of_exponentPart {count : Nat → Nat} {text : List Char} {e : ℤ} (h : ExponentPart count text e) :
    ∀ c ∈ text, isDecimalChar c = true := by
  cases h with
  | absent => simp
  | present hc hs hd =>
    refine List.forall_mem_cons.mpr ⟨?_, isDecimalChar_of_signed hs (isDecimalChar_of_spells hd)⟩
    rcases hc with rfl | rfl <;> decide

theorem isDecimalChar_of_mantissa {text : List Char} {n places : Nat} (h : Mantissa text n places) :
    ∀ c ∈ text, isDecimalChar c = true := by
  cases h with
  | integer hd => exact isDecimalChar_of_spells hd
  | point hd =>
    have := isDecimalChar_of_spells hd
    intro c hc
    rcases List.mem_append.mp hc with hc | hc
    · exact this c (List.mem_append_left _ hc)
    · rcases List.mem_cons.mp hc with rfl | hc
      · decide
      · exact this c (List.mem_append_right _ hc)

/-- A decimal is read as the nearest double, whatever the point and the exponent. -/
theorem ofChars?_of_decimal {text mantissa exponent : List Char} {negative : Bool} {n places : Nat} {e : ℤ}
    (hs : Signed text negative (mantissa ++ exponent)) (hm : Mantissa mantissa n places)
    (he : ExponentPart countedExponent exponent e) {x : Float} (hx : Nearest negative (n * 10 ^ (e - places)) x) :
    ofChars? text = some x := by
  refine ofChars?_eq_some_iff.mpr (.decimal (not_prefixed ?_) hs hm he hx)
  refine isDecimalChar_of_signed hs fun c hc => ?_
  rcases List.mem_append.mp hc with hc | hc
  · exact isDecimalChar_of_mantissa hm c hc
  · exact isDecimalChar_of_exponentPart he c hc

/-- An exponent that is zero counts as zero. -/
theorem ExponentPart.counted_of_zero {text : List Char} (h : ExponentPart id text 0) : ExponentPart countedExponent text 0 := by
  generalize he : (0 : ℤ) = e at h
  cases h with
  | absent => exact .absent
  | @present c text digits negative n hc hs hd =>
    have hn : n = 0 := by
      rw [← natAbs_signed negative n]
      exact Int.natAbs_eq_zero.mpr he.symm
    subst hn
    have := @ExponentPart.present countedExponent _ _ _ _ _ hc hs hd
    rwa [countedExponent_of_lt (by decide)] at this

theorem parse?_of_inDecimal {n : ℤ} {token : String} (h : InDecimal n token.toList) : parse? token = some (ofInt n) := by
  obtain ⟨digits, point, exponent, hs, hd, hpoint, he⟩ := h
  have hx := nearest_ofInt n
  rcases hpoint with rfl | ⟨k, rfl⟩
  · rw [List.append_nil] at hs
    refine ofChars?_of_decimal hs (.integer hd) he.counted_of_zero ?_
    rwa [Nat.cast_zero, sub_zero, zpow_zero, mul_one]
  · refine ofChars?_of_decimal hs (.point (hd.append_zeros k)) he.counted_of_zero ?_
    have hq : ((n.natAbs * 10 ^ k : ℕ) : ℚ) * 10 ^ ((0 : ℤ) - (List.replicate k '0').length) = n.natAbs := by
      rw [List.length_replicate, zero_sub, zpow_neg, zpow_natCast, Nat.cast_mul, Nat.cast_pow, Nat.cast_ofNat,
        mul_inv_cancel_right₀ (by positivity)]
    rwa [hq]

/-! ## Words first -/

/-- Reading literals where a decimal that is a word is read as one. -/
def integerFirst? (text : List Char) : Option Float :=
  match radix? text with
  | some (base, digits) => (word? base digits).map ofInt
  | none =>
    match word? 10 text with
    | some n => some (ofInt n)
    | none => decimal? text

/-- Only a zero with a minus is another double as a word. -/
theorem integerFirst?_eq_or (text : List Char) :
    integerFirst? text = ofChars? text ∨
      ∃ digits, text = '-' :: digits ∧ Spells 10 digits 0 ∧ ofChars? text = some (-0) ∧ integerFirst? text = some 0 := by
  cases hr : radix? text with
  | some prefixed =>
    left
    rw [integerFirst?, ofChars?, hr]
  | none =>
    cases hw : word? 10 text with
    | none =>
      left
      rw [integerFirst?, ofChars?, hr, hw]
    | some n =>
      have hfirst : integerFirst? text = some (ofInt n) := by rw [integerFirst?, hr, hw]
      obtain ⟨negative, digits, m, hs, hd, rfl, -⟩ := (word?_eq_some_iff (by decide)).mp hw
      by_cases hsign : negative = decide (signed negative m < 0)
      · left
        have hdecimal : InDecimal (signed negative m) (String.ofList text).toList := by
          refine ⟨digits, [], [], ?_, ?_, Or.inl rfl, .absent⟩
          · rwa [← hsign, String.toList_ofList, List.append_nil, List.append_nil]
          · rwa [natAbs_signed]
        have hparse := parse?_of_inDecimal hdecimal
        rw [parse?, String.toList_ofList] at hparse
        rw [hfirst, hparse]
      · right
        obtain ⟨rfl, rfl⟩ : negative = true ∧ m = 0 := by
          cases negative with
          | false => exact absurd (by simp [signed]) hsign
          | true =>
            refine ⟨rfl, ?_⟩
            by_contra hm
            refine hsign (decide_eq_true ?_).symm
            rw [signed, if_pos rfl]
            omega
        -- integers have one zero, and decimals have two
        cases hs
        have hzero : (-0 : Float) = ofRank true (decimalRank 0 (0 - (0 : ℕ))) := by decide +kernel
        refine ⟨digits, rfl, hd, ?_, ?_⟩
        · have hs : Signed ('-' :: digits) true (digits ++ []) := by
            rw [List.append_nil]
            exact .minus digits
          rw [hzero]
          exact ofChars?_of_decimal hs (.integer hd) .absent (nearest_decimalRank true 0 _)
        · rw [hfirst]
          decide +kernel

/-! ## All notations -/

/-- All notations of an integer are read as the one double that is nearest to it. Those in a radix are for integers of
    64 bits only, and decimals for all. Reading decimals as words first would change nothing but the zero with a
    minus. -/
theorem notations_agree :
    (∀ n : ℤ, -2 ^ 63 ≤ n → n ≤ 2 ^ 63 - 1 → ∃ x, Nearest (decide (n < 0)) n.natAbs x ∧
      ∀ token : String, InRadix n token.toList ∨ InDecimal n token.toList → parse? token = some x) ∧
    (∀ n : ℤ, n < -2 ^ 63 ∨ 2 ^ 63 - 1 < n → ∃ x, Nearest (decide (n < 0)) n.natAbs x ∧
      (∀ token : String, InDecimal n token.toList → parse? token = some x) ∧
      ∀ token : String, InRadix n token.toList → parse? token = none) ∧
    (∀ base n k : Nat, 1 < base → Spells base (List.replicate k '0' ++ Nat.toDigits base n) n ∧
      Spells base (List.replicate k '0' ++ (Nat.toDigits base n).map Char.toUpper) n) ∧
    ∀ token : String, integerFirst? token.toList = parse? token ∨
      ∃ digits, token.toList = '-' :: digits ∧ Spells 10 digits 0 ∧ parse? token = some (-0) ∧
        integerFirst? token.toList = some 0 := by
  refine ⟨fun n hlow hhigh => ⟨ofInt n, nearest_ofInt n, fun token h => ?_⟩,
    fun n hout => ⟨ofInt n, nearest_ofInt n, fun token h => parse?_of_inDecimal h, fun token h => ?_⟩,
    fun base n k hb => spells_toDigits hb n k, fun token => integerFirst?_eq_or token.toList⟩
  · rcases h with h | h
    · rw [parse?_of_inRadix h, if_pos ⟨hlow, hhigh⟩]
    · exact parse?_of_inDecimal h
  · rw [parse?_of_inRadix h, if_neg (by omega)]

/-- An integer in the middle between two doubles, and one that is no word any more. -/
theorem notations_agree_on_ties :
    (∃ x, Nearest true 9007199254740993 x ∧ parse? "0x-0020000000000001" = some x ∧
      parse? "-9007199254740993.0e0" = some x) ∧
    parse? "h8000000000000000" = none ∧ ∃ x, Nearest false 9223372036854775808 x ∧
      parse? "+9223372036854775808." = some x := by
  have hexponent : ExponentPart id "e0".toList 0 :=
    .present (Or.inl rfl) (.bare _) (notations_agree.2.2.1 10 0 0 (by decide)).1
  refine ⟨?_, ?_⟩
  · obtain ⟨x, hx, hparse⟩ := notations_agree.1 (-9007199254740993) (by decide) (by decide)
    refine ⟨x, hx, hparse _ (Or.inl ?_), hparse _ (Or.inr ?_)⟩
    · have hd := (notations_agree.2.2.1 16 9007199254740993 2 (by decide)).1
      exact ⟨16, _, true, _, 9007199254740993, .zeroX _, .minus _, hd, rfl⟩
    · have hd := (notations_agree.2.2.1 10 9007199254740993 0 (by decide)).1
      exact ⟨"9007199254740993".toList, ['.', '0'], "e0".toList, .minus _, hd, Or.inr ⟨1, rfl⟩, hexponent⟩
  · obtain ⟨x, hx, hdecimal, hradix⟩ := notations_agree.2.1 9223372036854775808 (by decide)
    refine ⟨hradix _ ?_, x, hx, hdecimal _ ?_⟩
    · have hd := (notations_agree.2.2.1 16 9223372036854775808 0 (by decide)).1
      exact ⟨16, _, false, _, 9223372036854775808, .h _, .bare _, hd, rfl⟩
    · have hd := (notations_agree.2.2.1 10 9223372036854775808 0 (by decide)).1
      exact ⟨"9223372036854775808".toList, ['.'], [], .plus _, hd, Or.inr ⟨0, rfl⟩, .absent⟩

end ReversePolish.Double.Literal
