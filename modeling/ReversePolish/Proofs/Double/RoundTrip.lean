/-
  ReversePolish.Proofs.Double.RoundTrip — a plain text is read as the double it was made
  from.

  A positional text is digits, or digits on both sides of a point (`Positional`). The
  decimal that is written has the value of its text, whether the point stands before the
  digits, among them or after zeros (`positional_positional`), and the text is a numeral
  of the same value; neither radix nor name comes into it. The decimal rounds to the
  rank, so the rank is read, and the sign stands apart. Infinities and NaN are read by
  their names. Thus every double is read again from its text, down to the last bit and
  the sign of zero (`parse?_plain`). A plain text has no space in it (`plain_no_space`).
-/

import Mathlib.Data.List.TakeWhile
import ReversePolish.Double.Literal
import ReversePolish.Proofs.Double.Bits
import ReversePolish.Proofs.Double.Shortest

namespace ReversePolish.Double

open Literal

/-! ## Positional texts -/

/-- Digits with at most one point, some of them before it, and their value. -/
inductive Positional : List Char → ℚ → Prop
  | integer {whole : List Char} : whole ≠ [] → (∀ c ∈ whole, c.isDigit = true) →
      Positional whole (Nat.ofDigitChars 10 whole 0)
  | point {whole fraction : List Char} : whole ≠ [] → (∀ c ∈ whole, c.isDigit = true) →
      (∀ c ∈ fraction, c.isDigit = true) →
      Positional (whole ++ '.' :: fraction) (Nat.ofDigitChars 10 (whole ++ fraction) 0 * 10 ^ (-fraction.length : ℤ))

theorem isDigit_replicate_zero (k : Nat) : ∀ c ∈ List.replicate k '0', c.isDigit = true := by
  intro c hc
  rw [List.eq_of_mem_replicate hc]
  decide

theorem isDigit_append {before after : List Char} (hb : ∀ c ∈ before, c.isDigit = true)
    (ha : ∀ c ∈ after, c.isDigit = true) : ∀ c ∈ before ++ after, c.isDigit = true := by
  intro c hc
  rcases List.mem_append.mp hc with hc | hc
  · exact hb c hc
  · exact ha c hc

/-- Digits with the point after so many of them, padded with zeros, have their value. -/
theorem positional_positional {digits : List Char} (hd : ∀ c ∈ digits, c.isDigit = true) (hne : digits ≠ [])
    (whole : ℤ) :
    Positional (positional .plain digits whole) (Nat.ofDigitChars 10 digits 0 * 10 ^ (whole - digits.length)) := by
  unfold positional
  by_cases hle : whole ≤ 0
  · -- the point stands before the digits
    have hlen : -((List.replicate (-whole).toNat '0' ++ digits).length : ℤ) = whole - digits.length := by
      rw [List.length_append, List.length_replicate]
      omega
    have hvalue : Nat.ofDigitChars 10 (['0'] ++ (List.replicate (-whole).toNat '0' ++ digits)) 0 =
        Nat.ofDigitChars 10 digits 0 := by
      rw [Nat.ofDigitChars_append, Nat.ofDigitChars_append, Nat.ofDigitChars_replicate_zero]
      rfl
    rw [if_pos hle, ← hlen, ← hvalue]
    exact @Positional.point ['0'] _ (by simp) (by simp) (isDigit_append (isDigit_replicate_zero _) hd)
  · rw [if_neg hle]
    by_cases hlt : whole < digits.length
    · -- the point stands among the digits
      have hlen : -((digits.drop whole.toNat).length : ℤ) = whole - digits.length := by
        rw [List.length_drop]
        omega
      have htake : digits.take whole.toNat ≠ [] := by
        intro h
        rcases List.take_eq_nil_iff.mp h with h | h
        · omega
        · exact hne h
      have hw : ∀ c ∈ digits.take whole.toNat, c.isDigit = true := fun c hc => hd c (List.mem_of_mem_take hc)
      have hf : ∀ c ∈ digits.drop whole.toNat, c.isDigit = true := fun c hc => hd c (List.mem_of_mem_drop hc)
      have hpoint := Positional.point htake hw hf
      rw [hlen, List.take_append_drop] at hpoint
      rwa [if_pos hlt]
    · -- zeros stand after the digits, and no point
      have hpow : (10 : ℚ) ^ (whole.toNat - digits.length) = 10 ^ (whole - digits.length) := by
        rw [← zpow_natCast]
        congr 1
        omega
      have hinteger := @Positional.integer (digits ++ List.replicate (whole.toNat - digits.length) '0') (by simp [hne])
        (isDigit_append hd (isDigit_replicate_zero _))
      rw [Nat.ofDigitChars_append, Nat.ofDigitChars_replicate_zero, Nat.cast_mul, Nat.cast_pow, Nat.cast_ofNat, hpow,
        mul_comm] at hinteger
      rw [if_neg hlt]
      simpa [Layout.plain] using hinteger

namespace Positional

theorem head {text : List Char} {q : ℚ} (h : Positional text q) : ∃ c rest, text = c :: rest ∧ c.isDigit = true := by
  cases h with
  | integer hne hw =>
    obtain ⟨c, rest, rfl⟩ := List.exists_cons_of_ne_nil hne
    exact ⟨c, rest, rfl, hw c List.mem_cons_self⟩
  | point hne hw hf =>
    obtain ⟨c, rest, rfl⟩ := List.exists_cons_of_ne_nil hne
    exact ⟨c, _, List.cons_append, hw c List.mem_cons_self⟩

theorem chars {text : List Char} {q : ℚ} (h : Positional text q) : ∀ c ∈ text, c.isDigit = true ∨ c = '.' := by
  intro c hc
  cases h with
  | integer hne hw => exact Or.inl (hw c hc)
  | point hne hw hf =>
    rcases List.mem_append.mp hc with hc | hc
    · exact Or.inl (hw c hc)
    · rcases List.mem_cons.mp hc with hc | hc
      · exact Or.inr hc
      · exact Or.inl (hf c hc)

end Positional

/-! ## Reading them -/

namespace Literal

def Numeral.value (n : Numeral) : ℚ := n.significand * 10 ^ n.exponent

theorem takeWhile_digits {digits : List Char} (h : ∀ c ∈ digits, c.isDigit = true) :
    digits.takeWhile Char.isDigit = digits ∧ digits.dropWhile Char.isDigit = [] :=
  ⟨List.takeWhile_eq_self_iff.mpr h, List.dropWhile_eq_nil_iff.mpr h⟩

/-- A positional text is a numeral of its value. -/
theorem numeral?_positional {text : List Char} {q : ℚ} (h : Positional text q) :
    ∃ n, numeral? text = some n ∧ n.value = q := by
  cases h with
  | integer hne hw =>
    obtain ⟨ht, hd⟩ := takeWhile_digits hw
    refine ⟨{ significand := Nat.ofDigitChars 10 text 0, exponent := 0 }, ?_, ?_⟩
    · simp [numeral?, ht, hd, hne, exponentPart?]
    · rw [Numeral.value, zpow_zero, mul_one]
  | @point whole fraction hne hw hf =>
    obtain ⟨ht, hd⟩ := takeWhile_digits hf
    have hpoint : Char.isDigit '.' = false := by decide
    have htake : (whole ++ '.' :: fraction).takeWhile Char.isDigit = whole := by
      rw [List.takeWhile_append_of_pos hw, List.takeWhile_cons_of_neg (by simp [hpoint]), List.append_nil]
    have hdrop : (whole ++ '.' :: fraction).dropWhile Char.isDigit = '.' :: fraction := by
      rw [List.dropWhile_append_of_pos hw, List.dropWhile_cons_of_neg (by simp [hpoint])]
    refine ⟨{ significand := Nat.ofDigitChars 10 (whole ++ fraction) 0, exponent := -fraction.length }, ?_, rfl⟩
    simp [numeral?, htake, hdrop, ht, hd, hne, exponentPart?]

theorem splitSign_digit {c : Char} (hc : c.isDigit = true) (rest : List Char) :
    splitSign (c :: rest) = (false, c :: rest) := by
  unfold splitSign
  split
  case h_1 h => cases h; exact absurd hc (by decide)
  case h_2 h => cases h; exact absurd hc (by decide)
  case h_3 => rfl

theorem toLower_digit {c : Char} (hc : c.isDigit = true) : c.toLower = c := by
  unfold Char.isDigit at hc
  rw [Bool.and_eq_true, decide_eq_true_eq, decide_eq_true_eq] at hc
  refine dif_neg fun h => ?_
  exact absurd (UInt32.le_trans h.1 hc.2) (by decide)

theorem named?_digit (negative : Bool) {c : Char} (hc : c.isDigit = true) (rest : List Char) :
    named? negative (c :: rest) = none := by
  have hi : c ≠ 'i' := fun h => absurd (h ▸ hc) (by decide)
  have hn : c ≠ 'n' := fun h => absurd (h ▸ hc) (by decide)
  simp [named?, hi, hn]

theorem radix?_positional {text : List Char} {q : ℚ} (h : Positional text q) : radix? text = none := by
  unfold radix?
  split
  case h_1 => exact absurd (h.chars 'x' (by simp)) (by decide)
  case h_2 => exact absurd (h.chars 'h' (by simp)) (by decide)
  case h_3 => exact absurd (h.chars 'b' (by simp)) (by decide)
  case h_4 => exact absurd (h.chars 'o' (by simp)) (by decide)
  case h_5 => rfl

/-- A positional text with or without a minus is a decimal with that sign. -/
theorem ofChars?_positional {text : List Char} {q : ℚ} (h : Positional text q) (negative : Bool) :
    ofChars? ((if negative then ['-'] else []) ++ text) =
      (numeral? text).map fun n => ofRank negative (decimalRank n.significand n.exponent) := by
  obtain ⟨c, rest, rfl, hc⟩ := h.head
  have hnamed : named? negative ((c :: rest).map Char.toLower) = none := by
    rw [List.map_cons, toLower_digit hc]
    exact named?_digit negative hc _
  cases negative with
  | true =>
    show decimal? ('-' :: c :: rest) = _
    unfold decimal?
    simp only [splitSign, hnamed]
  | false =>
    show ofChars? (c :: rest) = _
    unfold ofChars? decimal?
    simp only [radix?_positional h, splitSign_digit hc, hnamed]

end Literal

/-! ## Plain texts -/

theorem positional_render (d : Decimal) : Positional (d.render .plain) (d.digits * 10 ^ d.exponent) := by
  have hd : ∀ c ∈ Nat.toDigits 10 d.digits, c.isDigit = true := fun _ hc =>
    Nat.isDigit_of_mem_toDigits (by decide) (by decide) hc
  have h := positional_positional hd Nat.toDigits_ne_nil ((Nat.toDigits 10 d.digits).length + d.exponent)
  rwa [Nat.ofDigitChars_ten_toDigits, add_sub_cancel_left] at h

/-- The decimal of a rank, written out, is read as the rank with the sign in front of it. -/
theorem ofChars?_render {rank : Nat} (h0 : 0 < rank) (hr : rank < infinityRank) (negative : Bool) :
    ofChars? ((if negative then ['-'] else []) ++ (shortest rank).render .plain) = some (ofRank negative rank) := by
  have htext := positional_render (shortest rank)
  obtain ⟨n, hn, hv⟩ := numeral?_positional htext
  have hrounds : RoundsTo rank (n.significand * 10 ^ n.exponent) := by
    have := shortest_roundsTo h0
    rwa [← hv] at this
  rw [ofChars?_positional htext, hn, Option.map_some, decimalRank_eq h0 hr hrounds]

/-- The sign in front of a name, a zero or a decimal. -/
theorem renderChars_plain (x : Float) :
    renderChars .plain x =
      if x.isNaN then ['N', 'a', 'N']
      else (if decide (signBit ≤ x.toBits.toNat) then ['-'] else []) ++
        if rank x = infinityRank then ['i', 'n', 'f']
        else if rank x = 0 then ['0'] else (shortest (rank x)).render .plain := by
  have hsign : (if x.toBits.toNat < signBit then [] else ['-']) =
      if decide (signBit ≤ x.toBits.toNat) then ['-'] else [] := by
    by_cases h : signBit ≤ x.toBits.toNat
    · rw [if_pos (decide_eq_true h), if_neg (by omega)]
    · rw [if_pos (by omega), if_neg (by simpa using h)]
  unfold renderChars
  simp only [hsign]
  show (if _ then _ else if rank x = infinityRank then _ else if rank x = 0 then _ else _) = _
  by_cases hinf : rank x = infinityRank
  · rw [if_pos hinf, if_pos hinf]
  · rw [if_neg hinf, if_neg hinf]
    by_cases hzero : rank x = 0
    · rw [if_pos hzero, if_pos hzero]
      rfl
    · rw [if_neg hzero, if_neg hzero]
      rfl

/-- A plain text is a literal of the double it was made from. -/
theorem parse?_plain (x : Float) : parse? (plain x) = some x := by
  rw [parse?, plain, String.toList_ofList, renderChars_plain]
  cases hnan : x.isNaN with
  | true =>
    rw [eq_nan hnan]
    rfl
  | false =>
    have hle := rank_le hnan
    have hx := ofRank_rank x
    generalize decide (signBit ≤ x.toBits.toNat) = negative at *
    generalize rank x = r at *
    rw [if_neg Bool.false_ne_true, ← hx]
    by_cases hinf : r = infinityRank
    · rw [if_pos hinf, hinf]
      cases negative <;> rfl
    · rw [if_neg hinf]
      by_cases hzero : r = 0
      · rw [if_pos hzero, hzero]
        cases negative <;> rfl
      · rw [if_neg hzero]
        exact ofChars?_render (by omega) (by omega) negative

/-- A plain text has digits, at most a point, a minus, and the letters of `NaN` and `inf` in it. -/
theorem chars_plain (x : Float) :
    ∀ c ∈ (plain x).toList, c.isDigit = true ∨ c ∈ ['.', '-', 'N', 'a', 'i', 'n', 'f'] := by
  have hnan : ['N', 'a', 'N'] ⊆ ['.', '-', 'N', 'a', 'i', 'n', 'f'] := by simp
  have hinf : ['i', 'n', 'f'] ⊆ ['.', '-', 'N', 'a', 'i', 'n', 'f'] := by simp
  have hminus : ['-'] ⊆ ['.', '-', 'N', 'a', 'i', 'n', 'f'] := by simp
  intro c hc
  rw [plain, String.toList_ofList, renderChars_plain] at hc
  split at hc
  · exact Or.inr (hnan hc)
  · rcases List.mem_append.mp hc with hc | hc
    · split at hc
      · exact Or.inr (hminus hc)
      · cases hc
    · split at hc
      · exact Or.inr (hinf hc)
      · split at hc
        · rw [List.mem_singleton.mp hc]
          exact Or.inl (by decide)
        · rcases (positional_render _).chars c hc with h | rfl
          · exact Or.inl h
          · exact Or.inr List.mem_cons_self

theorem plain_no_space (x : Float) : ∀ c ∈ (plain x).toList, c ≠ ' ' := by
  intro c hc he
  subst he
  rcases chars_plain x ' ' hc with h | h
  · exact absurd h (by decide)
  · exact absurd h (by decide)

end ReversePolish.Double
