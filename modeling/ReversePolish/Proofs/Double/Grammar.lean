/-
  ReversePolish.Proofs.Double.Grammar — which texts are literals, and what they denote.

  The grammar is a relation between a text and a double (`Denotes`). Digits are the
  characters of a base in either case, and what they spell is their value in positional
  notation. An integer in a radix has its prefix, an optional sign and digits, and fits a
  signed word of 64 bits; a decimal has an optional sign and a name, or digits with at
  most one point and an optional exponent. What a number denotes is the nearest double.

  The grammar leaves open how much of an exponent counts. The reader stops to count once
  the exponent has reached 2^16, which is to leave the last digits off until it is less
  than 655360 (`countedExponent`). With that the reader accepts just the texts of the
  grammar, with just what they denote (`parse?_eq_some_iff`). Exponents that are written in
  full differ from those that count only where there are tens of thousands of digits to
  make up for them: in shorter texts both are beyond the infinity or both below the
  smallest double (`denotes_counted_iff`).
-/

import ReversePolish.Double.Literal
import ReversePolish.Proofs.Double.Rounding
import ReversePolish.Proofs.Double.RoundTrip

namespace ReversePolish.Double.Literal

/-! ## The grammar -/

def IsDigit (base : Nat) (c : Char) (digit : Nat) : Prop :=
  digit < base ∧ (c = Nat.digitChar digit ∨ c = (Nat.digitChar digit).toUpper)

/-- One or more digits, and what they spell. -/
inductive Spells (base : Nat) : List Char → Nat → Prop
  | intro {text : List Char} {digits : List Nat} : text ≠ [] → List.Forall₂ (IsDigit base) text digits →
      Spells base text (Nat.ofDigits base digits.reverse)

/-- An optional sign in front of a text: whether it is a minus, and the text. -/
inductive Signed : List Char → Bool → List Char → Prop
  | bare (rest : List Char) : Signed rest false rest
  | plus (rest : List Char) : Signed ('+' :: rest) false rest
  | minus (rest : List Char) : Signed ('-' :: rest) true rest

inductive Prefixed : List Char → Nat → List Char → Prop
  | zeroX (rest : List Char) : Prefixed ('0' :: 'x' :: rest) 16 rest
  | h (rest : List Char) : Prefixed ('h' :: rest) 16 rest
  | b (rest : List Char) : Prefixed ('b' :: rest) 2 rest
  | o (rest : List Char) : Prefixed ('o' :: rest) 8 rest

/-- Decimal digits with at most one point: what all of them spell, and how many stand after the point. -/
inductive Mantissa : List Char → Nat → Nat → Prop
  | integer {digits : List Char} {n : Nat} : Spells 10 digits n → Mantissa digits n 0
  | point {whole fraction : List Char} {n : Nat} : Spells 10 (whole ++ fraction) n →
      Mantissa (whole ++ '.' :: fraction) n fraction.length

def signed (negative : Bool) (n : Nat) : ℤ := if negative then -n else n

/-- Nothing, or `e` and an exponent, whose digits count as `count` says. -/
inductive ExponentPart (count : Nat → Nat) : List Char → ℤ → Prop
  | absent : ExponentPart count [] 0
  | present {e : Char} {text digits : List Char} {negative : Bool} {n : Nat} : e = 'e' ∨ e = 'E' →
      Signed text negative digits → Spells 10 digits n → ExponentPart count (e :: text) (signed negative (count n))

inductive Denotes (count : Nat → Nat) (text : List Char) (x : Float) : Prop
  | integer {base n : Nat} {rest digits : List Char} {negative : Bool} : Prefixed text base rest →
      Signed rest negative digits → Spells base digits n →
      -2 ^ 63 ≤ signed negative n → signed negative n ≤ 2 ^ 63 - 1 →
      Nearest (decide (signed negative n < 0)) n x → Denotes count text x
  | infinity {name : List Char} {negative : Bool} : (∀ base rest, ¬Prefixed text base rest) →
      Signed text negative name →
      name.map Char.toLower = "inf".toList ∨ name.map Char.toLower = "infinity".toList →
      x.isInf = true → isNegative x = negative → Denotes count text x
  | nan {name : List Char} {negative : Bool} : (∀ base rest, ¬Prefixed text base rest) → Signed text negative name →
      name.map Char.toLower = "nan".toList → x.isNaN = true → Denotes count text x
  | decimal {mantissa exponent : List Char} {n places : Nat} {e : ℤ} {negative : Bool} :
      (∀ base rest, ¬Prefixed text base rest) → Signed text negative (mantissa ++ exponent) →
      Mantissa mantissa n places → ExponentPart count exponent e →
      Nearest negative (n * 10 ^ (e - places)) x → Denotes count text x

/-! ## Digits -/

/-- What holds of the first 128 characters one by one holds of them all. -/
theorem forall_ascii {P : Char → Prop} (h : ∀ n < 128, P (Char.ofNat n)) {c : Char} (hc : c.toNat < 128) : P c := by
  have := h c.toNat hc
  rwa [Char.ofNat_toNat] at this

theorem ascii_of_digitValue_lt {c : Char} (h : digitValue c < 36) : c.toNat < 128 := by
  unfold digitValue at h
  split at h
  · rename_i hc
    exact Nat.lt_of_le_of_lt hc.2 (by decide)
  · split at h
    · rename_i hc
      exact Nat.lt_of_le_of_lt hc.2 (by decide)
    · split at h
      · rename_i hc
        exact Nat.lt_of_le_of_lt hc.2 (by decide)
      · omega

theorem digitChar_digitValue {c : Char} (h : digitValue c < 16) :
    c = Nat.digitChar (digitValue c) ∨ c = (Nat.digitChar (digitValue c)).toUpper := by
  have hc := ascii_of_digitValue_lt (Nat.lt_trans h (by decide))
  revert h
  exact forall_ascii (P := fun c => digitValue c < 16 →
    c = Nat.digitChar (digitValue c) ∨ c = (Nat.digitChar (digitValue c)).toUpper) (by decide +kernel) hc

theorem isDigit_iff {base : Nat} (hb : base ≤ 16) {c : Char} {d : Nat} :
    IsDigit base c d ↔ digitValue c = d ∧ d < base := by
  constructor
  · rintro ⟨hd, h⟩
    refine ⟨?_, hd⟩
    have hsmall : ∀ d < 16, digitValue (Nat.digitChar d) = d ∧ digitValue (Nat.digitChar d).toUpper = d := by
      decide +kernel
    rcases h with rfl | rfl
    · exact (hsmall d (by omega)).1
    · exact (hsmall d (by omega)).2
  · rintro ⟨rfl, hd⟩
    exact ⟨hd, digitChar_digitValue (by omega)⟩

theorem ofDigits_concat (base : Nat) (text : List Char) (c : Char) :
    ofDigits base (text ++ [c]) = base * ofDigits base text + digitValue c := by
  simp [ofDigits]

theorem ofDigits_eq (base : Nat) (text : List Char) :
    ofDigits base text = Nat.ofDigits base (text.map digitValue).reverse := by
  induction text using List.reverseRecOn with
  | nil => rfl
  | append_singleton text c ih =>
    rw [ofDigits_concat, ih, List.map_append, List.reverse_append, List.map_singleton, List.reverse_singleton,
      List.singleton_append, Nat.ofDigits_cons, Nat.add_comm]

theorem forall₂_isDigit_iff {base : Nat} (hb : base ≤ 16) {text : List Char} {digits : List Nat} :
    List.Forall₂ (IsDigit base) text digits ↔ (∀ c ∈ text, digitValue c < base) ∧ digits = text.map digitValue := by
  induction text generalizing digits with
  | nil => simp
  | cons c text ih =>
    rw [List.forall₂_cons_left_iff]
    simp only [isDigit_iff hb, ih, List.forall_mem_cons, List.map_cons]
    constructor
    · rintro ⟨d, rest, ⟨rfl, hd⟩, ⟨hrest, rfl⟩, rfl⟩
      exact ⟨⟨hd, hrest⟩, rfl⟩
    · rintro ⟨⟨hd, hrest⟩, rfl⟩
      exact ⟨_, _, ⟨rfl, hd⟩, ⟨hrest, rfl⟩, rfl⟩

theorem spells_iff {base : Nat} (hb : base ≤ 16) {text : List Char} {n : Nat} :
    Spells base text n ↔ text ≠ [] ∧ (∀ c ∈ text, digitValue c < base) ∧ n = ofDigits base text := by
  constructor
  · rintro ⟨hne, h⟩
    obtain ⟨hd, rfl⟩ := (forall₂_isDigit_iff hb).mp h
    exact ⟨hne, hd, (ofDigits_eq base text).symm⟩
  · rintro ⟨hne, hd, rfl⟩
    rw [ofDigits_eq]
    exact .intro hne ((forall₂_isDigit_iff hb).mpr ⟨hd, rfl⟩)

theorem ascii_of_isDigit {c : Char} (h : c.isDigit = true) : c.toNat < 128 := by
  unfold Char.isDigit at h
  rw [Bool.and_eq_true, decide_eq_true_eq, decide_eq_true_eq] at h
  exact Nat.lt_of_le_of_lt h.2 (by decide)

/-- In base ten the digits are those from `0` to `9`. -/
theorem digitValue_lt_ten_iff {c : Char} : digitValue c < 10 ↔ c.isDigit = true := by
  constructor
  · intro h
    have hc := ascii_of_digitValue_lt (Nat.lt_trans h (by decide))
    revert h
    exact forall_ascii (P := fun c => digitValue c < 10 → c.isDigit = true) (by decide +kernel) hc
  · intro h
    have hc := ascii_of_isDigit h
    revert h
    exact forall_ascii (P := fun c => c.isDigit = true → digitValue c < 10) (by decide +kernel) hc

theorem digitValue_of_isDigit {c : Char} (h : c.isDigit = true) : digitValue c = c.toNat - '0'.toNat := by
  have hc := ascii_of_isDigit h
  revert h
  exact forall_ascii (P := fun c => c.isDigit = true → digitValue c = c.toNat - '0'.toNat) (by decide +kernel) hc

theorem ofDigitChars_eq {text : List Char} (h : ∀ c ∈ text, c.isDigit = true) :
    Nat.ofDigitChars 10 text 0 = ofDigits 10 text := by
  rw [Nat.ofDigitChars_eq_foldl, ofDigits]
  refine List.foldl_ext _ _ _ fun n c hc => ?_
  rw [digitValue_of_isDigit (h c hc)]

theorem spells_ten_iff {text : List Char} {n : Nat} :
    Spells 10 text n ↔ text ≠ [] ∧ (∀ c ∈ text, c.isDigit = true) ∧ n = Nat.ofDigitChars 10 text 0 := by
  simp only [spells_iff (show 10 ≤ 16 by decide), digitValue_lt_ten_iff]
  constructor
  · rintro ⟨hne, hd, rfl⟩
    exact ⟨hne, hd, (ofDigitChars_eq hd).symm⟩
  · rintro ⟨hne, hd, rfl⟩
    exact ⟨hne, hd, ofDigitChars_eq hd⟩

/-! ## Signs and integers -/

theorem signed_splitSign (text : List Char) : Signed text (splitSign text).1 (splitSign text).2 := by
  unfold splitSign
  split
  · exact .minus _
  · exact .plus _
  · exact .bare _

/-- A text that does not begin with a sign itself has the sign that is in front of it. -/
theorem splitSign_of_signed {text rest : List Char} {negative : Bool} (h : Signed text negative rest)
    (hhead : ∀ c ∈ rest.head?, c ≠ '+' ∧ c ≠ '-') : splitSign text = (negative, rest) := by
  cases h with
  | plus => rfl
  | minus => rfl
  | bare =>
    unfold splitSign
    split
    · exact absurd rfl (hhead '-' rfl).2
    · exact absurd rfl (hhead '+' rfl).1
    · rfl

theorem head?_of_spells {base : Nat} (hb : base ≤ 16) {text : List Char} {n : Nat} (h : Spells base text n) :
    ∀ c ∈ text.head?, c ≠ '+' ∧ c ≠ '-' := by
  obtain ⟨-, hd, -⟩ := (spells_iff hb).mp h
  intro c hc
  have hlt := Nat.lt_of_lt_of_le (hd c (List.mem_of_mem_head? hc)) hb
  constructor
  · rintro rfl
    exact absurd hlt (by decide)
  · rintro rfl
    exact absurd hlt (by decide)

theorem fitsWord_iff {n : ℤ} : fitsWord n = true ↔ -2 ^ 63 ≤ n ∧ n ≤ 2 ^ 63 - 1 := by
  unfold fitsWord signBit
  rw [Bool.and_eq_true, decide_eq_true_eq, decide_eq_true_eq]
  omega

/-- What an integer is read as, from its sign and its digits. -/
theorem word?_eq (base : Nat) (text : List Char) :
    word? base text =
      if (splitSign text).2 = [] ∨ ∃ c ∈ (splitSign text).2, base ≤ digitValue c then none
      else if fitsWord (signed (splitSign text).1 (ofDigits base (splitSign text).2)) then
        some (signed (splitSign text).1 (ofDigits base (splitSign text).2))
      else none := by
  unfold word?
  rcases splitSign text with ⟨negative, digits⟩
  simp only [List.isEmpty_iff, Bool.or_eq_true, List.any_eq_true, decide_eq_true_eq, signed]

theorem word?_of_spells {base : Nat} (hb : base ≤ 16) {text digits : List Char} {negative : Bool} {n : Nat}
    (hs : Signed text negative digits) (hd : Spells base digits n) :
    word? base text = if fitsWord (signed negative n) then some (signed negative n) else none := by
  have hhead := head?_of_spells hb hd
  obtain ⟨hne, hdigits, rfl⟩ := (spells_iff hb).mp hd
  have hbad : ¬(digits = [] ∨ ∃ c ∈ digits, base ≤ digitValue c) := by
    rintro (h | ⟨c, hc, hle⟩)
    · exact hne h
    · exact absurd (hdigits c hc) (Nat.not_lt.mpr hle)
  rw [word?_eq, splitSign_of_signed hs hhead, if_neg hbad]

theorem word?_eq_some_iff {base : Nat} (hb : base ≤ 16) {text : List Char} {n : ℤ} :
    word? base text = some n ↔ ∃ negative digits m, Signed text negative digits ∧ Spells base digits m ∧
      n = signed negative m ∧ -2 ^ 63 ≤ n ∧ n ≤ 2 ^ 63 - 1 := by
  constructor
  · intro h
    rw [word?_eq, Option.ite_none_left_eq_some, not_or] at h
    obtain ⟨⟨hne, hd⟩, h⟩ := h
    rw [Option.ite_none_right_eq_some, Option.some.injEq] at h
    obtain ⟨hfits, rfl⟩ := h
    refine ⟨_, _, _, signed_splitSign text, (spells_iff hb).mpr ⟨hne, ?_, rfl⟩, rfl, fitsWord_iff.mp hfits⟩
    intro c hc
    exact Nat.lt_of_not_le fun hle => hd ⟨c, hc, hle⟩
  · rintro ⟨negative, digits, m, hs, hd, rfl, hr⟩
    rw [word?_of_spells hb hs hd, if_pos (fitsWord_iff.mpr hr)]

theorem radix?_eq_some_iff {text rest : List Char} {base : Nat} :
    radix? text = some (base, rest) ↔ Prefixed text base rest := by
  constructor
  · intro h
    unfold radix? at h
    split at h
    all_goals cases h
    · exact .zeroX _
    · exact .h _
    · exact .b _
    · exact .o _
  · intro h
    cases h <;> rfl

theorem radix?_eq_none_iff {text : List Char} : radix? text = none ↔ ∀ base rest, ¬Prefixed text base rest := by
  rw [Option.eq_none_iff_forall_ne_some]
  constructor
  · intro h base rest hp
    exact h (base, rest) (radix?_eq_some_iff.mpr hp)
  · rintro h ⟨base, rest⟩ he
    exact h base rest (radix?_eq_some_iff.mp he)

theorem Prefixed.base_le {text rest : List Char} {base : Nat} (h : Prefixed text base rest) : base ≤ 16 := by
  cases h <;> decide

/-! ## Exponents -/

/-- How much of an exponent counts: all of it below 655360, and else what is left when the last digits are left off. -/
def countedExponent (n : Nat) : Nat := if n < 655360 then n else countedExponent (n / 10)

theorem countedExponent_of_lt {n : Nat} (h : n < 655360) : countedExponent n = n := by
  rw [countedExponent, if_pos h]

theorem countedExponent_of_le {n : Nat} (h : 655360 ≤ n) : countedExponent n = countedExponent (n / 10) := by
  rw [countedExponent, if_neg (Nat.not_lt.mpr h)]

theorem le_countedExponent {n : Nat} (h : exponentBound ≤ n) : exponentBound ≤ countedExponent n := by
  induction n using Nat.strongRecOn with
  | _ n ih =>
    rcases Nat.lt_or_ge n 655360 with hn | hn
    · rwa [countedExponent_of_lt hn]
    · rw [countedExponent_of_le hn]
      exact ih (n / 10) (by omega) (by unfold exponentBound; omega)

/-- The reader counts an exponent as it should. -/
theorem exponentOfDigits_eq {digits : List Char} (h : ∀ c ∈ digits, c.isDigit = true) :
    exponentOfDigits digits = countedExponent (ofDigits 10 digits) := by
  induction digits using List.reverseRecOn with
  | nil => rw [countedExponent_of_lt (by decide)]; rfl
  | append_singleton digits c ih =>
    have ih := ih fun d hd => h d (List.mem_append_left _ hd)
    have hc := digitValue_lt_ten_iff.mpr (h c (by simp))
    have hstep : exponentOfDigits (digits ++ [c]) =
        if exponentOfDigits digits < exponentBound then 10 * exponentOfDigits digits + digitValue c
        else exponentOfDigits digits := by
      rw [exponentOfDigits, List.foldl_append]
      rfl
    rw [hstep, ih, ofDigits_concat]
    generalize ofDigits 10 digits = n
    rcases Nat.lt_or_ge n exponentBound with hn | hn
    · unfold exponentBound at hn
      rw [countedExponent_of_lt (show n < 655360 by omega), if_pos (by unfold exponentBound; omega),
        countedExponent_of_lt (by omega)]
    · rw [if_neg (Nat.not_lt.mpr (le_countedExponent hn))]
      unfold exponentBound at hn
      rw [countedExponent_of_le (show 655360 ≤ 10 * n + digitValue c by omega)]
      congr 1
      omega

theorem exponent?_eq_some_iff {text : List Char} {e : ℤ} :
    exponent? text = some e ↔ ∃ negative digits n, Signed text negative digits ∧ Spells 10 digits n ∧
      e = signed negative (countedExponent n) := by
  have heq : exponent? text =
      if (splitSign text).2 = [] ∨ ¬∀ c ∈ (splitSign text).2, c.isDigit = true then none
      else some (signed (splitSign text).1 (exponentOfDigits (splitSign text).2)) := by
    unfold exponent?
    rcases splitSign text with ⟨negative, digits⟩
    simp only [List.isEmpty_iff, Bool.or_eq_true, Bool.not_eq_true', Bool.eq_false_iff, ne_eq, List.all_eq_true, signed]
  rw [heq]
  constructor
  · intro h
    rw [Option.ite_none_left_eq_some, not_or, not_not, Option.some.injEq] at h
    obtain ⟨⟨hne, hd⟩, rfl⟩ := h
    refine ⟨_, _, _, signed_splitSign text, spells_ten_iff.mpr ⟨hne, hd, rfl⟩, ?_⟩
    rw [exponentOfDigits_eq hd, ofDigitChars_eq hd]
  · rintro ⟨negative, digits, n, hs, hd, rfl⟩
    have hhead := head?_of_spells (by decide) hd
    obtain ⟨hne, hdigits, rfl⟩ := spells_ten_iff.mp hd
    rw [splitSign_of_signed hs hhead, if_neg (not_or.mpr ⟨hne, not_not.mpr hdigits⟩), exponentOfDigits_eq hdigits,
      ofDigitChars_eq hdigits]

theorem exponentPart?_eq_some_iff {text : List Char} {e : ℤ} :
    exponentPart? text = some e ↔ ExponentPart countedExponent text e := by
  constructor
  · intro h
    cases text with
    | nil => cases h; exact .absent
    | cons c rest =>
      rw [exponentPart?, Option.ite_none_right_eq_some, exponent?_eq_some_iff] at h
      obtain ⟨hc, negative, digits, n, hs, hd, rfl⟩ := h
      exact .present hc hs hd
  · intro h
    cases h with
    | absent => rfl
    | present hc hs hd =>
      rw [exponentPart?, if_pos hc]
      exact exponent?_eq_some_iff.mpr ⟨_, _, _, hs, hd, rfl⟩

/-- An exponent goes on with no digit and no point. -/
theorem ExponentPart.head? {count : Nat → Nat} {text : List Char} {e : ℤ} (h : ExponentPart count text e) :
    (∀ c ∈ text.head?, c.isDigit = false) ∧ text.head? ≠ some '.' := by
  cases h with
  | absent => exact ⟨by simp, by simp⟩
  | present hc hs hd => rcases hc with rfl | rfl <;> exact ⟨by simp, by simp⟩

/-! ## Decimals -/

/-- Digits are cut off where the first other character stands. -/
theorem span_digits {digits rest : List Char} (hd : ∀ c ∈ digits, c.isDigit = true)
    (hr : ∀ c ∈ rest.head?, c.isDigit = false) :
    (digits ++ rest).takeWhile Char.isDigit = digits ∧ (digits ++ rest).dropWhile Char.isDigit = rest := by
  rw [List.takeWhile_append_of_pos hd, List.dropWhile_append_of_pos hd]
  cases rest with
  | nil => simp
  | cons c rest =>
    have hc : c.isDigit = false := hr c rfl
    rw [List.takeWhile_cons_of_neg (by simp [hc]), List.dropWhile_cons_of_neg (by simp [hc])]
    exact ⟨List.append_nil _, rfl⟩

theorem exists_span_digits (text : List Char) :
    ∃ digits rest, text = digits ++ rest ∧ (∀ c ∈ digits, c.isDigit = true) ∧ ∀ c ∈ rest.head?, c.isDigit = false := by
  refine ⟨text.takeWhile Char.isDigit, text.dropWhile Char.isDigit, (List.takeWhile_append_dropWhile).symm,
    fun c hc => List.mem_takeWhile_imp hc, fun c hc => ?_⟩
  have hhead := List.head?_dropWhile_not Char.isDigit text
  rw [Option.mem_def.mp hc] at hhead
  exact hhead

/-- Without a point all digits stand before the exponent. -/
theorem numeral?_integer {digits rest : List Char} (hd : ∀ c ∈ digits, c.isDigit = true)
    (hr : ∀ c ∈ rest.head?, c.isDigit = false) (hp : rest.head? ≠ some '.') :
    numeral? (digits ++ rest) =
      if digits = [] then none
      else (exponentPart? rest).map fun e => { significand := Nat.ofDigitChars 10 digits 0, exponent := e } := by
  obtain ⟨ht, hdrop⟩ := span_digits hd hr
  unfold numeral?
  rw [ht, hdrop]
  cases rest with
  | nil => simp
  | cons c rest =>
    have hc : c ≠ '.' := by
      rintro rfl
      exact hp rfl
    simp [hc]

theorem numeral?_point {whole fraction rest : List Char} (hw : ∀ c ∈ whole, c.isDigit = true)
    (hf : ∀ c ∈ fraction, c.isDigit = true) (hr : ∀ c ∈ rest.head?, c.isDigit = false) :
    numeral? (whole ++ '.' :: (fraction ++ rest)) =
      if whole ++ fraction = [] then none
      else (exponentPart? rest).map fun e =>
        { significand := Nat.ofDigitChars 10 (whole ++ fraction) 0, exponent := e - fraction.length } := by
  obtain ⟨ht, hdrop⟩ := @span_digits whole ('.' :: (fraction ++ rest)) hw (by simp)
  obtain ⟨htf, hdropf⟩ := span_digits hf hr
  unfold numeral?
  rw [ht, hdrop]
  simp only [htf, hdropf, Bool.and_eq_true, List.isEmpty_iff, List.append_eq_nil_iff]

theorem numeral?_eq_some_iff {text : List Char} {numeral : Numeral} :
    numeral? text = some numeral ↔ ∃ mantissa exponent n places e, text = mantissa ++ exponent ∧
      Mantissa mantissa n places ∧ ExponentPart countedExponent exponent e ∧
      numeral = { significand := n, exponent := e - places } := by
  constructor
  · intro h
    obtain ⟨whole, rest, rfl, hw, hr⟩ := exists_span_digits text
    by_cases hp : rest.head? = some '.'
    · obtain ⟨rest, rfl⟩ : ∃ rest', rest = '.' :: rest' := by
        cases rest with
        | nil => cases hp
        | cons c rest => cases hp; exact ⟨rest, rfl⟩
      obtain ⟨fraction, rest, rfl, hf, hr⟩ := exists_span_digits rest
      rw [numeral?_point hw hf hr, Option.ite_none_left_eq_some, Option.map_eq_some_iff] at h
      obtain ⟨hne, e, he, rfl⟩ := h
      refine ⟨whole ++ '.' :: fraction, rest, _, fraction.length, e, by simp,
        .point (spells_ten_iff.mpr ⟨hne, isDigit_append hw hf, rfl⟩), exponentPart?_eq_some_iff.mp he, rfl⟩
    · rw [numeral?_integer hw hr hp, Option.ite_none_left_eq_some, Option.map_eq_some_iff] at h
      obtain ⟨hne, e, he, rfl⟩ := h
      refine ⟨whole, rest, _, 0, e, rfl, .integer (spells_ten_iff.mpr ⟨hne, hw, rfl⟩),
        exponentPart?_eq_some_iff.mp he, ?_⟩
      rw [Nat.cast_zero, sub_zero]
  · rintro ⟨mantissa, exponent, n, places, e, rfl, hm, he, rfl⟩
    obtain ⟨hr, hp⟩ := he.head?
    have hexponent := exponentPart?_eq_some_iff.mpr he
    cases hm with
    | integer hd =>
      obtain ⟨hne, hdigits, rfl⟩ := spells_ten_iff.mp hd
      rw [numeral?_integer hdigits hr hp, if_neg hne, hexponent, Option.map_some, Nat.cast_zero, sub_zero]
    | @point whole fraction n hd =>
      obtain ⟨hne, hdigits, rfl⟩ := spells_ten_iff.mp hd
      have hw : ∀ c ∈ whole, c.isDigit = true := fun c hc => hdigits c (List.mem_append_left _ hc)
      have hf : ∀ c ∈ fraction, c.isDigit = true := fun c hc => hdigits c (List.mem_append_right _ hc)
      rw [List.append_assoc, List.cons_append, numeral?_point hw hf hr, if_neg hne, hexponent, Option.map_some]

theorem Mantissa.head {text : List Char} {n places : Nat} (h : Mantissa text n places) :
    ∃ c rest, text = c :: rest ∧ (c.isDigit = true ∨ c = '.') := by
  cases h with
  | integer hd =>
    obtain ⟨hne, hdigits, -⟩ := spells_ten_iff.mp hd
    obtain ⟨c, rest, rfl⟩ := List.exists_cons_of_ne_nil hne
    exact ⟨c, rest, rfl, Or.inl (hdigits c List.mem_cons_self)⟩
  | @point whole fraction n hd =>
    cases whole with
    | nil => exact ⟨'.', fraction, rfl, Or.inr rfl⟩
    | cons c rest =>
      exact ⟨c, _, rfl, Or.inl ((spells_ten_iff.mp hd).2.1 c (List.mem_append_left _ List.mem_cons_self))⟩

theorem named?_mantissa (negative : Bool) {mantissa exponent : List Char} {n places : Nat}
    (h : Mantissa mantissa n places) : named? negative ((mantissa ++ exponent).map Char.toLower) = none := by
  obtain ⟨c, rest, rfl, hc | rfl⟩ := h.head
  · rw [List.cons_append, List.map_cons, toLower_digit hc]
    exact named?_digit negative hc _
  · simp [named?]

theorem named?_eq_some_iff {negative : Bool} {text : List Char} {x : Float} :
    named? negative text = some x ↔
      ((text = "inf".toList ∨ text = "infinity".toList) ∧ x.isInf = true ∧ isNegative x = negative) ∨
        (text = "nan".toList ∧ x.isNaN = true) := by
  unfold named?
  show (if text = "inf".toList ∨ text = "infinity".toList then _ else if text = "nan".toList then _ else _) = _ ↔ _
  by_cases hinf : text = "inf".toList ∨ text = "infinity".toList
  · have hnan : text ≠ "nan".toList := by
      rcases hinf with rfl | rfl <;> decide
    rw [if_pos hinf, Option.some.injEq]
    simp only [hinf, true_and, hnan, false_and, or_false]
    constructor
    · rintro rfl
      exact ⟨isInf_ofRank negative, isNegative_ofRank negative (Nat.le_refl _)⟩
    · rintro ⟨hx, hs⟩
      exact (eq_ofRank_of_isInf hx hs).symm
  · rw [if_neg hinf]
    simp only [hinf, false_and, false_or]
    by_cases hnan : text = "nan".toList
    · rw [if_pos hnan, Option.some.injEq]
      simp only [hnan, true_and]
      constructor
      · rintro rfl
        decide +kernel
      · exact fun hx => (eq_nan hx).symm
    · rw [if_neg hnan]
      exact iff_of_false nofun fun h => hnan h.1

/-- A name does not begin with a sign. -/
theorem head?_of_named {negative : Bool} {text : List Char} {x : Float}
    (h : named? negative (text.map Char.toLower) = some x) : ∀ c ∈ text.head?, c ≠ '+' ∧ c ≠ '-' := by
  intro c hc
  obtain ⟨rest, rfl⟩ := List.head?_eq_some_iff.mp hc
  constructor
  · rintro rfl
    simp [named?] at h
  · rintro rfl
    simp [named?] at h

theorem decimal?_eq_some_iff {text : List Char} {x : Float} :
    decimal? text = some x ↔
      ∃ negative rest, Signed text negative rest ∧
        (named? negative (rest.map Char.toLower) = some x ∨
          ∃ mantissa exponent n places e, rest = mantissa ++ exponent ∧ Mantissa mantissa n places ∧
            ExponentPart countedExponent exponent e ∧ x = ofRank negative (decimalRank n (e - places))) := by
  constructor
  · intro h
    refine ⟨_, _, signed_splitSign text, ?_⟩
    unfold decimal? at h
    simp only at h
    split at h
    · cases h
      exact Or.inl ‹_›
    · rw [Option.map_eq_some_iff] at h
      obtain ⟨numeral, hn, rfl⟩ := h
      obtain ⟨mantissa, exponent, n, places, e, hrest, hm, he, rfl⟩ := numeral?_eq_some_iff.mp hn
      exact Or.inr ⟨mantissa, exponent, n, places, e, hrest, hm, he, rfl⟩
  · rintro ⟨negative, rest, hs, hname | ⟨mantissa, exponent, n, places, e, rfl, hm, he, rfl⟩⟩
    · unfold decimal?
      simp only [splitSign_of_signed hs (head?_of_named hname), hname]
    · have hn := numeral?_eq_some_iff.mpr ⟨mantissa, exponent, n, places, e, rfl, hm, he, rfl⟩
      have hsplit : splitSign text = (negative, mantissa ++ exponent) := by
        obtain ⟨c, rest, rfl, hc⟩ := hm.head
        refine splitSign_of_signed hs fun d hd => ?_
        cases hd
        constructor
        · rintro rfl
          exact absurd hc (by decide)
        · rintro rfl
          exact absurd hc (by decide)
      unfold decimal?
      simp only [hsplit, named?_mantissa negative hm, hn, Option.map_some]

/-! ## Literals -/

theorem natAbs_signed (negative : Bool) (n : Nat) : (signed negative n).natAbs = n := by
  unfold signed
  cases negative <;> simp

theorem ofChars?_eq_some_iff {text : List Char} {x : Float} :
    ofChars? text = some x ↔ Denotes countedExponent text x := by
  unfold ofChars?
  constructor
  · intro h
    cases hr : radix? text with
    | some prefixed =>
      obtain ⟨base, rest⟩ := prefixed
      rw [hr] at h
      obtain ⟨n, hn, rfl⟩ := Option.map_eq_some_iff.mp h
      have hp := radix?_eq_some_iff.mp hr
      obtain ⟨negative, digits, m, hs, hd, rfl, hlow, hhigh⟩ := (word?_eq_some_iff hp.base_le).mp hn
      have hx := nearest_ofInt (signed negative m)
      rw [natAbs_signed] at hx
      exact .integer hp hs hd hlow hhigh hx
    | none =>
      rw [hr] at h
      have hp := radix?_eq_none_iff.mp hr
      obtain ⟨negative, rest, hs, hname | ⟨mantissa, exponent, n, places, e, rfl, hm, he, rfl⟩⟩ :=
        decimal?_eq_some_iff.mp h
      · rcases named?_eq_some_iff.mp hname with ⟨hinf, hx, hsign⟩ | ⟨hnan, hx⟩
        · exact .infinity hp hs hinf hx hsign
        · exact .nan hp hs hnan hx
      · exact .decimal hp hs hm he (nearest_decimalRank negative n (e - places))
  · intro h
    cases h with
    | @integer base n rest digits negative hp hs hd hlow hhigh hx =>
      have hn := (word?_eq_some_iff hp.base_le).mpr ⟨negative, digits, n, hs, hd, rfl, hlow, hhigh⟩
      have hnear := nearest_ofInt (signed negative n)
      rw [natAbs_signed] at hnear
      rw [radix?_eq_some_iff.mpr hp, hx.unique hnear]
      simp only [hn, Option.map_some]
    | infinity hp hs hname hx hsign =>
      rw [radix?_eq_none_iff.mpr hp]
      exact decimal?_eq_some_iff.mpr ⟨_, _, hs, Or.inl (named?_eq_some_iff.mpr (Or.inl ⟨hname, hx, hsign⟩))⟩
    | @nan name negative hp hs hname hx =>
      rw [radix?_eq_none_iff.mpr hp]
      exact decimal?_eq_some_iff.mpr ⟨_, _, hs, Or.inl (named?_eq_some_iff.mpr (Or.inr ⟨hname, hx⟩))⟩
    | @decimal mantissa exponent n places e negative hp hs hm he hx =>
      rw [radix?_eq_none_iff.mpr hp, hx.unique (nearest_decimalRank negative n (e - places))]
      exact decimal?_eq_some_iff.mpr ⟨_, _, hs, Or.inr ⟨mantissa, exponent, n, places, e, rfl, hm, he, rfl⟩⟩

/-! ## Exponents in full -/

theorem lt_of_spells {text : List Char} {n : Nat} (h : Spells 10 text n) : n < 10 ^ text.length := by
  obtain ⟨-, hd, rfl⟩ := (spells_iff (by decide)).mp h
  have hlt : ∀ d ∈ (text.map digitValue).reverse, d < 10 := by
    intro d hmem
    obtain ⟨c, hc, rfl⟩ := List.mem_map.mp (List.mem_reverse.mp hmem)
    exact hd c hc
  have := Nat.ofDigits_lt_base_pow_length (by decide) hlt
  rwa [List.length_reverse, List.length_map, ← ofDigits_eq] at this

theorem Mantissa.bounds {text : List Char} {n places : Nat} (h : Mantissa text n places) :
    n < 10 ^ text.length ∧ places ≤ text.length := by
  cases h with
  | integer hd => exact ⟨lt_of_spells hd, Nat.zero_le _⟩
  | @point whole fraction n hd =>
    have hlt := lt_of_spells hd
    rw [List.length_append] at hlt
    rw [List.length_append, List.length_cons]
    exact ⟨hlt.trans_le (Nat.pow_le_pow_right (by decide) (by omega)), by omega⟩

theorem Signed.length_le {text rest : List Char} {negative : Bool} (h : Signed text negative rest) :
    rest.length ≤ text.length := by
  cases h <;> simp

/-- Where an exponent is far greater than the number of digits, it does not matter how great it is. -/
theorem nearest_far_iff {negative below : Bool} {n digits places e : Nat} (hn : n < 10 ^ digits)
    (hp : places ≤ digits) (he : digits + 401 ≤ e) {x : Float} :
    Nearest negative (n * 10 ^ (signed below e - places : ℤ)) x ↔
      x = ofRank negative (if n = 0 ∨ below = true then 0 else infinityRank) := by
  rcases Nat.eq_zero_or_pos n with rfl | hpos
  · rw [if_pos (Or.inl rfl), Nat.cast_zero, zero_mul]
    exact nearest_iff_of_small (le_refl _) (by positivity)
  · cases below with
    | true =>
      rw [if_pos (Or.inr rfl)]
      refine nearest_iff_of_small (by positivity) ?_
      have hnq : (n : ℚ) ≤ 10 ^ (digits : ℤ) := by
        rw [zpow_natCast]
        exact_mod_cast hn.le
      calc (n : ℚ) * 10 ^ (signed true e - places : ℤ)
          ≤ 10 ^ (digits : ℤ) * 10 ^ (signed true e - places : ℤ) :=
            mul_le_mul_of_nonneg_right hnq (by positivity)
        _ = 10 ^ ((digits : ℤ) + (signed true e - places)) := (zpow_add₀ (by norm_num) _ _).symm
        _ ≤ 2 ^ (-1075 : ℤ) := ten_zpow_le_two_zpow (by rw [signed, if_pos rfl]; omega)
    | false =>
      rw [if_neg (by rintro (h | h); exacts [hpos.ne' h, Bool.false_ne_true h])]
      refine nearest_iff_of_large ?_
      have hone : (1 : ℚ) ≤ n := by exact_mod_cast hpos
      have hlarge : (2 : ℚ) ^ (1024 : ℤ) ≤ 10 ^ (signed false e - places : ℤ) :=
        two_zpow_le_ten_zpow (by rw [signed, if_neg Bool.false_ne_true]; omega)
      exact hlarge.trans (le_mul_of_one_le_left (by positivity) hone)

/-- With few digits before it an exponent counts as if it counted in full. -/
theorem nearest_counted_iff {negative below : Bool} {mantissa : List Char} {n places e : Nat}
    (hm : Mantissa mantissa n places) (hlength : mantissa.length ≤ 65000) {x : Float} :
    Nearest negative (n * 10 ^ (signed below (countedExponent e) - places : ℤ)) x ↔
      Nearest negative (n * 10 ^ (signed below e - places : ℤ)) x := by
  rcases Nat.lt_or_ge e 655360 with he | he
  · rw [countedExponent_of_lt he]
  · obtain ⟨hn, hp⟩ := hm.bounds
    have hcounted := le_countedExponent (show exponentBound ≤ e by unfold exponentBound; omega)
    unfold exponentBound at hcounted
    rw [nearest_far_iff hn hp (by omega), nearest_far_iff hn hp (by omega)]

/-- A text denotes the same where its exponent counts otherwise, if that does not matter to the decimals that are no
    longer than the text. -/
theorem Denotes.recount {count count' : Nat → Nat} {text : List Char} {x : Float} (h : Denotes count text x)
    (hcount : ∀ {negative below : Bool} {mantissa : List Char} {n places e : Nat}, Mantissa mantissa n places →
      mantissa.length ≤ text.length → Nearest negative (n * 10 ^ (signed below (count e) - places : ℤ)) x →
      Nearest negative (n * 10 ^ (signed below (count' e) - places : ℤ)) x) : Denotes count' text x := by
  cases h with
  | integer hp hs hd hlow hhigh hx => exact .integer hp hs hd hlow hhigh hx
  | infinity hp hs hname hx hsign => exact .infinity hp hs hname hx hsign
  | nan hp hs hname hx => exact .nan hp hs hname hx
  | decimal hp hs hm he hx =>
    cases he with
    | absent => exact .decimal hp hs hm .absent hx
    | present hc hse hde =>
      have hlength := hs.length_le
      rw [List.length_append] at hlength
      exact .decimal hp hs hm (.present hc hse hde) (hcount hm (by omega) hx)

/-- In a text that is not very long the exponent may be counted in full. -/
theorem denotes_counted_iff {text : List Char} (h : text.length ≤ 65000) {x : Float} :
    Denotes countedExponent text x ↔ Denotes id text x := by
  constructor
  · exact fun hx => hx.recount fun hm hlength => (nearest_counted_iff hm (hlength.trans h)).mp
  · exact fun hx => hx.recount fun hm hlength => (nearest_counted_iff hm (hlength.trans h)).mpr

/-! ## The literals -/

/-- The literals are the texts of the grammar, with just what they denote, where an exponent counts as far as it is
    counted; in a text of at most 65000 characters that is in full. What a number denotes is an infinity from the middle
    above the largest double on, and a zero up to half the smallest. -/
theorem literals_denote :
    (∀ (token : String) (x : Float), parse? token = some x ↔ Denotes countedExponent token.toList x) ∧
    (∀ token : String, parse? token = none ↔ ∀ x, ¬Denotes countedExponent token.toList x) ∧
    (∀ (token : String) (x : Float), token.length ≤ 65000 → (parse? token = some x ↔ Denotes id token.toList x)) ∧
    (∀ n < 655360, countedExponent n = n) ∧
    ∀ (negative : Bool) (q : ℚ) (x : Float), 0 ≤ q → Nearest negative q x →
      (x.isInf = true ↔ 2 ^ (1024 : ℤ) - 2 ^ (970 : ℤ) ≤ q) ∧ (magnitude x = 0 ↔ q ≤ 2 ^ (-1075 : ℤ)) := by
  refine ⟨fun token x => ofChars?_eq_some_iff, fun token => ?_, fun token x h => ?_,
    fun n hn => countedExponent_of_lt hn, fun negative q x h0 h => ⟨h.isInf_iff, h.magnitude_eq_zero_iff h0⟩⟩
  · rw [Option.eq_none_iff_forall_ne_some]
    exact forall_congr' fun x => not_congr ofChars?_eq_some_iff
  · rw [← String.length_toList] at h
    exact ofChars?_eq_some_iff.trans (denotes_counted_iff h)

/-- The least integer in a radix, an integer between two doubles, a decimal that underflows, and names. -/
theorem literals_denote_at_limits :
    Denotes id "h-8000000000000000".toList (-9223372036854775808) ∧
      Denotes id "9007199254740993".toList 9007199254740992 ∧
      Denotes id "-.0e9".toList (-0) ∧
      parse? "h8000000000000000" = none ∧
      ∀ x, ¬Denotes countedExponent "h8000000000000000".toList x := by
  refine ⟨?_, ?_, ?_, ?_, ?_⟩
  · exact (literals_denote.2.2.1 "h-8000000000000000" _ (by decide)).mp (by decide +kernel)
  · exact (literals_denote.2.2.1 "9007199254740993" _ (by decide)).mp (by decide +kernel)
  · exact (literals_denote.2.2.1 "-.0e9" _ (by decide)).mp (by decide +kernel)
  · decide +kernel
  · exact (literals_denote.2.1 "h8000000000000000").mp (by decide +kernel)

/-- A power of ten in digits, with an exponent that takes it back. -/
def power (k : Nat) : List Char := '1' :: (List.replicate k '0' ++ "e-655360".toList)

theorem spells_power (k : Nat) : Spells 10 ('1' :: List.replicate k '0') (10 ^ k) := by
  refine spells_ten_iff.mpr ⟨List.cons_ne_nil _ _, ?_, ?_⟩
  · exact List.forall_mem_cons.mpr ⟨by decide, isDigit_replicate_zero k⟩
  · rw [← List.singleton_append, Nat.ofDigitChars_append, Nat.ofDigitChars_replicate_zero]
    simp [Nat.ofDigitChars]

theorem denotes_power {count : Nat → Nat} {k : Nat} {x : Float}
    (h : Nearest false ((10 ^ k : ℕ) * 10 ^ (signed true (count 655360) - (0 : ℕ) : ℤ)) x) :
    Denotes count (power k) x := by
  have hexponent : Spells 10 "655360".toList 655360 :=
    spells_ten_iff.mpr ⟨by decide, List.all_eq_true.mp (by decide), by decide +kernel⟩
  exact .decimal (fun base rest hp => by cases hp) (.bare _) (.integer (spells_power k))
    (.present (Or.inl rfl) (.minus _) hexponent) h

/-- The exponent in full leaves next to nothing of the power. -/
theorem denotes_power_in_full {k : Nat} (hk : k + 402 ≤ 655360) : Denotes id (power k) (ofRank false 0) := by
  refine denotes_power ((@nearest_far_iff false true (10 ^ k) (k + 1) 0 655360 ?_ (Nat.zero_le _) hk _).mpr ?_)
  · exact Nat.pow_lt_pow_right (by decide) (Nat.lt_succ_self k)
  · rw [if_pos (Or.inr rfl)]

/-- An exponent that counts as the number of the zeros takes the power back. -/
theorem denotes_power_counted {count : Nat → Nat} {k : Nat} (hk : count 655360 = k) :
    Denotes count (power k) (ofInt 1) := by
  apply denotes_power
  have hq : ((10 ^ k : ℕ) : ℚ) * 10 ^ (signed true (count 655360) - (0 : ℕ) : ℤ) = (1 : ℤ).natAbs := by
    rw [hk, signed, if_pos rfl, Nat.cast_zero, sub_zero, Nat.cast_pow, Nat.cast_ofNat, ← zpow_natCast,
      ← zpow_add₀ (by norm_num), add_neg_cancel, zpow_zero]
    rfl
  rw [hq]
  exact nearest_ofInt 1

/-- With as many zeros before it an exponent that does not count in full gives another double. -/
theorem denotes_otherwise_in_full :
    ∃ token : String, token = String.ofList ('1' :: (List.replicate 65536 '0' ++ "e-655360".toList)) ∧
      Denotes id token.toList 0 ∧ parse? token = some 1 ∧ ¬(parse? token = some 0 ↔ Denotes id token.toList 0) := by
  have hzero : ofRank false 0 = 0 := by decide +kernel
  have hone : ofInt 1 = 1 := by decide +kernel
  have hfull := @denotes_power_in_full 65536 (by decide)
  have hcounted : ofChars? (power 65536) = some (ofInt 1) := by
    refine ofChars?_eq_some_iff.mpr (denotes_power_counted ?_)
    rw [countedExponent_of_le (by decide), countedExponent_of_lt (by decide)]
  rw [hzero] at hfull
  rw [hone] at hcounted
  refine ⟨String.ofList (power 65536), rfl, ?_, ?_, ?_⟩
  · rwa [String.toList_ofList]
  · rwa [parse?, String.toList_ofList]
  · rw [parse?, String.toList_ofList, hcounted]
    intro h
    exact absurd (h.mpr hfull) (by decide +kernel)

end ReversePolish.Double.Literal
