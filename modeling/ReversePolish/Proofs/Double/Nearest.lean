/-
  ReversePolish.Proofs.Double.Nearest — which numbers are rounded to a double.

  The numbers that round to a finite rank lie between the middles to its two neighbours,
  the middles included when the significand is even (`RoundsTo`). Everything is measured
  in quarters of the last bit: the neighbours are four quarters away and the middles two,
  but below a power of two the neighbour is in the next binade, and the middle is one.

  Rounding a quotient finds the rank from its binade and the nearest integer there. A
  number that rounds to a rank is in the rank's binade, or just below a power of two; there
  the integer found is 2^53, which carries into the exponent. Either way the rank is
  found (`nearestRank_eq`), also from a decimal, whose exponent is then within the bounds
  (`decimalRank_eq`).
-/

import Mathlib.Algebra.Order.Field.Power
import Mathlib.Tactic.FieldSimp
import Mathlib.Tactic.Linarith
import Mathlib.Tactic.NormNum
import Mathlib.Tactic.Positivity
import Mathlib.Tactic.Ring
import ReversePolish.Double.Shortest

namespace ReversePolish.Double

/-! ## Ranks -/

theorem binade_eq : binade = 2 ^ 52 := by rw [binade]; norm_num

theorem rank_eq (rank : Nat) : doublings rank * binade + significand rank = rank := by
  unfold doublings significand binade
  split <;> omega

theorem significand_lt (rank : Nat) : significand rank < 2 * binade := by
  unfold significand binade
  split <;> omega

theorem le_significand {rank : Nat} (h : 0 < doublings rank) : binade ≤ significand rank := by
  unfold doublings binade at h
  unfold significand binade
  split <;> omega

theorem significand_pos {rank : Nat} (h : 0 < rank) : 0 < significand rank := by
  unfold significand binade
  split <;> omega

theorem doublings_lt {rank : Nat} (h : rank < infinityRank) : doublings rank < 2046 := by
  unfold infinityRank binade at h
  unfold doublings binade
  omega

/-! ## Division -/

/-- The nearest integer, with the odd ones beyond reach of a tie. -/
theorem divNearest_eq {a c m : Nat} (hc : 0 < c) (hl : 2 * m * c ≤ 2 * a + c) (hu : 2 * a ≤ 2 * m * c + c)
    (hodd : m % 2 = 1 → 2 * m * c ≠ 2 * a + c ∧ 2 * a ≠ 2 * m * c + c) : divNearest a c = m := by
  have ha := Nat.div_add_mod a c
  have hr := Nat.mod_lt a hc
  unfold divNearest
  simp only
  generalize a / c = q at *
  generalize a % c = r at *
  subst ha
  rcases Nat.lt_trichotomy q m with hlt | rfl | hgt
  · obtain ⟨j, rfl⟩ := Nat.exists_eq_add_of_lt hlt
    have hm : 2 * (q + j + 1) * c = 2 * (c * q) + 2 * (j * c) + 2 * c := by ring
    rw [hm] at hl hu hodd
    obtain rfl : j = 0 := by
      have hjc : j * c < 1 * c := by omega
      have := Nat.lt_of_mul_lt_mul_right hjc
      omega
    rw [Nat.zero_mul] at hl hu hodd
    by_cases htie : 2 * r = c
    · rw [if_neg (by omega), if_neg (by omega)]
      omega
    · rw [if_neg (by omega), if_pos (by omega)]
  · have hm : 2 * q * c = 2 * (c * q) := by ring
    rw [hm] at hl hu hodd
    by_cases htie : 2 * r = c
    · rw [if_neg (by omega), if_neg (by omega)]
      omega
    · rw [if_pos (by omega)]
  · obtain ⟨j, rfl⟩ := Nat.exists_eq_add_of_lt hgt
    have hm : 2 * (c * (m + j + 1)) = 2 * m * c + 2 * (c * j) + 2 * c := by ring
    omega

/-! ## Quotients -/

/-- A quotient of at least `2^52` in units of a bit is divided by that bit. -/
theorem shift_eq {N d k : Nat} (hd : 0 < d) (hl : k = 0 ∨ 2 ^ (k + 52) * d ≤ N) (hu : N < 2 ^ (k + 53) * d) :
    (N / d).log2 - 52 = k := by
  have hlt : N / d < 2 ^ (k + 53) := (Nat.div_lt_iff_lt_mul hd).mpr hu
  rcases hl with rfl | hl
  · by_cases h0 : N / d = 0
    · rw [h0]
      rfl
    · have := (Nat.log2_lt h0).mpr hlt
      omega
  · have hge : 2 ^ (k + 52) ≤ N / d := (Nat.le_div_iff_mul_le hd).mpr hl
    have h0 : N / d ≠ 0 := by
      have := Nat.two_pow_pos (k + 52)
      omega
    have h1 := (Nat.log2_lt h0).mpr hlt
    have h2 := (Nat.le_log2 h0).mpr hge
    omega

/-! ## What rounds to a rank -/

/-- `n` quarters of the last bit of a rank. -/
def quarters (rank n : Nat) : ℚ := n * 2 ^ quarterExponent rank

/-- How many quarters below a double the numbers begin that round to it. -/
def below (rank : Nat) : Nat := if significand rank = binade ∧ 1 < rank / binade then 1 else 2

/-- A number lies between the middles to the neighbours of a rank; an odd rank does not have the middles. -/
structure RoundsTo (rank : Nat) (q : ℚ) : Prop where
  low : quarters rank (4 * significand rank - below rank) ≤ q
  high : q ≤ quarters rank (4 * significand rank + 2)
  odd : significand rank % 2 = 1 →
    quarters rank (4 * significand rank - below rank) ≠ q ∧ q ≠ quarters rank (4 * significand rank + 2)

theorem below_eq (rank : Nat) : below rank = 1 ∨ below rank = 2 := by
  unfold below
  split
  · exact Or.inl rfl
  · exact Or.inr rfl

theorem quarters_eq (rank n : Nat) : quarters rank n = (n * 2 ^ doublings rank : ℕ) / (2 ^ 1076 : ℕ) := by
  have hz : (2 : ℚ) ^ quarterExponent rank = 2 ^ doublings rank / 2 ^ 1076 := by
    rw [quarterExponent, zpow_sub₀ two_ne_zero, zpow_natCast]
    rfl
  rw [quarters, hz, Nat.cast_mul, Nat.cast_pow, Nat.cast_pow, Nat.cast_ofNat, mul_div_assoc]

theorem quarters_le_div {rank n num den : Nat} (hd : 0 < den) :
    quarters rank n ≤ (num : ℚ) / den ↔ n * 2 ^ doublings rank * den ≤ num * 2 ^ 1076 := by
  have hden : (0 : ℚ) < den := Nat.cast_pos.mpr hd
  have hpow : (0 : ℚ) < (2 ^ 1076 : ℕ) := Nat.cast_pos.mpr (by positivity)
  rw [quarters_eq, div_le_div_iff₀ hpow hden, ← Nat.cast_mul, ← Nat.cast_mul, Nat.cast_le]

theorem div_le_quarters {rank n num den : Nat} (hd : 0 < den) :
    (num : ℚ) / den ≤ quarters rank n ↔ num * 2 ^ 1076 ≤ n * 2 ^ doublings rank * den := by
  have hden : (0 : ℚ) < den := Nat.cast_pos.mpr hd
  have hpow : (0 : ℚ) < (2 ^ 1076 : ℕ) := Nat.cast_pos.mpr (by positivity)
  rw [quarters_eq, div_le_div_iff₀ hden hpow, ← Nat.cast_mul, ← Nat.cast_mul, Nat.cast_le]

theorem quarters_ne_div {rank n num den : Nat} (hd : 0 < den) (h : quarters rank n ≠ (num : ℚ) / den) :
    n * 2 ^ doublings rank * den ≠ num * 2 ^ 1076 := fun he =>
  h (le_antisymm ((quarters_le_div hd).mpr he.le) ((div_le_quarters hd).mpr he.ge))

/-- What rounds to a rank, with the quotient in units of the smallest double. -/
theorem units_of_roundsTo {rank num den : Nat} (hd : 0 < den) (h : RoundsTo rank ((num : ℚ) / den)) :
    (4 * significand rank - below rank) * (2 ^ doublings rank * den) ≤ 4 * (num <<< 1074) ∧
      4 * (num <<< 1074) ≤ (4 * significand rank + 2) * (2 ^ doublings rank * den) ∧
      (significand rank % 2 = 1 →
        (4 * significand rank - below rank) * (2 ^ doublings rank * den) ≠ 4 * (num <<< 1074) ∧
          4 * (num <<< 1074) ≠ (4 * significand rank + 2) * (2 ^ doublings rank * den)) := by
  have hunits : num * 2 ^ 1076 = 4 * (num <<< 1074) := by
    rw [Nat.shiftLeft_eq, pow_succ 2 1075, pow_succ 2 1074, ← Nat.mul_assoc, ← Nat.mul_assoc]
    omega
  have hl := (quarters_le_div hd).mp h.low
  have hu := (div_le_quarters hd).mp h.high
  rw [hunits, Nat.mul_assoc] at hl hu
  refine ⟨hl, hu, fun hodd => ?_⟩
  obtain ⟨hlne, hune⟩ := h.odd hodd
  have hln := quarters_ne_div hd hlne
  have hun := quarters_ne_div hd hune.symm
  rw [hunits, Nat.mul_assoc] at hln hun
  exact ⟨hln, hun.symm⟩

/-- The rank comes out of its binade, or carries into it from the binade below. -/
theorem rank_of_units {rank N d : Nat} (h0 : 0 < rank) (hr : rank < infinityRank) (hd : 0 < d)
    (hl : (4 * significand rank - below rank) * (2 ^ doublings rank * d) ≤ 4 * N)
    (hu : 4 * N ≤ (4 * significand rank + 2) * (2 ^ doublings rank * d))
    (hodd : significand rank % 2 = 1 →
      (4 * significand rank - below rank) * (2 ^ doublings rank * d) ≠ 4 * N ∧
        4 * N ≠ (4 * significand rank + 2) * (2 ^ doublings rank * d)) :
    min (((N / d).log2 - 52) * binade + divNearest N (d <<< ((N / d).log2 - 52))) infinityRank = rank := by
  rw [Nat.shiftLeft_eq]
  have hrank := rank_eq rank
  have hm := significand_lt rank
  have hm0 := significand_pos h0
  have hge := @le_significand rank
  have hb := below_eq rank
  have hsmall : 0 < doublings rank → significand rank = 2 ^ 52 → below rank = 1 := by
    intro hk hs
    rw [doublings] at hk
    exact if_pos ⟨hs.trans binade_eq.symm, by omega⟩
  rw [binade_eq] at hrank hm hge ⊢
  generalize significand rank = m at *
  generalize doublings rank = k at *
  generalize below rank = b at *
  have hlow : (4 * m - b) * (2 ^ k * d) + b * (2 ^ k * d) = 4 * (m * (2 ^ k * d)) := by
    rw [← Nat.add_mul, Nat.sub_add_cancel (by omega), Nat.mul_assoc]
  have hhigh : (4 * m + 2) * (2 ^ k * d) = 4 * (m * (2 ^ k * d)) + 2 * (2 ^ k * d) := by
    rw [Nat.add_mul, Nat.mul_assoc]
  have hP : 0 < 2 ^ k * d := Nat.mul_pos (Nat.two_pow_pos k) hd
  have hmP : m * (2 ^ k * d) ≤ (2 ^ 53 - 1) * (2 ^ k * d) := Nat.mul_le_mul_right _ (by omega)
  have hupper : N < 2 ^ (k + 53) * d := by
    have : 2 ^ (k + 53) * d = 2 ^ 53 * (2 ^ k * d) := by rw [Nat.pow_add]; ring
    omega
  -- the quotient lies in the binade of the rank, or just below its first double
  by_cases hbin : k = 0 ∨ 2 ^ (k + 52) * d ≤ N
  · have hnear : divNearest N (d * 2 ^ k) = m := by
      rw [Nat.mul_comm d]
      have hmm : 2 * m * (2 ^ k * d) = 2 * (m * (2 ^ k * d)) := Nat.mul_assoc _ _ _
      rcases hb with rfl | rfl
      · refine divNearest_eq hP (by omega) (by omega) fun ho => ?_
        have := hodd ho
        omega
      · refine divNearest_eq hP (by omega) (by omega) fun ho => ?_
        have := hodd ho
        omega
    rw [shift_eq hd hbin hupper, hnear, hrank]
    omega
  · -- it is rounded on the finer grid of the binade below, and carries out of it
    obtain ⟨j, rfl⟩ : ∃ j, k = j + 1 := ⟨k - 1, by omega⟩
    have hlt : N < 2 ^ (j + 53) * d := by
      rw [show j + 53 = j + 1 + 52 by omega]
      omega
    have hQ : 0 < 2 ^ j * d := Nat.mul_pos (Nat.two_pow_pos j) hd
    have hPQ : 2 ^ (j + 1) * d = 2 * (2 ^ j * d) := by rw [Nat.pow_succ]; ring
    have h52 : 2 ^ (j + 52) * d = 2 ^ 52 * (2 ^ j * d) := by rw [Nat.pow_add]; ring
    have h53 : 2 ^ (j + 53) * d = 2 ^ 53 * (2 ^ j * d) := by rw [Nat.pow_add]; ring
    obtain rfl : m = 2 ^ 52 := by
      have hge := hge (Nat.succ_pos j)
      by_contra hne
      have : (2 ^ 52 + 1) * (2 ^ (j + 1) * d) ≤ m * (2 ^ (j + 1) * d) := Nat.mul_le_mul_right _ (by omega)
      rcases hb with rfl | rfl <;> omega
    obtain rfl := hsmall (Nat.succ_pos j) rfl
    have hshift : (N / d).log2 - 52 = j := shift_eq hd (Or.inr (by omega)) hlt
    have hnear : divNearest N (d * 2 ^ j) = 2 ^ 53 := by
      rw [Nat.mul_comm d]
      exact divNearest_eq hQ (by omega) (by omega) fun ho => by omega
    have hcarry : j * 2 ^ 52 + 2 ^ 53 = rank := by rw [← hrank]; ring
    rw [hshift, hnear, hcarry]
    exact Nat.min_eq_left hr.le

/-- Rounding finds the rank that a quotient rounds to. -/
theorem nearestRank_eq {rank num den : Nat} (h0 : 0 < rank) (hr : rank < infinityRank) (hd : 0 < den)
    (h : RoundsTo rank ((num : ℚ) / den)) : nearestRank num den = rank := by
  obtain ⟨hl, hu, hodd⟩ := units_of_roundsTo hd h
  exact rank_of_units h0 hr hd hl hu hodd

/-! ## Decimals -/

theorem quarters_le {rank n : Nat} (hr : rank < infinityRank) (hn : n ≤ 2 ^ 55) : quarters rank n ≤ 2 ^ (1024 : ℤ) := by
  have hk := doublings_lt hr
  have hn' : (n : ℚ) ≤ 2 ^ (55 : ℤ) := by exact_mod_cast hn
  calc quarters rank n ≤ 2 ^ (55 : ℤ) * 2 ^ (969 : ℤ) := by
        refine mul_le_mul hn' (zpow_le_zpow_right₀ one_le_two ?_) (by positivity) (by positivity)
        rw [quarterExponent]
        omega
    _ = 2 ^ (1024 : ℤ) := by rw [← zpow_add₀ two_ne_zero]; rfl

theorem le_quarters (rank : Nat) {n : Nat} (hn : 2 ≤ n) : 2 ^ (-1075 : ℤ) ≤ quarters rank n := by
  have hn' : (2 : ℚ) ^ (1 : ℤ) ≤ n := by
    rw [zpow_one]
    exact_mod_cast hn
  calc (2 : ℚ) ^ (-1075 : ℤ) = 2 ^ (1 : ℤ) * 2 ^ (-1076 : ℤ) := by rw [← zpow_add₀ two_ne_zero]; rfl
    _ ≤ quarters rank n := by
        refine mul_le_mul hn' (zpow_le_zpow_right₀ one_le_two ?_) (by positivity) (by positivity)
        rw [quarterExponent]
        omega

theorem eight_zpow (n : ℤ) : (8 : ℚ) ^ n = 2 ^ (3 * n) := by
  rw [zpow_mul]
  norm_num

/-- A power of ten within a power of two has a small exponent. -/
theorem exponent_le {e : ℤ} (h : (10 : ℚ) ^ e ≤ 2 ^ (1024 : ℤ)) : e ≤ 400 := by
  by_contra hlt
  have h8 : (8 : ℚ) ^ (401 : ℤ) ≤ 10 ^ e :=
    (zpow_le_zpow_left₀ (by norm_num) (by norm_num) (by norm_num)).trans (zpow_le_zpow_right₀ (by norm_num) (by omega))
  rw [eight_zpow] at h8
  have := (zpow_le_zpow_iff_right₀ one_lt_two).mp (h8.trans h)
  omega

/-- A decimal above half the smallest double has no exponent far below its digits. -/
theorem le_exponent {n : Nat} {e : ℤ} (h0 : n ≠ 0) (h : 2 ^ (-1075 : ℤ) ≤ (n : ℚ) * 10 ^ e) :
    -((n.log2 + 400 : Nat) : ℤ) ≤ e := by
  by_contra hlt
  have hn : (n : ℚ) ≤ 2 ^ ((n.log2 : ℤ) + 1) := by
    have := (Nat.log2_lt h0).mp (Nat.lt_succ_self n.log2)
    exact_mod_cast this.le
  have h10 : (10 : ℚ) ^ e ≤ 2 ^ (3 * e) := by
    have hpow : (8 : ℚ) ^ (-e) ≤ 10 ^ (-e) := zpow_le_zpow_left₀ (by omega) (by norm_num) (by norm_num)
    have hinv := inv_anti₀ (by positivity) hpow
    rwa [← zpow_neg, ← zpow_neg, neg_neg, eight_zpow] at hinv
  have hprod : (n : ℚ) * 10 ^ e ≤ 2 ^ ((n.log2 : ℤ) + 1 + 3 * e) := by
    rw [zpow_add₀ two_ne_zero]
    exact mul_le_mul hn h10 (by positivity) (by positivity)
  have := (zpow_le_zpow_iff_right₀ one_lt_two).mp (h.trans hprod)
  omega

/-- Reading a decimal finds the rank that it rounds to. -/
theorem decimalRank_eq {rank n : Nat} {e : ℤ} (h0 : 0 < rank) (hr : rank < infinityRank)
    (h : RoundsTo rank (n * 10 ^ e)) : decimalRank n e = rank := by
  have hm := significand_lt rank
  rw [binade_eq] at hm
  have hm0 := significand_pos h0
  have hb := below_eq rank
  have hlow : 2 ^ (-1075 : ℤ) ≤ (n : ℚ) * 10 ^ e := (le_quarters rank (by omega)).trans h.low
  have hn : n ≠ 0 := by
    intro h0
    subst h0
    rw [Nat.cast_zero, zero_mul] at hlow
    exact absurd hlow (not_le.mpr (by positivity))
  have hle : e ≤ 400 := by
    refine exponent_le (le_trans ?_ (h.high.trans (quarters_le hr (by omega))))
    have hone : (1 : ℚ) ≤ n := by exact_mod_cast Nat.one_le_iff_ne_zero.mpr hn
    exact le_mul_of_one_le_left (by positivity) hone
  have hge := le_exponent hn hlow
  unfold decimalRank
  rw [if_neg hn, if_neg (by omega), if_neg (by omega), Nat.pow_eq, Nat.pow_eq]
  split
  · refine nearestRank_eq h0 hr (by positivity) ?_
    convert h using 1
    rw [Nat.cast_pow, ← zpow_natCast, Int.toNat_of_nonneg (by omega), zpow_neg, div_inv_eq_mul]
    rfl
  · refine nearestRank_eq h0 hr Nat.one_pos ?_
    convert h using 1
    rw [Nat.cast_mul, Nat.cast_pow, ← zpow_natCast, Int.toNat_of_nonneg (by omega), Nat.cast_one, div_one]
    rfl

end ReversePolish.Double
