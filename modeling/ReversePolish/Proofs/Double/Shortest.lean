/-
  ReversePolish.Proofs.Double.Shortest — the decimal that is written rounds to the double.

  The finest grid measures in powers of ten what quarters measure in powers of two
  (`onGrid_eq`), so an interval on it holds just what rounds to the rank. The search over
  coarser grids gives nothing that the interval does not hold, and at last the double
  itself, which it does hold (`holds_coarsest`). So whatever grid is found, the decimal
  rounds to the rank it was made for (`shortest_roundsTo`).
-/

import ReversePolish.Proofs.Double.Nearest

namespace ReversePolish.Double

/-! ## Grids -/

theorem onGrid_eq (rank n : Nat) : (onGrid rank n : ℚ) * 10 ^ min 0 (quarterExponent rank) = quarters rank n := by
  unfold onGrid quarters
  generalize quarterExponent rank = e
  dsimp only
  rw [Nat.pow_eq, Nat.shiftLeft_eq]
  split
  case isTrue he =>
    have hfive : ((5 : ℚ) ^ (-e).toNat) = 5 ^ (-e) := by rw [← zpow_natCast, Int.toNat_of_nonneg (by omega)]
    have hten : (10 : ℚ) ^ e = 5 ^ e * 2 ^ e := by rw [← mul_zpow]; norm_num
    rw [min_eq_right he.le, Nat.cast_mul, Nat.cast_pow, Nat.cast_ofNat, hfive, hten, mul_assoc, ← mul_assoc (5 ^ (-e)),
      ← zpow_add₀ (by norm_num), neg_add_cancel, zpow_zero, one_mul]
  case isFalse he =>
    rw [min_eq_left (by omega), zpow_zero, mul_one, Nat.cast_mul, Nat.cast_pow, Nat.cast_ofNat, ← zpow_natCast,
      Int.toNat_of_nonneg (by omega)]

theorem onGrid_lt {rank m n : Nat} (h : m < n) : onGrid rank m < onGrid rank n := by
  unfold onGrid
  dsimp only
  rw [Nat.pow_eq, Nat.shiftLeft_eq, Nat.shiftLeft_eq]
  split
  · exact Nat.mul_lt_mul_of_pos_right h (by positivity)
  · exact Nat.mul_lt_mul_of_pos_right h (by positivity)

namespace Interval

theorem low_ofRank (rank : Nat) : (ofRank rank).low = onGrid rank (4 * significand rank - below rank) := rfl

theorem high_ofRank (rank : Nat) : (ofRank rank).high = onGrid rank (4 * significand rank + 2) := rfl

theorem closed_ofRank (rank : Nat) : (ofRank rank).closed = decide (significand rank % 2 = 0) := rfl

/-- What the interval of a rank holds rounds to the rank. -/
theorem roundsTo_of_holds {rank n : Nat} (h : (ofRank rank).holds n = true) :
    RoundsTo rank (n * 10 ^ min 0 (quarterExponent rank)) := by
  have hpos : (0 : ℚ) < 10 ^ min 0 (quarterExponent rank) := by positivity
  unfold holds at h
  rw [low_ofRank, high_ofRank, closed_ofRank] at h
  by_cases heven : significand rank % 2 = 0
  · rw [if_pos (decide_eq_true heven), Bool.and_eq_true, decide_eq_true_eq, decide_eq_true_eq] at h
    refine ⟨?_, ?_, fun hodd => by omega⟩
    · rw [← onGrid_eq]
      exact mul_le_mul_of_nonneg_right (Nat.cast_le.mpr h.1) hpos.le
    · rw [← onGrid_eq]
      exact mul_le_mul_of_nonneg_right (Nat.cast_le.mpr h.2) hpos.le
  · rw [if_neg (by simpa using heven), Bool.and_eq_true, decide_eq_true_eq, decide_eq_true_eq] at h
    have hl : quarters rank (4 * significand rank - below rank) < n * 10 ^ min 0 (quarterExponent rank) := by
      rw [← onGrid_eq]
      exact mul_lt_mul_of_pos_right (Nat.cast_lt.mpr h.1) hpos
    have hu : (n : ℚ) * 10 ^ min 0 (quarterExponent rank) < quarters rank (4 * significand rank + 2) := by
      rw [← onGrid_eq]
      exact mul_lt_mul_of_pos_right (Nat.cast_lt.mpr h.2) hpos
    exact ⟨hl.le, hu.le, fun _ => ⟨hl.ne, hu.ne⟩⟩

theorem holds_middle {rank : Nat} (h0 : 0 < rank) : (ofRank rank).holds (ofRank rank).middle = true := by
  have hm := significand_pos h0
  have hb := below_eq rank
  have hl : (ofRank rank).low < (ofRank rank).middle := by
    show onGrid rank (4 * significand rank - below rank) < onGrid rank (4 * significand rank)
    exact onGrid_lt (by omega)
  have hu : (ofRank rank).middle < (ofRank rank).high := onGrid_lt (by omega)
  unfold holds
  split
  · rw [Bool.and_eq_true, decide_eq_true_eq, decide_eq_true_eq]
    exact ⟨hl.le, hu.le⟩
  · rw [Bool.and_eq_true, decide_eq_true_eq, decide_eq_true_eq]
    exact ⟨hl, hu⟩

/-! ## The search -/

theorem holds_multiple {i : Interval} {step n : Nat} (h : i.multiple? step = some n) : i.holds (n * step) = true := by
  unfold multiple? at h
  simp only at h
  split at h
  · split at h
    · cases h; assumption
    · cases h; assumption
  · cases h; assumption
  · cases h; assumption
  · cases h

/-- Whichever grid the search stops at, the interval holds the point found. -/
theorem holds_coarsest {i : Interval} (hi : i.holds i.middle = true) (k : Nat) :
    i.holds ((i.coarsest k).1 * 10 ^ (i.coarsest k).2) = true := by
  induction k with
  | zero => simpa [coarsest] using hi
  | succ k ih =>
    unfold coarsest
    split
    · exact holds_multiple ‹_›
    · exact ih

end Interval

/-- The shortest decimal of a rank rounds to the rank. -/
theorem shortest_roundsTo {rank : Nat} (h0 : 0 < rank) :
    RoundsTo rank ((shortest rank).digits * 10 ^ (shortest rank).exponent) := by
  have h := Interval.roundsTo_of_holds
    (Interval.holds_coarsest (Interval.holds_middle h0) (Interval.ofRank rank).start)
  convert h using 1
  unfold shortest
  rw [zpow_add₀ (by norm_num), zpow_natCast, Nat.cast_mul, Nat.cast_pow, Nat.cast_ofNat, mul_assoc]

end ReversePolish.Double
