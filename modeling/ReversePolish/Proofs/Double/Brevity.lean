/-
  ReversePolish.Proofs.Double.Brevity — no decimal with fewer digits is read as the double.

  What is read as a double is nearer to it than to either neighbour, so it lies between the
  middles to them (`roundsTo_of_closest`). These numbers have no gap (`RoundsTo.convex`). The
  search over the grids begins where a step exceeds the whole interval (`high_lt_start`) and
  passes over a grid only if neither neighbour of the double on it is held, and then no
  point of the grid is (`multiple?_eq_none`). So the grid at which it stops is the coarsest of
  all (`not_holds_of_coarser`).

  A decimal with fewer digits than the one found either stands on a coarser grid, or is
  less; and then there is a power of ten between the two, which stands on a coarser grid.
  Neither rounds to the double (`length_shortest_le`).
-/

import ReversePolish.Proofs.Double.Rounding
import ReversePolish.Proofs.Double.Shortest

namespace ReversePolish.Double

/-! ## What is read as a rank rounds to it -/

namespace Closest

variable {bound r s : Nat} {q : ℚ}

/-- Up to the middle to a greater rank, and an odd rank does not have the middle. -/
theorem le_middle (h : Closest bound q r) (hs : s ≤ bound) (hlt : r < s) :
    2 * q ≤ units r + units s ∧ (r % 2 = 1 → 2 * q ≠ units r + units s) := by
  have hu := units_lt_units hlt
  refine ⟨?_, fun hodd htie => ?_⟩
  · by_contra hmiddle
    have hnear := h.nearest s hs
    rw [abs_of_pos (by linarith)] at hnear
    have := abs_lt.mpr (show -(q - units r) < q - units s ∧ q - units s < q - units r from
      ⟨by linarith, by linarith⟩)
    linarith
  · have heven := h.even s hs hlt.ne' (by
      rw [abs_of_pos (by linarith), abs_of_neg (by linarith)]
      linarith)
    omega

/-- From the middle to a smaller rank on, and an odd rank does not have the middle. -/
theorem middle_le (h : Closest bound q r) (hlt : s < r) :
    units s + units r ≤ 2 * q ∧ (r % 2 = 1 → units s + units r ≠ 2 * q) := by
  have hs : s ≤ bound := hlt.le.trans h.le
  have hu := units_lt_units hlt
  refine ⟨?_, fun hodd htie => ?_⟩
  · by_contra hmiddle
    have hnear := h.nearest s hs
    rw [abs_of_neg (by linarith)] at hnear
    have := abs_lt.mpr (show -(units r - q) < q - units s ∧ q - units s < units r - q from
      ⟨by linarith, by linarith⟩)
    linarith
  · have heven := h.even s hs hlt.ne (by
      rw [abs_of_neg (by linarith), abs_of_pos (by linarith)]
      linarith)
    omega

end Closest

theorem quarters_mul (rank n : Nat) : 4 * (quarters rank n * 2 ^ 1074) = n * 2 ^ doublings rank := by
  have hpow : ((2 ^ 1076 : ℕ) : ℚ) = 4 * 2 ^ 1074 := by
    rw [Nat.cast_pow, Nat.cast_ofNat, show 1076 = 2 + 1074 from rfl, pow_add]
    norm_num only
  have hpos : (0 : ℚ) < 2 ^ 1074 := by positivity
  rw [quarters_eq, hpow]
  generalize (2 : ℚ) ^ 1074 = c at *
  rw [← mul_assoc, mul_right_comm, mul_div_cancel₀ _ (by positivity), Nat.cast_mul, Nat.cast_pow, Nat.cast_ofNat]

/-- The upper end of what rounds to a rank is the middle to the next one. -/
theorem quarters_high (rank : Nat) :
    2 * (quarters rank (4 * significand rank + 2) * 2 ^ 1074) = units rank + units (rank + 1) := by
  have h := quarters_mul rank (4 * significand rank + 2)
  rw [units_succ, units_eq]
  generalize (2 : ℚ) ^ 1074 = c at *
  push_cast at h ⊢
  linarith

/-- The step below a rank is a half of its own at the beginning of a binade. -/
theorem step_below {rank : Nat} (h0 : 0 < rank) :
    2 * 2 ^ doublings (rank - 1) = below rank * 2 ^ doublings rank := by
  unfold below
  split
  · rename_i h
    have hd : doublings rank = doublings (rank - 1) + 1 := by
      obtain ⟨hs, hb⟩ := h
      unfold significand at hs
      unfold doublings
      unfold binade at *
      split at hs <;> omega
    rw [hd, Nat.pow_succ]
    omega
  · rename_i h
    have hd : doublings (rank - 1) = doublings rank := by
      unfold significand at h
      unfold doublings
      unfold binade at *
      split at h <;> omega
    rw [hd]

/-- The lower end of what rounds to a rank is the middle to the one before. -/
theorem quarters_low {rank : Nat} (h0 : 0 < rank) :
    2 * (quarters rank (4 * significand rank - below rank) * 2 ^ 1074) = units (rank - 1) + units rank := by
  have h := quarters_mul rank (4 * significand rank - below rank)
  have hm := significand_pos h0
  have hb := below_eq rank
  have hstep : (2 * 2 ^ doublings (rank - 1) : ℚ) = below rank * 2 ^ doublings rank := by exact_mod_cast step_below h0
  have hunits : (units rank : ℚ) = units (rank - 1) + 2 ^ doublings (rank - 1) := by
    have hsucc := units_succ (rank - 1)
    rw [Nat.sub_add_cancel h0, Nat.add_mul, ← units_eq, Nat.one_mul] at hsucc
    exact_mod_cast hsucc
  have hself : (units rank : ℚ) = significand rank * 2 ^ doublings rank := by exact_mod_cast units_eq rank
  rw [Nat.cast_sub (by omega), sub_mul] at h
  generalize (2 : ℚ) ^ 1074 = c at *
  push_cast at h
  linarith

/-- What a rank is the nearest of rounds to it. -/
theorem roundsTo_of_closest {rank : Nat} (h0 : 0 < rank) (hr : rank < infinityRank) {q : ℚ}
    (h : Closest infinityRank (q * 2 ^ 1074) rank) : RoundsTo rank q := by
  have hpos : (0 : ℚ) < 2 ^ 1074 := by positivity
  have hlow := quarters_low h0
  have hhigh := quarters_high rank
  obtain ⟨hl, hlodd⟩ := h.middle_le (Nat.sub_lt h0 Nat.one_pos)
  obtain ⟨hu, huodd⟩ := h.le_middle hr (Nat.lt_succ_self rank)
  have hodd : significand rank % 2 = 1 → rank % 2 = 1 := by
    have := rank_eq rank
    unfold binade at this
    omega
  rw [← hlow] at hl hlodd
  rw [← hhigh] at hu huodd
  refine ⟨?_, ?_, fun hs => ⟨fun he => hlodd (hodd hs) (by rw [he]), fun he => huodd (hodd hs) (by rw [he])⟩⟩
  · exact le_of_mul_le_mul_right (le_of_mul_le_mul_left hl two_pos) hpos
  · exact le_of_mul_le_mul_right (le_of_mul_le_mul_left hu two_pos) hpos

/-- Between two numbers that round to a rank there are no others. -/
theorem RoundsTo.convex {rank : Nat} {a b q : ℚ} (ha : RoundsTo rank a) (hb : RoundsTo rank b) (hl : a ≤ q)
    (hu : q ≤ b) : RoundsTo rank q := by
  refine ⟨ha.low.trans hl, hu.trans hb.high, fun hodd => ⟨fun he => ?_, fun he => ?_⟩⟩
  · exact (ha.odd hodd).1 (le_antisymm ha.low (he ▸ hl))
  · exact (hb.odd hodd).2 (le_antisymm hb.high (he ▸ hu))

/-! ## The coarsest grid -/

namespace Interval

variable {i : Interval}

theorem bounds_of_holds {n : Nat} (h : i.holds n = true) : i.low ≤ n ∧ n ≤ i.high := by
  unfold holds at h
  split at h
  · rw [Bool.and_eq_true, decide_eq_true_eq, decide_eq_true_eq] at h
    exact h
  · rw [Bool.and_eq_true, decide_eq_true_eq, decide_eq_true_eq] at h
    omega

theorem holds_convex {a b n : Nat} (ha : i.holds a = true) (hb : i.holds b = true) (hl : a ≤ n) (hu : n ≤ b) :
    i.holds n = true := by
  unfold holds at *
  split at ha
  · rw [if_pos ‹_›, Bool.and_eq_true, decide_eq_true_eq, decide_eq_true_eq] at *
    omega
  · rw [if_neg ‹_›, Bool.and_eq_true, decide_eq_true_eq, decide_eq_true_eq] at *
    omega

/-- If neither neighbour of the middle is held, no multiple is. -/
theorem multiple?_eq_none {step : Nat} (hs : 0 < step) (hm : i.holds i.middle = true) (h : i.multiple? step = none)
    (n : Nat) : i.holds (n * step) = false := by
  have hbelow : i.holds (i.middle / step * step) = false ∧ i.holds ((i.middle / step + 1) * step) = false := by
    unfold multiple? at h
    simp only at h
    split at h
    · split at h <;> cases h
    · cases h
    · cases h
    · exact ⟨‹_›, ‹_›⟩
  rw [Bool.eq_false_iff]
  intro hn
  rcases Nat.lt_or_ge (i.middle / step) n with hlt | hge
  · have hnext : i.middle ≤ (i.middle / step + 1) * step := by
      rw [Nat.mul_comm]
      exact (Nat.lt_mul_div_succ i.middle hs).le
    rw [holds_convex hm hn hnext (Nat.mul_le_mul_right step hlt)] at hbelow
    cases hbelow.2
  · rw [holds_convex hn hm (Nat.mul_le_mul_right step hge) (Nat.div_mul_le_self _ _)] at hbelow
    cases hbelow.1

/-- The grids that the search passes over have no point that is held. -/
theorem multiple?_of_coarsest {k j : Nat} (hj : (i.coarsest k).2 < j) (hk : j ≤ k) : i.multiple? (10 ^ j) = none := by
  induction k with
  | zero =>
    rw [Nat.le_zero.mp hk] at hj
    exact absurd hj (Nat.not_lt_zero _)
  | succ k ih =>
    unfold coarsest at hj
    split at hj
    · exact absurd hk (Nat.not_le.mpr hj)
    · rcases Nat.lt_or_eq_of_le hk with hlt | rfl
      · exact ih hj (Nat.le_of_lt_succ hlt)
      · assumption

/-- The search begins with a step beyond the interval. -/
theorem high_lt_start (i : Interval) : i.high < 10 ^ i.start := by
  by_cases h0 : i.high = 0
  · rw [h0]
    positivity
  · have hhigh := (Nat.log2_lt h0).mp (Nat.lt_succ_self i.high.log2)
    have hstart : 28 * (i.high.log2 + 1) ≤ 93 * i.start := by
      unfold start
      omega
    have hpow : (2 ^ (i.high.log2 + 1)) ^ 93 ≤ (10 ^ i.start) ^ 93 := by
      calc (2 ^ (i.high.log2 + 1)) ^ 93 = (2 ^ 93) ^ (i.high.log2 + 1) := by rw [← pow_mul, ← pow_mul, mul_comm]
        _ ≤ (10 ^ 28) ^ (i.high.log2 + 1) := Nat.pow_le_pow_left (by norm_num) _
        _ = 10 ^ (28 * (i.high.log2 + 1)) := (pow_mul _ _ _).symm
        _ ≤ 10 ^ (93 * i.start) := Nat.pow_le_pow_right (by norm_num) hstart
        _ = (10 ^ i.start) ^ 93 := by rw [← pow_mul, mul_comm]
    exact hhigh.trans_le (le_of_pow_le_pow_left₀ (by norm_num) (Nat.zero_le _) hpow)

theorem low_pos {rank : Nat} (h0 : 0 < rank) : 0 < (ofRank rank).low := by
  have hm := significand_pos h0
  have hb := below_eq rank
  rw [low_ofRank]
  exact (Nat.zero_le _).trans_lt (onGrid_lt (show 0 < 4 * significand rank - below rank by omega))

/-- No grid beyond that at which the search stops has a point that is held. -/
theorem not_holds_of_coarser {rank : Nat} (h0 : 0 < rank) {j : Nat}
    (hj : ((ofRank rank).coarsest (ofRank rank).start).2 < j) (n : Nat) : (ofRank rank).holds (n * 10 ^ j) = false := by
  rcases Nat.lt_or_ge (ofRank rank).start j with hlt | hge
  · -- a step beyond the interval, which zero is not in
    rw [Bool.eq_false_iff]
    intro hn
    obtain ⟨hl, hu⟩ := bounds_of_holds hn
    have hlow := low_pos h0
    have hstep := (high_lt_start (ofRank rank)).trans_le (Nat.pow_le_pow_right (by norm_num) hlt.le)
    rcases Nat.eq_zero_or_pos n with rfl | hpos
    · omega
    · exact absurd (hstep.trans_le (Nat.le_mul_of_pos_left _ hpos)) (Nat.not_lt.mpr hu)
  · exact multiple?_eq_none (by positivity) (holds_middle h0) (multiple?_of_coarsest hj hge) n

/-- What rounds to a rank and stands on its finest grid is held. -/
theorem holds_of_roundsTo {rank n : Nat} (h : RoundsTo rank (n * 10 ^ min 0 (quarterExponent rank))) :
    (ofRank rank).holds n = true := by
  have hpos : (0 : ℚ) < 10 ^ min 0 (quarterExponent rank) := by positivity
  obtain ⟨hl, hu, hodd⟩ := h
  rw [← onGrid_eq, mul_le_mul_iff_left₀ hpos, Nat.cast_le] at hl
  rw [← onGrid_eq, mul_le_mul_iff_left₀ hpos, Nat.cast_le] at hu
  rw [← onGrid_eq, ← onGrid_eq, Ne, mul_left_inj' hpos.ne', Nat.cast_inj, Ne, mul_left_inj' hpos.ne',
    Nat.cast_inj] at hodd
  unfold holds
  rw [low_ofRank, high_ofRank, closed_ofRank]
  by_cases heven : significand rank % 2 = 0
  · rw [if_pos (decide_eq_true heven), Bool.and_eq_true, decide_eq_true_eq, decide_eq_true_eq]
    exact ⟨hl, hu⟩
  · obtain ⟨hln, hun⟩ := hodd (by omega)
    rw [if_neg (by simpa using heven), Bool.and_eq_true, decide_eq_true_eq, decide_eq_true_eq]
    exact ⟨lt_of_le_of_ne hl hln, lt_of_le_of_ne hu hun⟩

end Interval

/-! ## Digits -/

/-- Nothing on a coarser grid than that of the shortest decimal rounds to the rank. -/
theorem not_roundsTo_of_coarser {rank : Nat} (h0 : 0 < rank) (n j : Nat) :
    ¬RoundsTo rank (n * 10 ^ ((shortest rank).exponent + (j + 1))) := by
  intro h
  have hholds : (Interval.ofRank rank).holds
      (n * 10 ^ j * 10 ^ (((Interval.ofRank rank).coarsest (Interval.ofRank rank).start).2 + 1)) = true := by
    refine Interval.holds_of_roundsTo ?_
    convert h using 1
    unfold shortest
    push_cast
    rw [mul_assoc, mul_assoc, ← zpow_natCast, ← zpow_natCast, ← zpow_add₀ (by norm_num), ← zpow_add₀ (by norm_num)]
    congr 2
    push_cast
    ring
  rw [Interval.not_holds_of_coarser h0 (Nat.lt_succ_self _)] at hholds
  cases hholds

/-- No decimal that rounds to a rank has fewer digits than the shortest. -/
theorem length_shortest_le {rank n : Nat} {e : ℤ} (h0 : 0 < rank) (h : RoundsTo rank (n * 10 ^ e)) :
    (Nat.toDigits 10 (shortest rank).digits).length ≤ (Nat.toDigits 10 n).length := by
  have hfound := shortest_roundsTo h0
  have hcoarser := not_roundsTo_of_coarser h0
  generalize (shortest rank).digits = d at *
  generalize (shortest rank).exponent = k at *
  by_contra hlt
  rw [Nat.not_le] at hlt
  obtain ⟨l, hl⟩ := Nat.exists_eq_succ_of_ne_zero (Nat.length_toDigits_pos (b := 10) (n := n)).ne'
  rw [hl, Nat.lt_iff_add_one_le] at hlt
  have hn : n < 10 ^ (l + 1) := (Nat.length_toDigits_le_iff (by norm_num) (Nat.succ_pos l)).mp hl.le
  have hd : 10 ^ (l + 1) ≤ d := by
    by_contra hdlt
    have := (Nat.length_toDigits_le_iff (by norm_num) (Nat.succ_pos l)).mpr (Nat.lt_of_not_le hdlt)
    omega
  rcases lt_or_ge k e with hke | hek
  · -- the decimal stands on a coarser grid itself
    obtain ⟨j, hj⟩ := Int.le.dest (Int.add_one_le_of_lt hke)
    refine hcoarser n j ?_
    convert h using 3
    omega
  · -- the power of ten between the two does
    refine hcoarser 1 l (h.convex hfound ?_ ?_)
    · calc (n : ℚ) * 10 ^ e ≤ 10 ^ (l + 1) * 10 ^ k := by
            refine mul_le_mul ?_ (zpow_le_zpow_right₀ (by norm_num) hek) (by positivity) (by positivity)
            exact_mod_cast hn.le
        _ = ((1 : ℕ) : ℚ) * 10 ^ (k + (l + 1)) := by
            rw [Nat.cast_one, one_mul, add_comm k, zpow_add₀ (by norm_num)]
            norm_cast
    · calc ((1 : ℕ) : ℚ) * 10 ^ (k + (l + 1)) = 10 ^ (l + 1) * 10 ^ k := by
            rw [Nat.cast_one, one_mul, add_comm k, zpow_add₀ (by norm_num)]
            norm_cast
        _ ≤ d * 10 ^ k := by
            refine mul_le_mul_of_nonneg_right ?_ (by positivity)
            exact_mod_cast hd

end ReversePolish.Double
