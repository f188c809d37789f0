/-
  ReversePolish.Proofs.Double.Rounding — numbers are rounded to the nearest double.

  Of all doubles with one sign the nearest to a magnitude is the one at the least distance,
  and if two are equally far away it is the one whose last bit is zero (`Nearest`); an
  infinity counts as 2^1024. There is one nearest double only (`Nearest.unique`).

  Rounding measures a quotient in the spacing of the doubles of its binade and takes the
  nearest integer (`abs_sub_divNearest_le`). The doubles of the binade and above it are among the
  multiples of the spacing, and the doubles below are less than the least multiple that
  the quotient may be rounded to; so no double is nearer (`closest_place`). Beyond the infinity
  its rank is the nearest of those that exist (`Closest.clamp`). Hence quotients
  (`nearest_nearestRank`), decimals of any exponent (`nearest_decimalRank`) and integers
  (`nearest_ofInt`) are rounded to the nearest double.
-/

import ReversePolish.Proofs.Double.Magnitude

namespace ReversePolish.Double

/-! ## The nearest double -/

/-- The double of a sign that is nearest to a magnitude; of two that are equally near the last bit is zero. -/
structure Nearest (negative : Bool) (q : ℚ) (x : Float) : Prop where
  number : x.isNaN = false
  sign : isNegative x = negative
  nearest : ∀ y : Float, y.isNaN = false → isNegative y = negative → |q - magnitude x| ≤ |q - magnitude y|
  even : ∀ y : Float, y.isNaN = false → isNegative y = negative → y ≠ x →
    |q - magnitude x| = |q - magnitude y| → x.toBits.toNat % 2 = 0

/-- The rank is the nearest of those up to `bound`, in units of the last bit of all. -/
structure Closest (bound : Nat) (q : ℚ) (r : Nat) : Prop where
  le : r ≤ bound
  nearest : ∀ s ≤ bound, |q - units r| ≤ |q - units s|
  even : ∀ s ≤ bound, s ≠ r → |q - units r| = |q - units s| → r % 2 = 0

theorem abs_sub_magnitude_ofRank (q : ℚ) (negative : Bool) {r : Nat} (h : r ≤ infinityRank) :
    |q - magnitude (ofRank negative r)| = |q * 2 ^ 1074 - units r| / 2 ^ 1074 := by
  have hpos : (0 : ℚ) < 2 ^ 1074 := by positivity
  have hq : q - units r / 2 ^ 1074 = (q * 2 ^ 1074 - units r) / 2 ^ 1074 := by
    rw [sub_div, mul_div_cancel_right₀ _ hpos.ne']
  rw [magnitude_eq (isNaN_ofRank negative h), rank_ofRank negative h, hq, abs_div, abs_of_pos hpos]

theorem toBits_ofRank_mod_two (negative : Bool) {r : Nat} (h : r ≤ infinityRank) :
    (ofRank negative r).toBits.toNat % 2 = r % 2 := by
  rw [toNat_toBits_ofRank negative h]
  unfold signBit
  split <;> omega

theorem nearest_ofRank_iff {negative : Bool} {q : ℚ} {r : Nat} (h : r ≤ infinityRank) :
    Nearest negative q (ofRank negative r) ↔ Closest infinityRank (q * 2 ^ 1074) r := by
  have hpos : (0 : ℚ) < 2 ^ 1074 := by positivity
  constructor
  · intro hn
    refine ⟨h, fun s hs => ?_, fun s hs hne htie => ?_⟩
    · have := hn.nearest _ (isNaN_ofRank negative hs) (isNegative_ofRank negative hs)
      rwa [abs_sub_magnitude_ofRank q negative h, abs_sub_magnitude_ofRank q negative hs,
        div_le_div_iff_of_pos_right hpos] at this
    · have hxy : ofRank negative s ≠ ofRank negative r := by
        intro he
        rw [← rank_ofRank negative hs, he, rank_ofRank negative h] at hne
        exact hne rfl
      have := hn.even _ (isNaN_ofRank negative hs) (isNegative_ofRank negative hs) hxy
        (by rw [abs_sub_magnitude_ofRank q negative h, abs_sub_magnitude_ofRank q negative hs, htie])
      rwa [toBits_ofRank_mod_two negative h] at this
  · intro hc
    refine ⟨isNaN_ofRank negative h, isNegative_ofRank negative h, fun y hy hsign => ?_, fun y hy hsign hne htie => ?_⟩
    · obtain ⟨s, hs, rfl⟩ := exists_ofRank hy hsign
      rw [abs_sub_magnitude_ofRank q negative h, abs_sub_magnitude_ofRank q negative hs,
        div_le_div_iff_of_pos_right hpos]
      exact hc.nearest s hs
    · obtain ⟨s, hs, rfl⟩ := exists_ofRank hy hsign
      rw [abs_sub_magnitude_ofRank q negative h, abs_sub_magnitude_ofRank q negative hs,
        div_left_inj' hpos.ne'] at htie
      rw [toBits_ofRank_mod_two negative h]
      exact hc.even s hs (fun he => hne (by rw [he])) htie

/-! ## One nearest rank -/

theorem units_lt_units {r s : Nat} (h : r < s) : (units r : ℚ) < units s := by exact_mod_cast units_strictMono h

/-- Between two even ranks there is another, which is nearer to the middle. -/
theorem Closest.not_lt {bound : Nat} {q : ℚ} {r s : Nat} (hr : Closest bound q r) (hs : Closest bound q s) : ¬r < s := by
  intro hlt
  have htie : |q - units r| = |q - units s| := le_antisymm (hr.nearest s hs.le) (hs.nearest r hr.le)
  have hre := hr.even s hs.le hlt.ne' htie
  have hse := hs.even r hr.le hlt.ne htie.symm
  have hbetween := hr.nearest (r + 1) (by have := hs.le; omega)
  have h1 := units_lt_units (Nat.lt_succ_self r)
  have h2 := units_lt_units (show r + 1 < s by omega)
  have hmiddle : q - units r = units s - q := by
    rcases abs_eq_abs.mp htie with h | h <;> linarith
  rw [abs_of_pos (by linarith)] at hbetween
  have := abs_lt.mpr (show -(q - units r) < q - units (r + 1) ∧ q - units (r + 1) < q - units r from
    ⟨by linarith, by linarith⟩)
  linarith

theorem Closest.unique {bound : Nat} {q : ℚ} {r s : Nat} (hr : Closest bound q r) (hs : Closest bound q s) : r = s :=
  Nat.le_antisymm (Nat.le_of_not_lt (hs.not_lt hr)) (Nat.le_of_not_lt (hr.not_lt hs))

/-- There is one nearest double only. -/
theorem Nearest.unique {negative : Bool} {q : ℚ} {x y : Float} (hx : Nearest negative q x) (hy : Nearest negative q y) :
    x = y := by
  obtain ⟨r, hr, rfl⟩ := exists_ofRank hx.number hx.sign
  obtain ⟨s, hs, rfl⟩ := exists_ofRank hy.number hy.sign
  rw [((nearest_ofRank_iff hr).mp hx).unique ((nearest_ofRank_iff hs).mp hy)]

/-! ## The nearest integer -/

theorem abs_sub_divNearest_le (a : Nat) {c : Nat} (hc : 0 < c) :
    |(a : ℚ) / c - divNearest a c| ≤ 1 / 2 ∧
      (|(a : ℚ) / c - divNearest a c| = 1 / 2 → divNearest a c % 2 = 0) := by
  have hcq : (0 : ℚ) < c := Nat.cast_pos.mpr hc
  have hdiv : (a : ℚ) / c = (a / c : ℕ) + (a % c : ℕ) / c := by
    rw [div_eq_iff hcq.ne', add_mul, div_mul_cancel₀ _ hcq.ne']
    exact_mod_cast (Nat.div_add_mod' a c).symm
  have hmod := Nat.mod_lt a hc
  rw [hdiv]
  unfold divNearest
  simp only
  generalize a / c = q
  generalize a % c = r at *
  have h0 : (0 : ℚ) ≤ r / c := by positivity
  have h1 : (r : ℚ) / c < 1 := (div_lt_one hcq).mpr (Nat.cast_lt.mpr hmod)
  rcases Nat.lt_trichotomy (2 * r) c with hlt | heq | hgt
  · have hhalf : (r : ℚ) / c < 1 / 2 := by
      rw [div_lt_div_iff₀ hcq two_pos]
      exact_mod_cast (by omega : r * 2 < 1 * c)
    rw [if_pos hlt, add_sub_cancel_left, abs_of_nonneg h0]
    exact ⟨hhalf.le, fun h => absurd h hhalf.ne⟩
  · have hhalf : (r : ℚ) / c = 1 / 2 := by
      rw [div_eq_div_iff hcq.ne' two_ne_zero]
      exact_mod_cast (by omega : r * 2 = 1 * c)
    rw [if_neg (by omega), if_neg (by omega), hhalf]
    refine ⟨?_, fun _ => by omega⟩
    rcases Nat.mod_two_eq_zero_or_one q with h | h
    · rw [h, Nat.add_zero, add_sub_cancel_left, abs_of_nonneg (by norm_num)]
    · rw [h, Nat.cast_add, Nat.cast_one, add_sub_add_left_eq_sub, abs_of_nonpos (by norm_num)]
      norm_num
  · have hhalf : 1 / 2 < (r : ℚ) / c := by
      rw [div_lt_div_iff₀ two_pos hcq]
      exact_mod_cast (by omega : 1 * c < r * 2)
    rw [if_neg (by omega), if_pos hgt, Nat.cast_add, Nat.cast_one, add_sub_add_left_eq_sub, abs_of_neg (by linarith)]
    refine ⟨by linarith, fun h => absurd h ?_⟩
    intro h
    linarith

/-- An integer within a half is the nearest, and only at a half there is another. -/
theorem nearest_of_abs_sub_le {q : ℚ} {m : Nat} (h : |q - m| ≤ 1 / 2) (j : Nat) :
    |q - m| ≤ |q - j| ∧ (j ≠ m → |q - m| = |q - j| → |q - m| = 1 / 2) := by
  by_cases hj : j = m
  · subst hj
    exact ⟨le_refl _, fun hne => absurd rfl hne⟩
  · have hone : (1 : ℚ) ≤ |(m : ℚ) - j| := by
      have : (1 : ℤ) ≤ |(m : ℤ) - j| := Int.one_le_abs (by omega)
      exact_mod_cast this
    have htriangle := abs_sub_le (m : ℚ) q j
    rw [abs_sub_comm (m : ℚ) q] at htriangle
    refine ⟨by linarith, fun _ heq => ?_⟩
    linarith

/-- The nearest integer is not less than an integer that is not greater than the number. -/
theorem le_of_abs_sub_le {q : ℚ} {m b : Nat} (h : |q - m| ≤ 1 / 2) (hb : (b : ℚ) ≤ q) : b ≤ m := by
  have := (abs_le.mp h).2
  have hlt : (b : ℚ) < (m + 1 : ℕ) := by push_cast; linarith
  exact Nat.lt_succ_iff.mp (by exact_mod_cast hlt)

theorem ge_of_abs_sub_le {q : ℚ} {m b : Nat} (h : |q - m| ≤ 1 / 2) (hb : q ≤ b) : m ≤ b := by
  have := (abs_le.mp h).1
  have hlt : (m : ℚ) < (b + 1 : ℕ) := by push_cast; linarith
  exact Nat.lt_succ_iff.mp (by exact_mod_cast hlt)

/-! ## The nearest rank of a quotient -/

theorem units_lt_of_doublings_lt {s k : Nat} (h : doublings s < k) : units s < binade * 2 ^ k := by
  obtain ⟨j, rfl⟩ := Nat.exists_eq_add_of_lt h
  rw [units_eq]
  calc significand s * 2 ^ doublings s < 2 * binade * 2 ^ doublings s :=
        Nat.mul_lt_mul_of_pos_right (significand_lt s) (Nat.two_pow_pos _)
    _ = binade * 2 ^ (doublings s + 1) := by rw [Nat.pow_succ]; ring
    _ ≤ binade * 2 ^ (doublings s + j + 1) :=
        Nat.mul_le_mul_left _ (Nat.pow_le_pow_right two_pos (by omega))

theorem exists_units_eq_mul {s k : Nat} (h : k ≤ doublings s) : ∃ j, units s = j * 2 ^ k := by
  obtain ⟨j, hj⟩ := Nat.exists_eq_add_of_le h
  refine ⟨significand s * 2 ^ j, ?_⟩
  rw [units_eq, hj, Nat.pow_add]
  ring

theorem abs_sub_mul_two_pow (x : ℚ) (j k : Nat) : |x - j * 2 ^ k| = |x / 2 ^ k - j| * 2 ^ k := by
  have hpos : (0 : ℚ) < 2 ^ k := by positivity
  rw [← abs_of_pos hpos, ← abs_mul, abs_of_pos hpos, sub_mul, div_mul_cancel₀ _ hpos.ne']

/-- A rank below a binade is further away than the nearest in the binade, for what is in the binade. -/
theorem abs_sub_lt_of_doublings_lt {x : ℚ} {k m s : Nat} (hx : (binade * 2 ^ k : ℚ) ≤ x)
    (hnear : |x / 2 ^ k - m| ≤ 1 / 2) (hs : doublings s < k) : |x - m * 2 ^ k| < |x - units s| := by
  have hpos : (0 : ℚ) < 2 ^ k := by positivity
  have hlt : (units s : ℚ) < binade * 2 ^ k := by exact_mod_cast units_lt_of_doublings_lt hs
  calc |x - m * 2 ^ k| = |x / 2 ^ k - m| * 2 ^ k := abs_sub_mul_two_pow x m k
    _ ≤ |x / 2 ^ k - binade| * 2 ^ k := mul_le_mul_of_nonneg_right (nearest_of_abs_sub_le hnear binade).1 hpos.le
    _ = x - binade * 2 ^ k := by rw [← abs_sub_mul_two_pow, abs_of_nonneg (sub_nonneg.mpr hx)]
    _ < x - units s := sub_lt_sub_left hlt x
    _ ≤ |x - units s| := le_abs_self _

/-- A rank is the nearest of all if it is so in the spacing of its binade, and nothing is rounded to less than the
    binade has. -/
theorem closest_place {x : ℚ} {k m bound : Nat} (hbound : k * binade + m ≤ bound) (hm : m ≤ 2 * binade)
    (hk : k = 0 ∨ (binade ≤ m ∧ binade * 2 ^ k ≤ x)) (hnear : |x / 2 ^ k - m| ≤ 1 / 2)
    (htie : |x / 2 ^ k - m| = 1 / 2 → m % 2 = 0) : Closest bound x (k * binade + m) := by
  have hpos : (0 : ℚ) < 2 ^ k := by positivity
  have hr : (units (k * binade + m) : ℚ) = m * 2 ^ k := by
    rw [units_of_place (hk.imp_right And.left) hm]
    push_cast
    rfl
  have heven : m % 2 = 0 → (k * binade + m) % 2 = 0 := by
    unfold binade
    omega
  have hbelow : ∀ s, doublings s < k → |x - units (k * binade + m)| < |x - units s| := by
    intro s hs
    rw [hr]
    exact abs_sub_lt_of_doublings_lt (hk.resolve_left (by omega)).2 hnear hs
  -- all others are multiples of the spacing
  have hmultiple : ∀ s, k ≤ doublings s → ∃ j : ℕ, (units s : ℚ) = j * 2 ^ k := by
    intro s hs
    obtain ⟨j, hj⟩ := exists_units_eq_mul hs
    exact ⟨j, by exact_mod_cast hj⟩
  refine ⟨hbound, fun s _ => ?_, fun s _ hne htied => ?_⟩
  · rcases Nat.lt_or_ge (doublings s) k with hs | hs
    · exact (hbelow s hs).le
    · obtain ⟨j, hj⟩ := hmultiple s hs
      rw [hr, hj, abs_sub_mul_two_pow, abs_sub_mul_two_pow]
      exact mul_le_mul_of_nonneg_right (nearest_of_abs_sub_le hnear j).1 hpos.le
  · rcases Nat.lt_or_ge (doublings s) k with hs | hs
    · exact absurd htied (hbelow s hs).ne
    · obtain ⟨j, hj⟩ := hmultiple s hs
      have hjm : j ≠ m := by
        rintro rfl
        exact hne (units_strictMono.injective (by exact_mod_cast hj.trans hr.symm))
      rw [hr, hj, abs_sub_mul_two_pow, abs_sub_mul_two_pow, mul_left_inj' hpos.ne'] at htied
      exact heven (htie ((nearest_of_abs_sub_le hnear j).2 hjm htied))

/-- The infinity is the nearest of the ranks that exist, if nothing nearer exists but beyond it. -/
theorem Closest.infinity {x : ℚ} (h : (units infinityRank : ℚ) ≤ x) : Closest infinityRank x infinityRank := by
  refine ⟨Nat.le_refl _, fun s hs => ?_, fun _ _ _ _ => by decide⟩
  have hle : (units s : ℚ) ≤ units infinityRank := by exact_mod_cast units_strictMono.monotone hs
  rw [abs_of_nonneg (by linarith), abs_of_nonneg (by linarith)]
  linarith

/-- A nearest rank beyond the infinity leaves the infinity as the nearest. -/
theorem Closest.clamp {x : ℚ} {bound r : Nat} (h : Closest bound x r) (hbound : infinityRank ≤ bound) :
    Closest infinityRank x (min r infinityRank) := by
  rcases Nat.lt_or_ge infinityRank r with hr | hr
  · rw [Nat.min_eq_right hr.le]
    apply Closest.infinity
    by_contra hlt
    have hlt' := units_lt_units hr
    have hnear := h.nearest infinityRank hbound
    rw [abs_of_neg (by linarith), abs_of_neg (by linarith)] at hnear
    linarith
  · rw [Nat.min_eq_left hr]
    exact ⟨hr, fun s hs => h.nearest s (hs.trans hbound), fun s hs => h.even s (hs.trans hbound)⟩

/-- The spacing that a quotient is divided by is that of its binade. -/
theorem place_of_shift {N d : Nat} (hd : 0 < d) :
    N < 2 ^ ((N / d).log2 - 52 + 53) * d ∧
      ((N / d).log2 - 52 = 0 ∨ 2 ^ ((N / d).log2 - 52 + 52) * d ≤ N) := by
  by_cases h0 : N / d = 0
  · have hlt : N < d := (Nat.div_eq_zero_iff_lt hd).mp h0
    rw [h0]
    refine ⟨?_, Or.inl rfl⟩
    have : d * 1 ≤ d * 2 ^ (Nat.log2 0 - 52 + 53) := Nat.mul_le_mul_left d (Nat.two_pow_pos _)
    rw [Nat.mul_comm]
    omega
  · have hlow := Nat.log2_self_le h0
    have hhigh := (Nat.log2_lt h0).mp (Nat.lt_succ_self (N / d).log2)
    generalize (N / d).log2 = l at *
    refine ⟨(Nat.div_lt_iff_lt_mul hd).mp (hhigh.trans_le (Nat.pow_le_pow_right two_pos (by omega))), ?_⟩
    rcases Nat.lt_or_ge l 53 with hl | hl
    · exact Or.inl (by omega)
    · refine Or.inr ((Nat.le_div_iff_mul_le hd).mp ?_)
      rwa [show l - 52 + 52 = l by omega]

theorem cast_shiftLeft (n k : Nat) : ((n <<< k : ℕ) : ℚ) = n * 2 ^ k := by
  rw [Nat.shiftLeft_eq, Nat.cast_mul, Nat.cast_pow, Nat.cast_ofNat]

/-- Rounding a quotient gives the nearest rank. -/
theorem closest_nearestRank (num : Nat) {den : Nat} (hd : 0 < den) :
    Closest infinityRank ((num : ℚ) / den * 2 ^ 1074) (nearestRank num den) := by
  have hdq : (0 : ℚ) < den := Nat.cast_pos.mpr hd
  have hx : (num : ℚ) / den * (2 : ℚ) ^ 1074 = ((num <<< 1074 : ℕ) : ℚ) / den := by
    rw [cast_shiftLeft, div_mul_eq_mul_div]
  rw [hx, nearestRank]
  obtain ⟨hupper, hlower⟩ := @place_of_shift (num <<< 1074) den hd
  generalize num <<< 1074 = N at *
  generalize (N / den).log2 - 52 = k at *
  have hpos : (0 : ℚ) < 2 ^ k := by positivity
  have hspacing : (N : ℚ) / ((den <<< k : ℕ) : ℚ) = N / den / (2 : ℚ) ^ k := by
    rw [cast_shiftLeft, div_div]
  obtain ⟨hnear, htie⟩ := abs_sub_divNearest_le N (show 0 < den <<< k by rw [Nat.shiftLeft_eq]; positivity)
  rw [hspacing] at hnear htie
  generalize divNearest N (den <<< k) = m at *
  have hhigh : (N : ℚ) / den / 2 ^ k ≤ (2 * binade : ℕ) := by
    rw [div_le_iff₀ hpos, div_le_iff₀ hdq]
    have : 2 ^ (k + 53) * den = 2 * binade * 2 ^ k * den := by rw [binade_eq, Nat.pow_add]; ring
    exact_mod_cast (this ▸ hupper).le
  have hm : m ≤ 2 * binade := ge_of_abs_sub_le hnear hhigh
  refine Closest.clamp (closest_place (Nat.le_max_left _ _) hm ?_ hnear htie) (Nat.le_max_right _ _)
  refine hlower.imp_right fun hlow => ?_
  have hlowq : (binade * 2 ^ k : ℚ) ≤ N / den := by
    rw [le_div_iff₀ hdq]
    have : 2 ^ (k + 52) * den = binade * 2 ^ k * den := by rw [binade_eq, Nat.pow_add]; ring
    exact_mod_cast this ▸ hlow
  exact ⟨le_of_abs_sub_le hnear ((le_div_iff₀ hpos).mpr hlowq), hlowq⟩

/-! ## Decimals and integers -/

/-- What is at most half the smallest double is rounded to zero. -/
theorem Closest.zero {x : ℚ} {bound : Nat} (h0 : 0 ≤ x) (h : x ≤ 1 / 2) : Closest bound x 0 := by
  refine ⟨Nat.zero_le _, fun s _ => ?_, fun _ _ _ _ => rfl⟩
  have hzero : (units 0 : ℚ) = 0 := by norm_num [units, significand]
  rw [hzero, sub_zero, abs_of_nonneg h0]
  rcases Nat.eq_zero_or_pos s with rfl | hs
  · rw [hzero, sub_zero, abs_of_nonneg h0]
  · have hone : (1 : ℚ) ≤ units s := by
      exact_mod_cast (units_strictMono hs).trans_le' (Nat.zero_le _)
    rw [abs_of_nonpos (by linarith)]
    linarith

/-- Great powers of ten are beyond the infinity. -/
theorem two_zpow_le_ten_zpow {e : ℤ} (h : 400 < e) : (2 : ℚ) ^ (1024 : ℤ) ≤ 10 ^ e := by
  by_contra hlt
  exact absurd (exponent_le (not_le.mp hlt).le) (not_le.mpr h)

/-- Small powers of ten are at most half the smallest double. -/
theorem ten_zpow_le_two_zpow {e : ℤ} (h : e < -400) : (10 : ℚ) ^ e ≤ 2 ^ (-1075 : ℤ) := by
  by_contra hlt
  have hone : (2 : ℚ) ^ (-1075 : ℤ) ≤ (1 : ℕ) * 10 ^ e := by
    rw [Nat.cast_one, one_mul]
    exact (not_le.mp hlt).le
  exact absurd (le_exponent one_ne_zero hone) (not_le.mpr h)

theorem half_of_smallest : (2 : ℚ) ^ (-1075 : ℤ) * 2 ^ 1074 = 1 / 2 := by
  rw [← zpow_natCast, ← zpow_add₀ two_ne_zero]
  norm_num

/-- Rounding a decimal gives the nearest rank, whatever its exponent. -/
theorem closest_decimalRank (n : Nat) (e : ℤ) :
    Closest infinityRank ((n : ℚ) * 10 ^ e * 2 ^ 1074) (decimalRank n e) := by
  unfold decimalRank
  split
  · rename_i hn
    subst hn
    rw [Nat.cast_zero, zero_mul, zero_mul]
    exact Closest.zero (le_refl _) (by norm_num)
  · rename_i hn
    have hone : (1 : ℚ) ≤ n := by exact_mod_cast Nat.one_le_iff_ne_zero.mpr hn
    split
    · -- above every finite double
      rename_i hlarge
      apply Closest.infinity
      rw [units_infinityRank]
      have : (10 : ℚ) ^ e ≤ n * 10 ^ e := le_mul_of_one_le_left (by positivity) hone
      exact mul_le_mul_of_nonneg_right ((two_zpow_le_ten_zpow hlarge).trans this) (by positivity)
    · split
      · -- below half the smallest double
        rename_i hsmall
        apply Closest.zero (by positivity)
        have hpow : (n : ℚ) * 10 ^ e ≤ 2 ^ (-1075 : ℤ) := by
          by_contra hlt
          exact absurd (le_exponent hn (not_le.mp hlt).le) (not_le.mpr hsmall)
        rw [← half_of_smallest]
        exact mul_le_mul_of_nonneg_right hpow (by positivity)
      · rw [Nat.pow_eq, Nat.pow_eq]
        split
        · convert closest_nearestRank n (show 0 < 10 ^ (-e).toNat by positivity) using 2
          rw [Nat.cast_pow, ← zpow_natCast, Int.toNat_of_nonneg (by omega), zpow_neg, div_inv_eq_mul]
          rfl
        · convert closest_nearestRank (n * 10 ^ e.toNat) Nat.one_pos using 2
          rw [Nat.cast_mul, Nat.cast_pow, ← zpow_natCast, Int.toNat_of_nonneg (by omega), Nat.cast_one, div_one]
          rfl

theorem nearest_nearestRank (negative : Bool) (num : Nat) {den : Nat} (hd : 0 < den) :
    Nearest negative ((num : ℚ) / den) (ofRank negative (nearestRank num den)) :=
  (nearest_ofRank_iff (closest_nearestRank num hd).le).mpr (closest_nearestRank num hd)

theorem nearest_decimalRank (negative : Bool) (n : Nat) (e : ℤ) :
    Nearest negative (n * 10 ^ e) (ofRank negative (decimalRank n e)) :=
  (nearest_ofRank_iff (closest_decimalRank n e).le).mpr (closest_decimalRank n e)

theorem nearest_ofInt (n : ℤ) : Nearest (decide (n < 0)) n.natAbs (ofInt n) := by
  have h := nearest_nearestRank (decide (n < 0)) n.natAbs Nat.one_pos
  rwa [Nat.cast_one, div_one] at h

/-- Everything from 2^1024 on is rounded to the infinity. -/
theorem nearest_iff_of_large {negative : Bool} {q : ℚ} (h : 2 ^ (1024 : ℤ) ≤ q) {x : Float} :
    Nearest negative q x ↔ x = ofRank negative infinityRank := by
  have hinf : Nearest negative q (ofRank negative infinityRank) := by
    refine (nearest_ofRank_iff (Nat.le_refl _)).mpr (Closest.infinity ?_)
    rw [units_infinityRank]
    exact mul_le_mul_of_nonneg_right h (by positivity)
  exact ⟨fun hx => hx.unique hinf, fun hx => hx ▸ hinf⟩

/-- Everything up to 2^-1075 is rounded to zero. -/
theorem nearest_iff_of_small {negative : Bool} {q : ℚ} (h0 : 0 ≤ q) (h : q ≤ 2 ^ (-1075 : ℤ)) {x : Float} :
    Nearest negative q x ↔ x = ofRank negative 0 := by
  have hzero : Nearest negative q (ofRank negative 0) := by
    refine (nearest_ofRank_iff (Nat.zero_le _)).mpr (Closest.zero (by positivity) ?_)
    rw [← half_of_smallest]
    exact mul_le_mul_of_nonneg_right h (by positivity)
  exact ⟨fun hx => hx.unique hzero, fun hx => hx ▸ hzero⟩

/-! ## Overflow and underflow -/

/-- The infinity begins in the middle between the largest finite rank and its own. -/
theorem Closest.eq_infinityRank_iff {x : ℚ} {r : Nat} (h : Closest infinityRank x r) :
    r = infinityRank ↔ (units (infinityRank - 1) + units infinityRank : ℚ) ≤ 2 * x := by
  have hpred : infinityRank - 1 < infinityRank := by decide
  have hlt := units_lt_units hpred
  constructor
  · rintro rfl
    by_contra hmiddle
    have hnear := h.nearest (infinityRank - 1) hpred.le
    rw [abs_of_neg (by linarith)] at hnear
    have := abs_lt.mpr (show -(units infinityRank - x) < x - units (infinityRank - 1) ∧
      x - units (infinityRank - 1) < units infinityRank - x from ⟨by linarith, by linarith⟩)
    linarith
  · intro hmiddle
    refine h.unique ⟨Nat.le_refl _, fun s hs => ?_, fun _ _ _ _ => by decide⟩
    rcases Nat.lt_or_eq_of_le hs with hs | rfl
    · have hle : (units s : ℚ) ≤ units (infinityRank - 1) := by
        exact_mod_cast units_strictMono.monotone (Nat.le_sub_one_of_lt hs)
      exact (abs_le.mpr ⟨by linarith, by linarith⟩).trans (le_abs_self _)
    · exact le_refl _

/-- Zero ends in the middle between zero and the smallest double. -/
theorem Closest.eq_zero_iff {x : ℚ} (h0 : 0 ≤ x) {r : Nat} (h : Closest infinityRank x r) : r = 0 ↔ x ≤ 1 / 2 := by
  constructor
  · rintro rfl
    by_contra hhalf
    have hzero : (units 0 : ℚ) = 0 := by norm_num [units, significand]
    have hone : (units 1 : ℚ) = 1 := by norm_num [units, significand, doublings, binade]
    have hnear := h.nearest 1 (by decide)
    rw [hzero, hone, sub_zero, abs_of_nonneg h0] at hnear
    have := abs_lt.mpr (show -x < x - 1 ∧ x - 1 < x from ⟨by linarith, by linarith⟩)
    linarith
  · exact fun hhalf => h.unique (Closest.zero h0 hhalf)

theorem units_largest : (units (infinityRank - 1) : ℚ) = (2 ^ (1024 : ℤ) - 2 ^ (971 : ℤ)) * 2 ^ 1074 := by
  have hplace := @units_of_place_div 2045 (2 * binade - 1) (Or.inr (by decide)) (by decide)
  have hrank : infinityRank - 1 = 2045 * binade + (2 * binade - 1) := by decide
  have hm : ((2 * binade - 1 : ℕ) : ℚ) = 2 ^ (53 : ℤ) - 1 := by norm_num [binade]
  rw [div_eq_iff (by positivity), ← hrank, hm, sub_mul, ← zpow_add₀ two_ne_zero, one_mul] at hplace
  exact hplace

/-- Numbers overflow from the middle between the largest finite double and 2^1024 on. -/
theorem Nearest.isInf_iff {negative : Bool} {q : ℚ} {x : Float} (h : Nearest negative q x) :
    x.isInf = true ↔ 2 ^ (1024 : ℤ) - 2 ^ (970 : ℤ) ≤ q := by
  obtain ⟨r, hr, rfl⟩ := exists_ofRank h.number h.sign
  have hrank : (ofRank negative r).isInf = true ↔ r = infinityRank := by
    constructor
    · intro hinf
      have := eq_ofRank_of_isInf hinf (isNegative_ofRank negative hr)
      rw [← rank_ofRank negative hr, this, rank_ofRank negative (Nat.le_refl _)]
    · rintro rfl
      exact isInf_ofRank negative
  have hpow : (2 : ℚ) ^ (971 : ℤ) = 2 * 2 ^ (970 : ℤ) := by
    rw [← zpow_one_add₀ two_ne_zero]
    rfl
  rw [hrank, ((nearest_ofRank_iff hr).mp h).eq_infinityRank_iff, units_largest, units_infinityRank, ← add_mul, ← mul_assoc,
    mul_le_mul_iff_of_pos_right (by positivity), hpow]
  constructor
  · intro hq
    linarith
  · intro hq
    linarith

/-- Numbers underflow up to the middle between zero and the smallest double. -/
theorem Nearest.magnitude_eq_zero_iff {negative : Bool} {q : ℚ} (h0 : 0 ≤ q) {x : Float} (h : Nearest negative q x) :
    magnitude x = 0 ↔ q ≤ 2 ^ (-1075 : ℤ) := by
  obtain ⟨r, hr, rfl⟩ := exists_ofRank h.number h.sign
  have hrank : magnitude (ofRank negative r) = 0 ↔ r = 0 := by
    rw [magnitude_eq h.number, rank_ofRank negative hr, div_eq_zero_iff, or_iff_left (by positivity), Nat.cast_eq_zero]
    constructor
    · intro hu
      exact units_strictMono.injective hu
    · rintro rfl
      rfl
  rw [hrank, ((nearest_ofRank_iff hr).mp h).eq_zero_iff (by positivity), ← half_of_smallest,
    mul_le_mul_iff_of_pos_right (by positivity)]

end ReversePolish.Double
