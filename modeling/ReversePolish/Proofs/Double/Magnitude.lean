/-
  ReversePolish.Proofs.Double.Magnitude — what a double is worth.

  The magnitude of a double is read off its unpacked form: a mantissa times a power of
  two. An infinity stands for 2^1024, where the next double would be, since that is what
  it counts as when a number is rounded. Ranks are an index of the magnitudes: the
  double of a sign and a rank has this sign and this rank again (`rank_ofRank`), its magnitude
  is that of its units (`magnitude_eq`), and greater ranks have greater magnitudes
  (`units_strictMono`).
-/

import ReversePolish.Proofs.Double.Bits
import ReversePolish.Proofs.Double.Nearest

namespace ReversePolish.Double

open Float.Model (Format)
open Float.Model.UnpackedFloat

/-! ## Sign and rank -/

def isNegative (x : Float) : Bool := decide (signBit ≤ x.toBits.toNat)

theorem infinityRank_lt : infinityRank < signBit := by decide

theorem toBits_ofBits {a : UInt64} (h : Format.binary64.Valid a.toBitVec) : (Float.ofBits a).toBits = a :=
  UInt64.toBitVec_inj.mp (pack_unpack_of_valid h)

/-- Up to the rank of the infinity no bits are those of a NaN. -/
theorem valid_of_le {a : UInt64} (h : a.toNat % signBit ≤ infinityRank) : Format.binary64.Valid a.toBitVec := by
  refine ⟨fun he hm => absurd ?_ hm⟩
  have hexponent := toNat_unpackExponent a.toBitVec
  have hmantissa := toNat_unpackMantissa a.toBitVec
  have hfull : (@unpackExponent Format.binary64 a.toBitVec).toNat = 2047 := by rw [he]; rfl
  apply BitVec.eq_of_toNat_eq
  show (@unpackMantissa Format.binary64 a.toBitVec).toNat = 0
  rw [hfull, UInt64.toNat_toBitVec] at hexponent
  rw [hmantissa, UInt64.toNat_toBitVec]
  unfold infinityRank signBit at h
  unfold binade at *
  omega

theorem toNat_toBits_ofRank (negative : Bool) {r : Nat} (h : r ≤ infinityRank) :
    (ofRank negative r).toBits.toNat = if negative then signBit + r else r := by
  have hlt := infinityRank_lt
  have hbits : (if negative then signBit + r else r) < 2 ^ 64 := by
    unfold signBit at *
    split <;> omega
  have hnat : (UInt64.ofNat (if negative then signBit + r else r)).toNat = if negative then signBit + r else r :=
    UInt64.toNat_ofNat_of_lt' hbits
  have hvalid : Format.binary64.Valid (UInt64.ofNat (if negative then signBit + r else r)).toBitVec := by
    apply valid_of_le
    rw [hnat]
    unfold signBit at *
    split <;> omega
  rw [ofRank, toBits_ofBits hvalid, hnat]

theorem rank_ofRank (negative : Bool) {r : Nat} (h : r ≤ infinityRank) : rank (ofRank negative r) = r := by
  have hlt := infinityRank_lt
  rw [rank, toNat_toBits_ofRank negative h]
  unfold signBit at *
  split <;> omega

theorem isNegative_ofRank (negative : Bool) {r : Nat} (h : r ≤ infinityRank) :
    isNegative (ofRank negative r) = negative := by
  have hlt := infinityRank_lt
  rw [isNegative, toNat_toBits_ofRank negative h]
  cases negative with
  | true => simp
  | false => simpa using Nat.lt_of_le_of_lt h hlt

theorem isNaN_ofRank (negative : Bool) {r : Nat} (h : r ≤ infinityRank) : (ofRank negative r).isNaN = false := by
  have hr := rank_ofRank negative h
  cases hn : (ofRank negative r).isNaN with
  | false => rfl
  | true =>
    have hnan : rank nan = infinityRank + binade / 2 := by decide +kernel
    rw [eq_nan hn, hnan] at hr
    have : 0 < binade / 2 := by decide
    omega

/-- A double that is not NaN is one of a sign and a rank. -/
theorem exists_ofRank {x : Float} {negative : Bool} (h : x.isNaN = false) (hs : isNegative x = negative) :
    ∃ r ≤ infinityRank, x = ofRank negative r := by
  subst hs
  exact ⟨rank x, rank_le h, (ofRank_rank x).symm⟩

/-! ## Units -/

theorem units_eq (r : Nat) : units r = significand r * 2 ^ doublings r := Nat.shiftLeft_eq _ _

/-- A significand with its place; one that is carried into the next binade counts the same. -/
theorem units_of_place {k m : Nat} (hk : k = 0 ∨ binade ≤ m) (hm : m ≤ 2 * binade) :
    units (k * binade + m) = m * 2 ^ k := by
  rw [units_eq]
  rcases Nat.lt_or_eq_of_le hm with hlt | rfl
  · have hd : doublings (k * binade + m) = k := by
      unfold doublings binade at *
      omega
    have hs : significand (k * binade + m) = m := by
      unfold significand binade at *
      split <;> omega
    rw [hd, hs]
  · have hd : doublings (k * binade + 2 * binade) = k + 1 := by
      unfold doublings binade
      omega
    have hs : significand (k * binade + 2 * binade) = binade := by
      unfold significand binade
      split <;> omega
    rw [hd, hs, Nat.pow_succ]
    ring

theorem significand_place (r : Nat) : doublings r = 0 ∨ binade ≤ significand r := by
  rcases Nat.eq_zero_or_pos (doublings r) with h | h
  · exact Or.inl h
  · exact Or.inr (le_significand h)

/-- The next rank is one more in the last bit. -/
theorem units_succ (r : Nat) : units (r + 1) = (significand r + 1) * 2 ^ doublings r := by
  have hnext : r + 1 = doublings r * binade + (significand r + 1) := by
    have := rank_eq r
    omega
  have hplace : doublings r = 0 ∨ binade ≤ significand r + 1 := (significand_place r).imp_right Nat.le_succ_of_le
  rw [hnext, units_of_place hplace (significand_lt r)]

theorem units_strictMono : StrictMono units := by
  refine strictMono_nat_of_lt_succ fun r => ?_
  rw [units_succ, units_eq]
  exact Nat.mul_lt_mul_of_pos_right (Nat.lt_succ_self _) (Nat.two_pow_pos _)

/-! ## Magnitudes -/

/-- The value without the sign; that of an infinity is where the next double would be. -/
def unpackedMagnitude : Float.Model.UnpackedFloat → ℚ
  | .finite _ mantissa exponent _ => mantissa * 2 ^ exponent
  | .infinity _ => 2 ^ 1024
  | .zero _ | .notANumber => 0

def magnitude (x : Float) : ℚ := unpackedMagnitude x.toModel.unpack

/-- Units are counted in 2^-1074. -/
theorem units_of_place_div {k m : Nat} (hk : k = 0 ∨ binade ≤ m) (hm : m ≤ 2 * binade) :
    (units (k * binade + m) : ℚ) / 2 ^ 1074 = m * 2 ^ ((k : ℤ) - 1074) := by
  rw [units_of_place hk hm, zpow_sub₀ two_ne_zero, zpow_natCast, Nat.cast_mul, Nat.cast_pow, Nat.cast_ofNat,
    mul_div_assoc]
  rfl

theorem units_infinityRank : (units infinityRank : ℚ) = 2 ^ (1024 : ℤ) * 2 ^ 1074 := by
  have hplace := @units_of_place_div 2046 binade (Or.inr (Nat.le_refl _)) (by decide)
  have hrank : infinityRank = 2046 * binade + binade := by decide
  rw [div_eq_iff (by positivity), ← hrank] at hplace
  rw [hplace, binade_eq, Nat.cast_pow, Nat.cast_ofNat, ← zpow_natCast, ← zpow_add₀ two_ne_zero]
  rfl

section

variable {bits : BitVec Format.binary64.numBits}

theorem unpackMantissa_lt : (unpackMantissa bits).toNat < binade := by
  rw [toNat_unpackMantissa]
  exact Nat.mod_lt _ (by decide)

theorem unpackedMagnitude_infinity (hexponent : unpackExponent bits = -1#11) (hmantissa : unpackMantissa bits = 0#52) :
    unpackedMagnitude (unpack Format.binary64 bits) = units infinityRank / 2 ^ 1074 := by
  have hu : unpack Format.binary64 bits = .infinity (.ofBitVec (unpackSign bits)) := by
    simp [unpack, hexponent, hmantissa]
  rw [hu, units_infinityRank, mul_div_cancel_right₀ _ (by positivity), unpackedMagnitude]
  rfl

theorem unpackedMagnitude_subnormal (hexponent : unpackExponent bits = 0#11) :
    unpackedMagnitude (unpack Format.binary64 bits) = units (unpackMantissa bits).toNat / 2 ^ 1074 := by
  have hplace := @units_of_place_div 0 (unpackMantissa bits).toNat (Or.inl rfl)
    (Nat.le_of_lt (Nat.lt_of_lt_of_le unpackMantissa_lt (by omega)))
  rw [Nat.zero_mul, Nat.zero_add] at hplace
  rw [hplace]
  by_cases hmantissa : unpackMantissa bits = 0#52
  · have hu : unpack Format.binary64 bits = .zero (.ofBitVec (unpackSign bits)) := by
      simp [unpack, hexponent, hmantissa]
    rw [hu, unpackedMagnitude, hmantissa]
    simp
  · have hpos : 0 < (unpackMantissa bits).toNat := by
      simpa [BitVec.toNat_pos, BitVec.pos_iff_ne_zero] using hmantissa
    have hu : unpack Format.binary64 bits =
        .finite (.ofBitVec (unpackSign bits)) (unpackMantissa bits).toNat (-1074) hpos := by
      simp [unpack, hexponent, hmantissa, Format.exponentBias]
    rw [hu, unpackedMagnitude]
    rfl

theorem unpackedMagnitude_normal {k : Nat} (hfull : unpackExponent bits ≠ -1#11)
    (hexponent : (unpackExponent bits).toNat = k + 1) :
    unpackedMagnitude (unpack Format.binary64 bits) =
      units (k * binade + (binade + (unpackMantissa bits).toNat)) / 2 ^ 1074 := by
  have hlt := @unpackMantissa_lt bits
  have hzero : unpackExponent bits ≠ 0#11 := by
    intro h
    rw [h] at hexponent
    cases hexponent
  have hmantissa : (1#1 ++ unpackMantissa bits).toNat = binade + (unpackMantissa bits).toNat := by
    rw [BitVec.toNat_append, ← Nat.shiftLeft_add_eq_or_of_lt (unpackMantissa bits).isLt, Nat.shiftLeft_eq, binade_eq]
    rfl
  have hpos : 0 < binade + (unpackMantissa bits).toNat := by omega
  have hu : unpack Format.binary64 bits =
      .finite (.ofBitVec (unpackSign bits)) (binade + (unpackMantissa bits).toNat) (k - 1074) hpos := by
    simp only [unpack, if_neg hfull, if_neg hzero, hmantissa, hexponent, Format.exponentBias]
    congr 1
    show ((k + 1 : ℕ) : ℤ) - (1023 + 52) = k - 1074
    omega
  rw [hu, units_of_place_div (Or.inr (Nat.le_add_right _ _)) (by omega), unpackedMagnitude]

theorem unpackedMagnitude_unpack (h : (unpack Format.binary64 bits).isNaN = false) :
    unpackedMagnitude (unpack Format.binary64 bits) =
      units ((unpackExponent bits).toNat * binade + (unpackMantissa bits).toNat) / 2 ^ 1074 := by
  by_cases hfull : unpackExponent bits = -1#11
  · have hmantissa : unpackMantissa bits = 0#52 := by
      by_contra hne
      have hu : unpack Format.binary64 bits = .notANumber := by simp [unpack, hfull, hne]
      rw [hu] at h
      cases h
    have hrank : (unpackExponent bits).toNat * binade + (unpackMantissa bits).toNat = infinityRank := by
      rw [hfull, hmantissa]
      decide
    rw [unpackedMagnitude_infinity hfull hmantissa, hrank]
  · cases hexponent : (unpackExponent bits).toNat with
    | zero =>
      rw [unpackedMagnitude_subnormal (BitVec.eq_of_toNat_eq hexponent), Nat.zero_mul, Nat.zero_add]
    | succ k => rw [unpackedMagnitude_normal hfull hexponent, Nat.succ_mul, Nat.add_assoc]

end

theorem magnitude_eq {x : Float} (h : x.isNaN = false) : magnitude x = units (rank x) / 2 ^ 1074 := by
  have hrank : rank x = (@unpackExponent Format.binary64 x.toBits.toBitVec).toNat * binade +
      (@unpackMantissa Format.binary64 x.toBits.toBitVec).toNat := by
    rw [toNat_unpackExponent, toNat_unpackMantissa, UInt64.toNat_toBitVec, rank]
    unfold signBit binade
    omega
  rw [hrank]
  exact unpackedMagnitude_unpack h

/-- There is one infinity of each sign. -/
theorem eq_ofRank_of_isInf {x : Float} {negative : Bool} (h : x.isInf = true) (hs : isNegative x = negative) :
    x = ofRank negative infinityRank := by
  have hinf : x.toModel.unpack.isInf = true := h
  have hnan : x.isNaN = false := by
    show x.toModel.unpack.isNaN = false
    cases hu : x.toModel.unpack with
    | notANumber => rw [hu] at hinf; cases hinf
    | _ => rfl
  have hmagnitude : magnitude x = 2 ^ (1024 : ℤ) := by
    rw [magnitude]
    cases hu : x.toModel.unpack with
    | infinity s => rfl
    | _ => rw [hu] at hinf; cases hinf
  have hunits : (units (rank x) : ℚ) = units infinityRank := by
    rw [magnitude_eq hnan, div_eq_iff (by positivity)] at hmagnitude
    rw [hmagnitude, units_infinityRank]
  obtain ⟨r, hr, rfl⟩ := exists_ofRank hnan hs
  rw [rank_ofRank negative hr] at hunits
  have : r = infinityRank := units_strictMono.injective (by exact_mod_cast hunits)
  rw [this]

theorem isInf_ofRank (negative : Bool) : (ofRank negative infinityRank).isInf = true := by
  cases negative <;> decide +kernel

end ReversePolish.Double
