/-
  ReversePolish.Proofs.Double.Bits — a double is its sign and its rank.

  The bits of a double are a sign, an exponent and a mantissa; exponent and mantissa
  together are the rank. All bits of the exponent are set in the infinities and in NaN
  alone, and there is one NaN (`eq_nan`). So a double that is not NaN has at most the
  rank of the infinity (`rank_le`), and every double is the one of its sign and its rank
  (`ofRank_rank`).
-/

import Mathlib
import ReversePolish.Double.Text

namespace ReversePolish.Double

open Float.Model (Format)
open Float.Model.UnpackedFloat

theorem toNat_unpackMantissa (b : BitVec Format.binary64.numBits) :
    (unpackMantissa b).toNat = b.toNat % binade := by
  simp [unpackMantissa, binade]

theorem toNat_unpackExponent (b : BitVec Format.binary64.numBits) :
    (unpackExponent b).toNat = b.toNat / binade % 2048 := by
  simp [unpackExponent, binade, Nat.shiftRight_eq_div_pow]

/-- There is one NaN. -/
theorem eq_nan {x : Float} (h : x.isNaN = true) : x = nan := by
  rw [Float.isNaN_eq_decide_eq_nan, decide_eq_true_eq] at h
  rw [h]
  decide +kernel

/-- The rank of a double: its bits without the sign. -/
def rank (x : Float) : Nat := x.toBits.toNat % signBit

theorem rank_le {x : Float} (h : x.isNaN = false) : rank x ≤ infinityRank := by
  have he := toNat_unpackExponent x.toBits.toBitVec
  have hm := toNat_unpackMantissa x.toBits.toBitVec
  rw [UInt64.toNat_toBitVec, binade] at he hm
  apply Nat.le_of_not_lt
  intro hlt
  rw [rank, infinityRank, signBit, binade] at hlt
  have hexponent : @unpackExponent Format.binary64 x.toBits.toBitVec = -1#11 := by
    apply BitVec.eq_of_toNat_eq
    show (@unpackExponent Format.binary64 x.toBits.toBitVec).toNat = 2047
    omega
  have hmantissa : @unpackMantissa Format.binary64 x.toBits.toBitVec ≠ 0#52 := by
    intro h0
    have : (@unpackMantissa Format.binary64 x.toBits.toBitVec).toNat = 0 := by
      rw [h0]
      rfl
    omega
  have hbits := x.toModel.valid.eq_packedNaN hexponent hmantissa
  have hnan := (isNaN_unpack_iff_of_valid x.toModel.valid).mpr hbits
  exact absurd (h.symm.trans hnan) Bool.false_ne_true

/-- The sign and the rank are all bits. -/
theorem ofRank_rank (x : Float) : ofRank (decide (signBit ≤ x.toBits.toNat)) (rank x) = x := by
  have hlt := x.toBits.toNat_lt
  have hbits : (if decide (signBit ≤ x.toBits.toNat) = true then signBit + rank x else rank x) = x.toBits.toNat := by
    by_cases hneg : signBit ≤ x.toBits.toNat
    · rw [if_pos (decide_eq_true hneg), rank]
      unfold signBit at *
      omega
    · rw [if_neg (by simpa using hneg), rank]
      exact Nat.mod_eq_of_lt (Nat.lt_of_not_le hneg)
  rw [ofRank, hbits, UInt64.ofNat_toNat, Float.ofBits_toBits]

end ReversePolish.Double
