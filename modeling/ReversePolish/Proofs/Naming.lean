/-
  ReversePolish.Proofs.Naming — the name of a folded constant is a literal of its value.

  A constant that comes of folding has no token of its own and is named by the plain text of
  its value. Such a text begins with a digit, a minus, or the name of an infinity or of NaN,
  so it commits to no radix (`radix?_plain`). It is no operator and has no space in it, and it
  is read as just the double it was made from, the sign of zero included. So no two doubles
  have one name. There is no exponent in it, and its digits are the fewest of all decimals
  that are rounded to the double (`fewest_digits_plain`). `folded_names_read_back` puts this
  together.
-/

import ReversePolish.Proofs.Canonical
import ReversePolish.Proofs.Double.Brevity

namespace ReversePolish

namespace Double

open Literal

/-! ## What a plain text begins with -/

/-- What commits a token to a radix by standing at its beginning. -/
def radixMarks : List String := ["0x", "h", "b", "o"]

theorem isSome_radix?_of_mark {mark : String} (hm : mark ∈ radixMarks) {text : List Char} (h : mark.toList <+: text) :
    (radix? text).isSome = true := by
  obtain ⟨rest, rfl⟩ := h
  simp only [radixMarks, List.mem_cons, List.not_mem_nil, or_false] at hm
  rcases hm with rfl | rfl | rfl | rfl <;> rfl

theorem radix?_plain (x : Float) : radix? (plain x).toList = none := by
  rw [plain, String.toList_ofList, renderChars_plain]
  split
  · rfl
  · cases decide (signBit ≤ x.toBits.toNat) with
    | true => rfl
    | false =>
      rw [if_neg Bool.false_ne_true, List.nil_append]
      split
      · rfl
      · split
        · rfl
        · exact radix?_positional (positional_render _)

/-! ## Its digits -/

theorem no_exponent_plain (x : Float) : ∀ c ∈ (plain x).toList, c ≠ 'e' ∧ c ≠ 'E' := by
  have hletters : ∀ c ∈ ['.', '-', 'N', 'a', 'i', 'n', 'f'], c ≠ 'e' ∧ c ≠ 'E' := by simp
  intro c hc
  rcases chars_plain x c hc with h | h
  · refine ⟨?_, ?_⟩
    · intro he
      subst he
      exact absurd h (by decide)
    · intro he
      subst he
      exact absurd h (by decide)
  · exact hletters c h

/-- A decimal that is rounded to the double, with as few digits as any that is. -/
structure Fewest (x : Float) (d : Decimal) : Prop where
  rounded : Nearest (isNegative x) (d.digits * 10 ^ d.exponent) x
  fewest : ∀ (n : Nat) (e : ℤ), Nearest (isNegative x) (n * 10 ^ e) x →
    (Nat.toDigits 10 d.digits).length ≤ (Nat.toDigits 10 n).length

theorem ofRank_isNegative (x : Float) : ofRank (isNegative x) (rank x) = x := ofRank_rank x

theorem rank_lt_of_finite {x : Float} (hnan : x.isNaN = false) (hinf : x.isInf = false) : rank x < infinityRank := by
  refine lt_of_le_of_ne (rank_le hnan) ?_
  intro he
  have hx := ofRank_isNegative x
  rw [he] at hx
  rw [← hx, isInf_ofRank] at hinf
  cases hinf

theorem rank_pos_of_magnitude {x : Float} (hnan : x.isNaN = false) (h : magnitude x ≠ 0) : 0 < rank x := by
  rw [Nat.pos_iff_ne_zero]
  intro he
  refine h ?_
  rw [magnitude_eq hnan, he]
  norm_num [units, significand]

/-- What is written of a finite double that is not zero is a decimal with the fewest digits. -/
theorem fewest_digits_plain {x : Float} (hnan : x.isNaN = false) (hinf : x.isInf = false) (h : magnitude x ≠ 0) :
    ∃ d : Decimal, Fewest x d ∧ (plain x).toList = (if isNegative x then ['-'] else []) ++ d.render .plain := by
  have h0 := rank_pos_of_magnitude hnan h
  have hr := rank_lt_of_finite hnan hinf
  refine ⟨shortest (rank x), ⟨?_, ?_⟩, ?_⟩
  · have hnear := nearest_decimalRank (isNegative x) (shortest (rank x)).digits (shortest (rank x)).exponent
    rwa [decimalRank_eq h0 hr (shortest_roundsTo h0), ofRank_isNegative] at hnear
  · intro n e hn
    have hclosest : Nearest (isNegative x) (n * 10 ^ e) (ofRank (isNegative x) (rank x)) := by
      rwa [ofRank_isNegative]
    exact length_shortest_le h0 (roundsTo_of_closest h0 hr ((nearest_ofRank_iff hr.le).mp hclosest))
  · rw [plain, String.toList_ofList, renderChars_plain, hnan, if_neg Bool.false_ne_true, if_neg hr.ne, if_neg h0.ne']
    rfl

end Double

/-! ## The name of a constant -/

structure ConstantName (name : String) (x : Float) : Prop where
  space : ' ' ∉ name.toList
  operator : Operator.ofSymbol? name = none
  radix : ∀ mark ∈ Double.radixMarks, ¬mark.toList <+: name.toList
  value : Double.Literal.parse? name = some x
  exponent : ∀ c ∈ name.toList, c ≠ 'e' ∧ c ≠ 'E'
  digits : x.isNaN = false → x.isInf = false → Double.magnitude x ≠ 0 →
    ∃ d : Double.Decimal, Double.Fewest x d ∧
      name.toList = (if Double.isNegative x then ['-'] else []) ++ d.render .plain

theorem constantName_plain (x : Float) : ConstantName (Double.plain x) x where
  space h := Double.plain_no_space x ' ' h rfl
  operator := (rereads_plain (none : Option (Resolver Unit String)) x).value
  radix := by
    intro mark hm h
    have := Double.isSome_radix?_of_mark hm h
    rw [Double.radix?_plain] at this
    cases this
  value := Double.parse?_plain x
  exponent := Double.no_exponent_plain x
  digits := Double.fewest_digits_plain

/-- Folding names its constant by a literal of just its value, with the fewest digits; and no two doubles have one
    name. -/
theorem folded_names_read_back (ι : Type) :
    (∀ (a : Assembler ι) (x : Float) (rest : List (Option Float)), ∃ name,
      (a.fold x rest).operands = a.operands.pop.pop.push { name, source := .constant x } ∧ ConstantName name x ∧
      name = Double.plain x) ∧
    (∀ x, ConstantName (Double.plain x) x) ∧ Function.Injective Double.plain := by
  refine ⟨?_, constantName_plain, ?_⟩
  · intro a x rest
    exact ⟨Double.plain x, rfl, constantName_plain x, rfl⟩
  · intro x y h
    have hx := Double.parse?_plain x
    rw [h, Double.parse?_plain y] at hx
    exact (Option.some.inj hx).symm

/-- The smallest double has one digit, which 323 zeros and a point stand before. -/
example : Double.shortest 1 = { digits := 5, exponent := -324 } := by decide +kernel

end ReversePolish
