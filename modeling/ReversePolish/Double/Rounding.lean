/-
  ReversePolish.Double.Rounding — the double nearest to an exact value.

  A non-negative double is named by its rank, the number of doubles between 0 and
  it: 0 has rank 0, the smallest positive double has rank 1, and the infinity comes
  after the largest finite one. The rank is the double's bit pattern without the
  sign. In units of 2^-1074, the smallest positive double, the value of every finite
  rank is a natural number (`units`), so an exact quotient of naturals is rounded
  without leaving them: `nearestRank` finds the binade of the quotient, divides by
  the spacing of the doubles there, and rounds to the nearest integer with a tie to
  the even one. A quotient that rounds up to the next binade carries into the
  exponent by itself, and one beyond the largest finite double has the rank of the
  infinity.
-/

namespace ReversePolish.Double

/-- The integer nearest to `num / den`; a half goes to the even one. -/
def divNearest (num den : Nat) : Nat :=
  let q := num / den
  let r := num % den
  if 2 * r < den then q
  else if den < 2 * r then q + 1
  else q + q % 2

/-- How many doubles there are in a binade, 2^52. -/
def binade : Nat := 0x10000000000000

def signBit : Nat := 0x8000000000000000

def infinityRank : Nat := 2047 * binade

/-- The significand of a finite rank, with the leading bit of a normal double. -/
def significand (rank : Nat) : Nat :=
  if rank < binade then rank else binade + rank % binade

/-- How many doublings above 2^-1074 the last bit of the significand stands. -/
def doublings (rank : Nat) : Nat := rank / binade - 1

/-- The value of a finite rank, in units of 2^-1074. -/
def units (rank : Nat) : Nat := significand rank <<< doublings rank

/-- The rank of the double nearest to `num / den`, ties to the even significand. -/
def nearestRank (num den : Nat) : Nat :=
  let num := num <<< 1074
  let shift := (num / den).log2 - 52
  min (shift * binade + divNearest num (den <<< shift)) infinityRank

def ofRank (negative : Bool) (rank : Nat) : Float :=
  Float.ofBits (UInt64.ofNat (if negative then signBit + rank else rank))

def nan : Float := Float.ofBits 0x7FF8000000000000

/-- The double nearest to an integer; zero is the positive one. -/
def ofInt (n : Int) : Float :=
  ofRank (n < 0) (nearestRank n.natAbs 1)

/--
The rank nearest to `significand · 10 ^ exponent`. Beyond the two bounds on the
exponent the value is above every finite double, or below half the smallest one, so
the powers that are computed stay in proportion to the text they come from.
-/
def decimalRank (significand : Nat) (exponent : Int) : Nat :=
  if significand = 0 then 0
  else if 400 < exponent then infinityRank
  else if exponent < -(significand.log2 + 400 : Nat) then 0
  else if exponent < 0 then nearestRank significand (Nat.pow 10 (-exponent).toNat)
  else nearestRank (significand * Nat.pow 10 exponent.toNat) 1

end ReversePolish.Double
