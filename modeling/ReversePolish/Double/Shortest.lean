/-
  ReversePolish.Double.Shortest — the shortest decimal that reads back as a double.

  The reals that round to a finite double form an interval around it: it ends half
  way to the two neighbours, and holds its ends when the significand is even (a tie
  goes there). Above a power of two the lower neighbour is only half as far, so the
  interval is measured in quarters of the last significant bit. Decimals with one
  exponent form a grid; the coarsest grid that has a point in the interval gives the
  fewest digits, of its points there the one nearest to the double is taken, and of
  two equally near the larger.

  A double m · 2^e with e < 0 is m · 5^-e · 10^e, so on the finest grid of interest the
  double and both ends of its interval are natural numbers (`onGrid`), and the search
  over coarser grids is division by powers of ten. On the finest grid the double is a
  point itself, so the search never fails.
-/

import ReversePolish.Double.Rounding

namespace ReversePolish.Double

/-- The number `digits · 10 ^ exponent`. -/
structure Decimal where
  digits : Nat
  exponent : Int
  deriving DecidableEq, Repr

/-- The binary exponent of a quarter of the last significant bit. -/
def quarterExponent (rank : Nat) : Int := (doublings rank : Int) - 1076

/-- `n` quarters as a natural number times `10 ^ min 0 (quarterExponent rank)`. -/
def onGrid (rank n : Nat) : Nat :=
  let e := quarterExponent rank
  if e < 0 then n * Nat.pow 5 (-e).toNat else n <<< e.toNat

/-- The reals that round to a double, with the double itself, on its finest grid. -/
structure Interval where
  low : Nat
  middle : Nat
  high : Nat
  closed : Bool

def Interval.ofRank (rank : Nat) : Interval :=
  let m := significand rank
  let below := if m = binade ∧ 1 < rank / binade then 1 else 2
  { low := onGrid rank (4 * m - below)
    middle := onGrid rank (4 * m)
    high := onGrid rank (4 * m + 2)
    closed := m % 2 = 0 }

def Interval.holds (i : Interval) (n : Nat) : Bool :=
  if i.closed then i.low ≤ n && n ≤ i.high else i.low < n && n < i.high

/-- The multiple of `step` in the interval that is nearest to the middle, in steps. -/
def Interval.multiple? (i : Interval) (step : Nat) : Option Nat :=
  let below := i.middle / step
  match i.holds (below * step), i.holds ((below + 1) * step) with
  | true, true => if 2 * i.middle < (2 * below + 1) * step then some below else some (below + 1)
  | true, false => some below
  | false, true => some (below + 1)
  | false, false => none

/-- The first hit on the grids `10^k`, `10^(k-1)`, …, `1`, with the grid's exponent. -/
def Interval.coarsest (i : Interval) : Nat → Nat × Nat
  | 0 => (i.middle, 0)
  | k + 1 =>
    match i.multiple? (Nat.pow 10 (k + 1)) with
    | some n => (n, k + 1)
    | none => i.coarsest k

/-- An exponent whose power of ten exceeds the interval: 2^93 is less than 10^28. -/
def Interval.start (i : Interval) : Nat := 28 * (i.high.log2 + 1) / 93 + 1

/-- The shortest decimal that rounds to a finite non-zero rank. -/
def shortest (rank : Nat) : Decimal :=
  let i := Interval.ofRank rank
  let (digits, exponent) := i.coarsest i.start
  { digits, exponent := exponent + min 0 (quarterExponent rank) }

end ReversePolish.Double
