/-
  ReversePolish.Double.Text — the two ways a double is written.

  Both write the shortest decimal that reads back. `plain` is positional whatever the
  magnitude, and writes an integer without a point, so that a plain text holds digits,
  at most one point and at most one sign, and is a literal again. `exact` is for
  inspection: an integer keeps `.0`, so that it is seen to be a double, and numbers
  below 10^-4 or from 10^16 on are written with an exponent. Zero keeps its sign; NaN
  has none.
-/

import ReversePolish.Double.Shortest

namespace ReversePolish.Double

structure Layout where
  /-- An integer is written with `.0`. -/
  pointOnIntegers : Bool
  /--
  The least and the greatest number of digits before the point that are written out;
  beyond them an exponent is written. 0.01 has -1 digits before the point.
  -/
  positional : Option (Int × Int)

/-- Positional at every magnitude, integers without a point. -/
def Layout.plain : Layout := { pointOnIntegers := false, positional := none }

/-- Positional from 10^-4 up to 10^16, integers with `.0`. -/
def Layout.exact : Layout := { pointOnIntegers := true, positional := some (-3, 16) }

/-- `digits` with the point after the first `whole` of them, padded with zeros. -/
def positional (layout : Layout) (digits : List Char) (whole : Int) : List Char :=
  if whole ≤ 0 then
    '0' :: '.' :: (List.replicate (-whole).toNat '0' ++ digits)
  else if whole < digits.length then
    digits.take whole.toNat ++ '.' :: digits.drop whole.toNat
  else
    digits ++ List.replicate (whole.toNat - digits.length) '0' ++
      (if layout.pointOnIntegers then ['.', '0'] else [])

def scientific (digits : List Char) (whole : Int) : List Char :=
  digits.take 1 ++ (if digits.length ≤ 1 then [] else '.' :: digits.drop 1) ++
    'e' :: (toString (whole - 1)).toList

def Decimal.render (layout : Layout) (d : Decimal) : List Char :=
  let digits := Nat.toDigits 10 d.digits
  let whole := digits.length + d.exponent
  match layout.positional with
  | none => positional layout digits whole
  | some (least, greatest) =>
    if least ≤ whole ∧ whole ≤ greatest then positional layout digits whole
    else scientific digits whole

def renderChars (layout : Layout) (x : Float) : List Char :=
  if x.isNaN then ['N', 'a', 'N']
  else
    let bits := x.toBits.toNat
    let rank := bits % signBit
    let sign := if bits < signBit then [] else ['-']
    if rank = infinityRank then sign ++ ['i', 'n', 'f']
    else if rank = 0 then sign ++ positional layout ['0'] 1
    else sign ++ (shortest rank).render layout

/-- A double without exponent, as in `0.1`, `-0`, `100` and `inf`. -/
def plain (x : Float) : String := String.ofList (renderChars .plain x)

/-- A double for inspection, as in `0.1`, `-0.0`, `1e16` and `inf`. -/
def exact (x : Float) : String := String.ofList (renderChars .exact x)

end ReversePolish.Double
