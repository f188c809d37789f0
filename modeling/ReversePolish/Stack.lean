/-
  ReversePolish.Stack — a stack of values with a fixed number of places.

  The places are there before the first value is pushed and stay when it is popped, so
  one stack serves many runs. `height` counts the values; a place at or above it holds
  whatever was left there, and is never read. Going beyond the last place and taking
  more values than there are, are faults.
-/

import ReversePolish.Fault

namespace ReversePolish

structure Stack where
  places : Array Float
  height : Nat := 0

namespace Stack

def ofSize (n : Nat) : Stack := { places := Array.replicate n 0 }

/-- No values, in the same places. -/
def clear (s : Stack) : Stack := { s with height := 0 }

/-- The values, the topmost first. -/
def values (s : Stack) : List Float := (s.places.toList.take s.height).reverse

def push (s : Stack) (x : Float) : Except Fault Stack :=
  if h : s.height < s.places.size then
    .ok { places := s.places.set s.height x, height := s.height + 1 }
  else .error .stackOverflow

/-- Replaces the two topmost values, the right operand on top, by one. -/
def combine (s : Stack) (f : Float → Float → Float) : Except Fault Stack :=
  if h : 2 ≤ s.height ∧ s.height ≤ s.places.size then
    let rhs := s.places[s.height - 1]
    let lhs := s.places[s.height - 2]
    .ok { places := s.places.set (s.height - 2) (f lhs rhs), height := s.height - 1 }
  else .error .stackUnderflow

def top (s : Stack) : Except Fault Float :=
  if h : 0 < s.height ∧ s.height ≤ s.places.size then .ok s.places[s.height - 1]
  else .error .resultMissing

end Stack

end ReversePolish
