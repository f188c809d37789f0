/-
  ReversePolish.Operator — the six binary operators and the instructions made of them.

  An operator takes the value below the top of the stack as its left operand and the top
  as its right one. Arithmetic is that of doubles, so nothing fails: a division by zero
  or an overflow gives an infinity or NaN. `if` is the right operand when the left one is
  greater than zero and 0 otherwise, so NaN counts as false. An instruction is an
  operator or `fetch`, which pushes the next operand of the program and is written `#`.
  Native code has single instructions for the four arithmetic operators alone.
-/

import ReversePolish.Fault

namespace ReversePolish

inductive Operator where
  | add
  | sub
  | mul
  | div
  | pow
  | cond
  deriving DecidableEq, Repr

namespace Operator

def all : List Operator := [add, sub, mul, div, pow, cond]

def symbol : Operator → String
  | add => "+"
  | sub => "-"
  | mul => "*"
  | div => "/"
  | pow => "^"
  | cond => "if"

def ofSymbol? : String → Option Operator
  | "+" => some add
  | "-" => some sub
  | "*" => some mul
  | "/" => some div
  | "^" => some pow
  | "if" => some cond
  | _ => none

def apply : Operator → Float → Float → Float
  | add, x, y => x + y
  | sub, x, y => x - y
  | mul, x, y => x * y
  | div, x, y => x / y
  | pow, x, y => x ^ y
  | cond, x, y => if 0 < x then y else 0

def isNative : Operator → Bool
  | add | sub | mul | div => true
  | pow | cond => false

@[simp] theorem ofSymbol?_symbol (o : Operator) : ofSymbol? o.symbol = some o := by
  cases o <;> rfl

end Operator

inductive Instruction where
  /-- Push the next operand. -/
  | fetch
  /-- Replace the two topmost values by the operator's value. -/
  | apply (o : Operator)
  deriving DecidableEq, Repr

namespace Instruction

def all : List Instruction := fetch :: Operator.all.map apply

def symbol : Instruction → String
  | fetch => "#"
  | apply o => o.symbol

def code (i : Instruction) : Nat := all.idxOf i

def isBinary : Instruction → Bool
  | fetch => false
  | apply _ => true

def isNative : Instruction → Bool
  | fetch => true
  | apply o => o.isNative

def combine : Instruction → Float → Float → Except Fault Float
  | fetch, _, _ => .error .fetchApplied
  | apply o, x, y => .ok (o.apply x y)

end Instruction

end ReversePolish
