/-
  ReversePolish.Native.Code — native code for a program.

  The code of a program is one native instruction for each of its own: a load of the
  next operand onto a scratch stack, or one of the four arithmetic operations on the
  two topmost values. `lower` refuses the operators that have no such instruction. The
  code goes through the values of all operands, which are there before it runs, so
  where they come from and in which order they were read is no matter of the code.
-/

import ReversePolish.Error
import ReversePolish.Stack

namespace ReversePolish

inductive NativeOp where
  | load
  | add
  | sub
  | mul
  | div
  deriving DecidableEq, Repr

namespace NativeOp

def lower : Instruction → Except NativeError NativeOp
  | .fetch => .ok load
  | .apply .add => .ok add
  | .apply .sub => .ok sub
  | .apply .mul => .ok mul
  | .apply .div => .ok div
  | .apply o => .error (.unsupported o)

def lowerAll : List Instruction → Except NativeError (List NativeOp)
  | [] => .ok []
  | i :: rest =>
    match lower i with
    | .error e => .error e
    | .ok op => (lowerAll rest).map (op :: ·)

structure Registers where
  scratch : Stack
  loaded : Nat := 0

def step (values : Array Float) (r : Registers) (op : NativeOp) : Except Fault Registers :=
  let combine (f : Float → Float → Float) : Except Fault Registers :=
    (r.scratch.combine f).map fun scratch => { r with scratch }
  match op with
  | load =>
    match values[r.loaded]? with
    | none => .error .operandMissing
    | some x => (r.scratch.push x).map fun scratch => { scratch, loaded := r.loaded + 1 }
  | add => combine (· + ·)
  | sub => combine (· - ·)
  | mul => combine (· * ·)
  | div => combine (· / ·)

def steps (values : Array Float) : List NativeOp → Registers → Except Fault Registers
  | [], r => .ok r
  | op :: rest, r =>
    match step values r op with
    | .ok r => steps values rest r
    | .error e => .error e

def run (code : List NativeOp) (values : Array Float) (scratch : Stack) :
    Except Fault (Float × Stack) :=
  match steps values code { scratch := scratch.clear } with
  | .error e => .error e
  | .ok r => r.scratch.top.map fun x => (x, r.scratch)

end NativeOp

end ReversePolish
