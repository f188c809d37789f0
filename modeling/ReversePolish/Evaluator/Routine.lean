/-
  ReversePolish.Evaluator.Routine — native code together with all that it touches.

  A routine owns the memory its code lives in, the values of all operands, the scratch
  stack and the loaders of the dynamic operands. Constants are written among the values
  once, when the routine is made. A call first reads every loader, in the order of the
  operands, and writes its value in its place; then the code runs.

  The memory is a region: it is live from the moment it is opened until it is freed, by
  an explicit release or, if there was none, when its owner is dropped. Freeing is the
  one event here, so the events count the regions freed. A second release is a fault that
  changes nothing, and a call after the release is a fault that reads nothing.
-/

import ReversePolish.Native.Code
import ReversePolish.Program

namespace ReversePolish

/-! ## Executable memory -/

inductive Region where
  | live
  | released
  deriving DecidableEq, Repr

namespace Region

def isReleased : Region → Bool
  | live => false
  | released => true

def release : Region → Except Fault (Region × List Event)
  | live => .ok (released, [.regionReleased])
  | released => .error .releasedTwice

def drop : Region → List Event
  | live => [.regionReleased]
  | released => []

end Region

/-! ## Routines -/

structure Routine (ι : Type) where
  region : Region
  code : List NativeOp
  /-- The size of the code in bytes. -/
  codeSize : Nat
  values : Array Float
  scratch : Stack
  /-- The places of the dynamic operands among the values, with their loaders. -/
  dynamic : List (Nat × ι)

namespace Routine

variable {ι σ : Type}

/-- The dynamic operands with their places, which count from `slot`. -/
def dynamicFrom (slot : Nat) : List (Operand ι) → List (Nat × ι)
  | [] => []
  | operand :: rest =>
    match operand.source with
    | .constant _ => dynamicFrom (slot + 1) rest
    | .dynamic loader => (slot, loader) :: dynamicFrom (slot + 1) rest

def ofProgram (p : Program ι) (region : Region) (code : List NativeOp) (codeSize : Nat) :
    Routine ι :=
  { region, code, codeSize
    values := p.operands.map fun operand => operand.source.constant?.getD 0
    scratch := .ofSize p.maxDepth
    dynamic := dynamicFrom 0 p.operands.toList }

/-- Reads the loaders in order and writes what they give in its place. -/
def refresh (read : Reader ι σ) :
    List (Nat × ι) → Array Float → σ → Except Fault (Array Float × σ)
  | [], values, outside => .ok (values, outside)
  | (slot, loader) :: rest, values, outside =>
    let (x, outside) := read loader outside
    if h : slot < values.size then refresh read rest (values.set slot x) outside
    else .error .operandMissing

def call (read : Reader ι σ) (r : Routine ι) (outside : σ) :
    Except Fault (Float × Routine ι × σ) :=
  if r.region.isReleased then .error .calledAfterRelease
  else
    match refresh read r.dynamic r.values outside with
    | .error e => .error e
    | .ok (values, outside) =>
      match NativeOp.run r.code values r.scratch with
      | .error e => .error e
      | .ok (x, scratch) => .ok (x, { r with values, scratch }, outside)

def release (r : Routine ι) : Except Fault (Routine ι × List Event) :=
  match r.region.release with
  | .error e => .error e
  | .ok (region, events) => .ok ({ r with region }, events)

def drop (r : Routine ι) : List Event := r.region.drop

/-- The routine as shown when it is inspected; the size of its code is left blank. -/
def inspect (r : Routine ι) : String :=
  "JitRoutine \x7b code_size: _, slots: " ++ toString r.values.size ++
    ", dynamic: " ++ toString r.dynamic.length ++
    ", released: " ++ toString r.region.isReleased ++ " \x7d"

end Routine

end ReversePolish
