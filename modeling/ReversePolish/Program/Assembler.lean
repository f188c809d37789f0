/-
  ReversePolish.Program.Assembler — from tokens to a program, folding constants.

  An assembler takes one token at a time. A value token is emitted at once as a `fetch`
  with its operand. `pending` has one entry for every value that the emitted
  instructions would leave on the evaluation stack, and knows which of them are
  constants: an entry is a constant exactly if it stands for a single `fetch` of one. So
  when both entries an operator takes are constants, the last two instructions are the
  two fetches; they are taken back and one fetch of the operator's value is emitted
  in their place. A folded operand is named by the plain text of its value.

  An operator that finds fewer than two entries is refused, and so is a value token that
  has no source; a refused token leaves the assembler as it was, and it may be used on.
  An expression is assembled from its tokens, until one is refused.
-/

import ReversePolish.Double.Text
import ReversePolish.Program
import ReversePolish.Token

namespace ReversePolish

structure Assembler (ι : Type) where
  ops : Array Instruction := #[]
  operands : Array (Operand ι) := #[]
  /-- The construction stack, its top first; a constant entry holds its value. -/
  pending : List (Option Float) := []
  /-- How many tokens were taken. -/
  position : Nat := 0
  folded : Nat := 0
  deriving DecidableEq

namespace Assembler

variable {τ ι : Type}

def pushValue (a : Assembler ι) (name : String) (source : Source ι) : Assembler ι :=
  { a with
    ops := a.ops.push .fetch
    operands := a.operands.push { name, source }
    pending := source.constant? :: a.pending
    position := a.position + 1 }

/-- Takes the last two fetches back and emits one of the value in their place. -/
def fold (a : Assembler ι) (value : Float) (rest : List (Option Float)) : Assembler ι :=
  { ops := a.ops.pop.pop.push .fetch
    operands := a.operands.pop.pop.push { name := Double.plain value, source := .constant value }
    pending := some value :: rest
    position := a.position + 1
    folded := a.folded + 1 }

def pushOperator (a : Assembler ι) (o : Operator) (token : String) :
    Except BuildError Unit × Assembler ι × List Event :=
  match a.pending with
  -- a constant entry is a single fetch, so the last two instructions are those of the operands
  | some rhs :: some lhs :: rest =>
    let value := o.apply lhs rhs
    (.ok (), a.fold value rest, [.operationFolded o lhs rhs value])
  | _ :: _ :: rest =>
    (.ok (),
      { a with
        ops := a.ops.push (.apply o)
        pending := none :: rest
        position := a.position + 1 },
      [])
  | few => (.error (.malformed a.position token few.length), a, [])

def push (resolver : Option (Resolver τ ι)) (token : String) (a : Assembler ι) (lookups : τ) :
    Report τ Unit × Assembler ι :=
  match Operator.ofSymbol? token with
  | some o =>
    let (result, a, events) := a.pushOperator o token
    ({ result, lookups, events }, a)
  | none =>
    match readValue resolver token lookups with
    | { result := .ok source, lookups, events } =>
      ({ result := .ok (), lookups, events }, a.pushValue token source)
    | { result := .error e, lookups, events } => ({ result := .error e, lookups, events }, a)

/-- Takes tokens until one is refused; `log` are the events reported before. -/
def pushAll (resolver : Option (Resolver τ ι)) :
    List String → Assembler ι → τ → Array Event → Report τ (Assembler ι)
  | [], a, lookups, log => { result := .ok a, lookups, events := log.toList }
  | token :: rest, a, lookups, log =>
    match a.push resolver token lookups with
    | ({ result := .ok (), lookups, events }, a) =>
      pushAll resolver rest a lookups (log ++ events)
    | ({ result := .error e, lookups, events }, _) =>
      { result := .error e, lookups, events := (log ++ events).toList }

def finish (a : Assembler ι) : Except BuildError (Program ι) :=
  match a.pending with
  | [] => .error .empty
  | [_] => .ok (.ofParts a.ops a.operands a.folded)
  | many => .error (.unbalanced many.length)

end Assembler

def Program.parse {τ ι : Type} (resolver : Option (Resolver τ ι)) (expression : String)
    (lookups : τ) : Report τ (Program ι) :=
  match Assembler.pushAll resolver (tokenize expression) {} lookups #[] with
  | { result := .ok a, lookups, events } =>
    match a.finish with
    | .ok p => { result := .ok p, lookups, events := events ++ [p.builtEvent] }
    | .error e => { result := .error e, lookups, events }
  | { result := .error e, lookups, events } => { result := .error e, lookups, events }

end ReversePolish
