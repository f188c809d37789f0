/-
  ReversePolish.Event — what a build reports about itself.

  An event belongs to one of three targets: the program (a symbol resolved, constants
  folded, the program built), native code (code generated, accepted or too large, its
  region released) or the dispatch (a tree too deep, the expression built). Each has a
  severity, a message and named fields. The intermediate code and its size depend on the
  generator of native code, so their fields are left blank.
-/

import ReversePolish.Config
import ReversePolish.Operator

namespace ReversePolish

inductive Severity where
  | trace
  | debug
  | warn
  deriving DecidableEq, Repr

def Severity.word : Severity → String
  | trace => "TRACE"
  | debug => "DEBUG"
  | warn => "WARN"

inductive Event where
  | symbolResolved (symbol : String) (constant : Bool)
  | operationFolded (o : Operator) (lhs rhs value : Float)
  | programBuilt (ops operands folded maxDepth : Nat)
  /-- Intermediate code was generated. -/
  | codeGenerated
  | codeTooLarge (size limit : Nat)
  | codeAccepted (function : String) (size ops : Nat)
  | regionReleased
  | treeTooDeep (depth limit : Nat)
  | expressionBuilt (choice : Choice) (backend : Backend) (tokens : Nat)
  deriving DecidableEq

inductive FieldValue where
  | number (n : Nat)
  | double (x : Float)
  | flag (b : Bool)
  | text (s : String)
  /-- A value that depends on the generator of native code. -/
  | blank

namespace Event

def severity : Event → Severity
  | symbolResolved .. | operationFolded .. | codeGenerated | regionReleased => .trace
  | programBuilt .. | codeTooLarge .. | codeAccepted .. | expressionBuilt .. => .debug
  | treeTooDeep .. => .warn

def target : Event → String
  | symbolResolved .. | operationFolded .. | programBuilt .. => "rpnjit::program"
  | codeGenerated | codeTooLarge .. | codeAccepted .. | regionReleased => "rpnjit::jit"
  | treeTooDeep .. | expressionBuilt .. => "rpnjit::dispatch"

def message : Event → String
  | symbolResolved .. => "resolved symbol"
  | operationFolded .. => "folded constant operation"
  | programBuilt .. => "built program"
  | codeGenerated => "generated IR"
  | codeTooLarge .. => "generated code too large"
  | codeAccepted .. => "compiled program to native code"
  | regionReleased => "released executable region"
  | treeTooDeep .. => "call tree too deep, using flat interpreter"
  | expressionBuilt .. => "built expression"

def fields : Event → List (String × FieldValue)
  | symbolResolved symbol constant => [("symbol", .text symbol), ("constant", .flag constant)]
  | operationFolded o lhs rhs value =>
    [("op", .text o.symbol), ("lhs", .double lhs), ("rhs", .double rhs), ("value", .double value)]
  | programBuilt ops operands folded maxDepth =>
    [("ops", .number ops), ("operands", .number operands), ("folded", .number folded),
      ("max_depth", .number maxDepth)]
  | codeGenerated => [("ir", .blank)]
  | codeTooLarge _ limit => [("size", .blank), ("limit", .number limit)]
  | codeAccepted function _ ops =>
    [("function", .text function), ("size", .blank), ("ops", .number ops)]
  | regionReleased => []
  | treeTooDeep depth limit => [("depth", .number depth), ("limit", .number limit)]
  | expressionBuilt choice backend tokens =>
    [("choice", .text choice.label), ("backend", .text backend.word), ("tokens", .number tokens)]

end Event

end ReversePolish
