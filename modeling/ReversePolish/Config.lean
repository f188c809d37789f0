/-
  ReversePolish.Config — which backend evaluates an expression, and how it is tuned.

  A backend is one of three evaluators of the same program. The choice is either one of
  them or `auto`, which goes by the number of tokens: more than `flatThreshold` of them
  go to the interpreter, fewer to the call tree. A call tree is never evaluated deeper
  than `maxTreeDepth`, whatever was chosen. The optimization level and the code limit
  concern native code alone; without a limit the host's page size is the limit.
-/

namespace ReversePolish

inductive Backend where
  | interpreter
  | tree
  | native
  deriving DecidableEq, Repr

namespace Backend

def word : Backend → String
  | interpreter => "interpreter"
  | tree => "tree"
  | native => "jit"

/-- The word shown when a structure is inspected. -/
def label : Backend → String
  | interpreter => "Interpreter"
  | tree => "CallTree"
  | native => "Jit"

end Backend

inductive Choice where
  | auto
  | always (backend : Backend)
  deriving DecidableEq, Repr

namespace Choice

def ofWord? : String → Option Choice
  | "auto" => some auto
  | "interpreter" | "flat" => some (always .interpreter)
  | "tree" | "calltree" => some (always .tree)
  | "jit" => some (always .native)
  | _ => none

def label : Choice → String
  | auto => "Auto"
  | always backend => backend.label

end Choice

/-- How hard the generator of native code tries. -/
inductive OptLevel where
  | none
  | speed
  | speedAndSize
  deriving DecidableEq, Repr

namespace OptLevel

def word : OptLevel → String
  | none => "none"
  | speed => "speed"
  | speedAndSize => "speed_and_size"

def label : OptLevel → String
  | none => "None"
  | speed => "Speed"
  | speedAndSize => "SpeedAndSize"

def ofWord? : String → Option OptLevel
  | "none" => some none
  | "speed" => some speed
  | "speed_and_size" => some speedAndSize
  | _ => Option.none

end OptLevel

/-- More tokens than this go to the interpreter, unless the configuration says otherwise. -/
def defaultFlatThreshold : Nat := 20

def maxTreeDepth : Nat := 256

structure Config where
  choice : Choice := .auto
  flatThreshold : Nat := defaultFlatThreshold
  optLevel : OptLevel := .speed
  /-- The most bytes of native code; `none` stands for a page of the host. -/
  codeLimit : Option Nat := none
  deriving DecidableEq, Repr

namespace Config

def interpreterOnly : Config := { choice := .always .interpreter }

def native : Config := { choice := .always .native }

def inspect (c : Config) : String :=
  let limit :=
    match c.codeLimit with
    | none => "None"
    | some limit => "Some(" ++ toString limit ++ ")"
  "EngineConfig \x7b backend: " ++ c.choice.label ++
    ", flat_threshold: " ++ toString c.flatThreshold ++
    ", jit_opt_level: " ++ c.optLevel.label ++
    ", jit_code_limit: " ++ limit ++ " \x7d"

end Config

end ReversePolish
