/-
  ReversePolish.CommandLine — the command line, as a function of its arguments.

  The symbols are the bindings given, a later one of a name in place of an earlier one.
  The expression is built with them, shown if that is asked for, and evaluated as often
  as it is asked for but at least once; the last value is printed. An expression that is
  not built is reported, with code 1; arguments that are not accepted are reported with
  code 2, in a text that holds control sequences no more.
-/

import ReversePolish.Build
import ReversePolish.CommandLine.Arguments
import ReversePolish.Program.Text
import ReversePolish.Table

namespace ReversePolish.CommandLine

structure Outcome where
  code : UInt32 := 0
  stdout : String := ""
  stderr : String := ""
  deriving DecidableEq, Repr

def versionText : String := "rpnjit 0.2.0\n"

def helpText : String :=
  "Build and evaluate Reverse Polish Notation expressions\n\n" ++
  "Usage: rpnjit [OPTIONS] <EXPRESSION>\n\n" ++
  "Arguments:\n" ++
  "  <EXPRESSION>  Expression, e.g. \"y x0 x1 + *\"\n\n" ++
  "Options:\n" ++
  "      --var <NAME=VALUE>                 " ++
    "Bind a symbol to a constant (repeatable), e.g. --var x=0x10\n" ++
  "      --backend <BACKEND>                " ++
    "Evaluation backend: auto, interpreter, tree or jit [default: auto]\n" ++
  "      --repeat <REPEAT>                  Evaluate this many times [default: 1]\n" ++
  "      --memoize                          Cache the first result\n" ++
  "      --show-program                     Print the folded program before evaluating\n" ++
  "      --flat-threshold <FLAT_THRESHOLD>  " ++
    "Token count above which `auto` uses the flat interpreter\n" ++
  "  -h, --help                             Print help\n" ++
  "  -V, --version                          Print version\n"

def Stop.outcome : Stop → Outcome
  | help => { stdout := helpText }
  | version => { stdout := versionText }
  | refused e =>
    { code := 2
      stderr := Text.withoutControl
        (Text.emphasized "error:" ++ " " ++ e.message ++ "\n\nFor more information, try '" ++
          Text.emphasized "--help" ++ "'.\n") }

def resolver (bindings : List (String × Float)) : Resolver Unit Empty :=
  let table := Table.ofList bindings
  .ofFunction fun name =>
    match table.get? name with
    | some x => .ok (.constant x)
    | none => .error (.unknown name)

def Options.config (o : Options) : Config :=
  { choice := o.choice.getD .auto
    flatThreshold := o.flatThreshold.getD defaultFlatThreshold }

def shown (e : Expression Empty) : String :=
  "[Program] " ++ e.program.text ++ " (" ++ e.backend.word ++ ")\n" ++
    "[Infix]   " ++ e.program.parenthesized ++ "\n"

def noReader : Reader Empty Unit := nofun

/-- The last of `n + 1` values. -/
def evalAgain (e : Expression Empty) : Nat → Except Fault Float
  | 0 => (e.eval noReader ()).map (·.1)
  | n + 1 =>
    match e.eval noReader () with
    | .error f => .error f
    | .ok (_, e, _) => evalAgain e n

def evaluate (target : Option Target) (text : String) (o : Options) : Outcome :=
  match (build target o.config (some (resolver o.bindings.toList)) text ()).result with
  | .error e => { code := 1, stderr := "Error: " ++ e.message ++ "\n" }
  | .ok e =>
    let stderr := if o.showProgram then shown e else ""
    let (_, e) := e.setMemoization o.memoize
    match evalAgain e (o.repetitions.getD 1 - 1) with
    | .error f => { code := 101, stderr := stderr ++ f.message ++ "\n" }
    | .ok x => { stdout := Double.plain x ++ "\n", stderr }

def run (target : Option Target) (arguments : List String) : Outcome :=
  match readArguments arguments with
  | .error stop => stop.outcome
  | .ok (text, o) => evaluate target text o

end ReversePolish.CommandLine
