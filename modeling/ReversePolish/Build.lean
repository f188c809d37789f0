/-
  ReversePolish.Build — building an expression for the backend that a configuration
  chooses.

  The program is built first, so its errors come before any other. Then `auto` goes by
  the number of non-empty tokens: more than the threshold give an interpreter, fewer a
  call tree. Every program that was built has a call tree; one deeper than `maxTreeDepth`
  is replaced by an interpreter, with a warning if the tree had been asked for by name.
  Native code may be refused, and then nothing is built. A compiler made for one
  expression is forgotten after it; `Compiler.build` uses one for many.
-/

import ReversePolish.Expression
import ReversePolish.Native.Compiler
import ReversePolish.Program.Assembler

namespace ReversePolish

variable {τ ι : Type}

namespace Evaluator

/-- The call tree, unless it is too deep; `named` if it was asked for by name. -/
def treeOrFlat (p : Program ι) (named : Bool) : Evaluator ι × List Event :=
  match CallTree.ofProgram p with
  -- a program that was built never gets here (`CallTree.ofProgram_ofTerm`)
  | .error _ => (flat (.ofProgram p), [])
  | .ok t =>
    if t.depth ≤ maxTreeDepth then (tree t, [])
    else (flat (.ofProgram p), if named then [.treeTooDeep t.depth maxTreeDepth] else [])

def ofConfig (target : Option Target) (config : Config) (p : Program ι) (tokens : Nat) :
    Except NativeError (Evaluator ι) × List Event :=
  match config.choice with
  | .auto =>
    if config.flatThreshold < tokens then (.ok (flat (.ofProgram p)), [])
    else
      let (evaluator, events) := treeOrFlat p false
      (.ok evaluator, events)
  | .always .interpreter => (.ok (flat (.ofProgram p)), [])
  | .always .tree =>
    let (evaluator, events) := treeOrFlat p true
    (.ok evaluator, events)
  | .always .native =>
    match Compiler.ofConfig target config with
    | .error e => (.error e, [])
    | .ok compiler =>
      let compilation := compiler.compile p
      match compilation.result with
      | .error e => (.error e, compilation.events)
      | .ok routine => (.ok (native routine), compilation.events)

end Evaluator

def assemble (text : String) (choice : Choice) (tokens : Nat) (p : Program ι) (lookups : τ)
    (events : List Event) :
    Except NativeError (Evaluator ι) → Report τ (Expression ι)
  | .error e => { result := .error (.native e), lookups, events }
  | .ok evaluator =>
    { result := .ok { text, program := p, evaluator }
      lookups
      events := events ++ [.expressionBuilt choice evaluator.backend tokens] }

def build (target : Option Target) (config : Config) (resolver : Option (Resolver τ ι))
    (text : String) (lookups : τ) : Report τ (Expression ι) :=
  match Program.parse resolver text lookups with
  | { result := .error e, lookups, events } => { result := .error e, lookups, events }
  | { result := .ok p, lookups, events } =>
    let tokens := (tokenize text).length
    let (evaluator, more) := Evaluator.ofConfig target config p tokens
    assemble text config.choice tokens p lookups (events ++ more) evaluator

/-- Builds an expression as native code of a compiler that goes on being used. -/
def Compiler.build (c : Compiler) (resolver : Option (Resolver τ ι)) (text : String)
    (lookups : τ) : Report τ (Expression ι) × Compiler :=
  match Program.parse resolver text lookups with
  | { result := .error e, lookups, events } => ({ result := .error e, lookups, events }, c)
  | { result := .ok p, lookups, events } =>
    let tokens := (tokenize text).length
    let compilation := c.compile p
    let evaluator := compilation.result.map Evaluator.native
    (assemble text (.always .native) tokens p lookups (events ++ compilation.events) evaluator,
      compilation.compiler)

end ReversePolish
