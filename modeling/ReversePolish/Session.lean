/-
  ReversePolish.Session — a working session: symbols, cells and named slots.

  A slot holds an expression, a compiler, a routine, an interpreter or a call tree. A
  command either changes the symbols or the cells, fills a slot, or works with the
  thing in one. What was built keeps the loaders it was built with when the symbols
  change, and needs its compiler no more. A command that fails leaves its slot as it
  was. An evaluation answers the symbols it read, which are those read since the last
  such answer.
-/

import ReversePolish.Build
import ReversePolish.Session.Symbols

namespace ReversePolish

inductive Slot where
  | expression (e : Expression CellLoader)
  | compiler (c : Compiler)
  | routine (r : Routine CellLoader)
  | interpreter (m : Interpreter CellLoader)
  | tree (t : CallTree CellLoader)

structure Session where
  symbols : Symbols := {}
  cells : Cells := {}
  slots : Table Slot := {}

namespace Session

inductive Command where
  | define (name : String) (definition : Definition)
  | remove (name : String)
  | resolve (name : String)
  | size
  | setCell (name : String) (value : Float)
  | build (slot text : String) (config : Config) (resolve : Bool)
  | newCompiler (slot : String) (config : Config)
  | buildNative (slot compiler text : String) (resolve : Bool)
  | compile (slot compiler text : String) (resolve : Bool)
  | newInterpreter (slot text : String) (resolve : Bool)
  | newTree (slot text : String) (resolve : Bool)
  | copy (slot source : String)
  | drop (slot : String)
  | eval (slot : String)
  | setMemoization (slot : String) (enabled : Bool)
  | invalidate (slot : String)
  | describe (slot : String)
  | release (slot : String)

inductive Answer where
  | done
  | defined (previous : Option (Source CellLoader)) (size : Nat)
  | removed (source : Option (Source CellLoader)) (size : Nat)
  | resolved (source : Source CellLoader)
  | size (n : Nat)
  | built (e : Expression CellLoader)
  | compiler (limit : Option Nat)
  | compiled (r : Routine CellLoader)
  | interpreter (maxDepth : Nat)
  | tree (depth : Nat)
  | dropped (filled : Bool)
  | value (x : Float) (reads : List String)
  | memoization (previous now : Bool)
  | invalidated (memoized : Bool)
  | expression (e : Expression CellLoader)
  | routine (r : Routine CellLoader)
  | released (r : Routine CellLoader)
  | unresolved (e : ResolveError)
  | notBuilt (e : BuildError)
  | notCompiled (e : NativeError)
  | fault (f : Fault)
  /-- The slot is empty or holds something else. -/
  | noSlot

variable (s : Session)

def put (slot : String) (content : Slot) : Session :=
  { s with slots := s.slots.insert slot content }

/-- The session's resolver, unless none is wanted. -/
def resolver? (wanted : Bool) : Option (Resolver (Array String) CellLoader) :=
  if wanted then some s.symbols.resolver else none

def parse (text : String) (resolve : Bool) : Except BuildError (Program CellLoader) :=
  (Program.parse (s.resolver? resolve) text #[]).result

def answerValue (slot : String) {α : Type} (content : α → Slot) :
    Except Fault (Float × α × Cells) → Answer × Session
  | .error f => (.fault f, s)
  | .ok (x, thing, cells) =>
    let (reads, cells) := cells.takeReads
    (.value x reads, { s with cells }.put slot (content thing))

def evalSlot (slot : String) : Answer × Session :=
  match s.slots.get? slot with
  | some (.expression e) => s.answerValue slot .expression (e.eval Cells.read s.cells)
  | some (.routine r) => s.answerValue slot .routine (r.call Cells.read s.cells)
  | some (.interpreter m) => s.answerValue slot .interpreter (m.run Cells.read s.cells)
  | some (.tree t) =>
    s.answerValue slot .tree ((t.eval Cells.read s.cells).map fun (x, cells) => (x, t, cells))
  | _ => (.noSlot, s)

def buildNative (slot compiler text : String) (resolve : Bool) : Answer × Session :=
  match s.slots.get? compiler with
  | some (.compiler c) =>
    let (report, c) := c.build (s.resolver? resolve) text #[]
    let s := s.put compiler (.compiler c)
    match report.result with
    | .ok e => (.built e, s.put slot (.expression e))
    | .error e => (.notBuilt e, s)
  | _ => (.noSlot, s)

def compile (slot compiler text : String) (resolve : Bool) : Answer × Session :=
  match s.slots.get? compiler with
  | some (.compiler c) =>
    match s.parse text resolve with
    | .error e => (.notBuilt e, s)
    | .ok p =>
      let compilation := c.compile p
      let s := s.put compiler (.compiler compilation.compiler)
      match compilation.result with
      | .ok r => (.compiled r, s.put slot (.routine r))
      | .error e => (.notCompiled e, s)
  | _ => (.noSlot, s)

def run (target : Option Target) : Command → Answer × Session
  | .define name definition =>
    let (previous, symbols) := s.symbols.define name definition
    (.defined previous symbols.table.size, { s with symbols })
  | .remove name =>
    let (source, symbols) := s.symbols.remove name
    (.removed source symbols.table.size, { s with symbols })
  | .resolve name =>
    match s.symbols.resolve name with
    | .ok source => (.resolved source, s)
    | .error e => (.unresolved e, s)
  | .size => (.size s.symbols.table.size, s)
  | .setCell name value => (.done, { s with cells := s.cells.set name value })
  | .build slot text config resolve =>
    match (ReversePolish.build target config (s.resolver? resolve) text #[]).result with
    | .ok e => (.built e, s.put slot (.expression e))
    | .error e => (.notBuilt e, s)
  | .newCompiler slot config =>
    match Compiler.ofConfig target config with
    | .ok c => (.compiler config.codeLimit, s.put slot (.compiler c))
    | .error e => (.notCompiled e, s)
  | .buildNative slot compiler text resolve => s.buildNative slot compiler text resolve
  | .compile slot compiler text resolve => s.compile slot compiler text resolve
  | .newInterpreter slot text resolve =>
    match s.parse text resolve with
    | .ok p => (.interpreter p.maxDepth, s.put slot (.interpreter (.ofProgram p)))
    | .error e => (.notBuilt e, s)
  | .newTree slot text resolve =>
    match s.parse text resolve with
    | .error e => (.notBuilt e, s)
    | .ok p =>
      match CallTree.ofProgram p with
      | .ok t => (.tree t.depth, s.put slot (.tree t))
      | .error f => (.fault f, s)
  | .copy slot source =>
    match s.slots.get? source with
    | some (.interpreter m) => (.done, s.put slot (.interpreter m))
    | some (.tree t) => (.done, s.put slot (.tree t))
    | _ => (.noSlot, s)
  | .drop slot =>
    (.dropped (s.slots.contains slot), { s with slots := s.slots.erase slot })
  | .eval slot => s.evalSlot slot
  | .setMemoization slot enabled =>
    match s.slots.get? slot with
    | some (.expression e) =>
      let (previous, e) := e.setMemoization enabled
      (.memoization previous e.memoize, s.put slot (.expression e))
    | _ => (.noSlot, s)
  | .invalidate slot =>
    match s.slots.get? slot with
    | some (.expression e) =>
      let e := e.invalidate
      (.invalidated e.memoize, s.put slot (.expression e))
    | _ => (.noSlot, s)
  | .describe slot =>
    match s.slots.get? slot with
    | some (.expression e) => (.expression e, s)
    | some (.routine r) => (.routine r, s)
    | _ => (.noSlot, s)
  | .release slot =>
    match s.slots.get? slot with
    | some (.routine r) =>
      match r.release with
      | .ok (r, _) => (.released r, s.put slot (.routine r))
      | .error f => (.fault f, s)
    | _ => (.noSlot, s)

def runAll (target : Option Target) (s : Session) : List Command → List Answer × Session
  | [] => ([], s)
  | c :: rest =>
    let (answer, s) := s.run target c
    let (answers, s) := runAll target s rest
    (answer :: answers, s)

end Session

end ReversePolish
