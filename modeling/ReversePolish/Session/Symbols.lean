/-
  ReversePolish.Session.Symbols — symbols over shared cells.

  A symbol is defined as a constant, as a reading of a cell, or as failing with a reason.
  Cells are shared by all symbols that read them; a cell that was never set is 0. A
  reading may step its cell: it gives the value before and adds the step after. A
  failing symbol fails whatever the table holds for it; defining it anew in any other
  way lifts the failure, removing it from the table does not. The cells keep the names of
  the symbols that were read, in order, and the resolver keeps the names it was asked
  for.
-/

import ReversePolish.Source
import ReversePolish.Table

namespace ReversePolish

inductive Definition where
  | constant (value : Float)
  | cell (name : String) (step : Option Float)
  | fails (reason : String)
  deriving DecidableEq

structure CellLoader where
  symbol : String
  cell : String
  step : Option Float
  deriving DecidableEq

structure Cells where
  values : Table Float := {}
  /-- The symbols read so far. -/
  reads : Array String := #[]

namespace Cells

def get (c : Cells) (name : String) : Float := (c.values.get? name).getD 0

def set (c : Cells) (name : String) (value : Float) : Cells :=
  { c with values := c.values.insert name value }

/-- Reads a cell, and steps it if the loader says so. -/
def read : Reader CellLoader Cells := fun loader c =>
  let x := c.get loader.cell
  let c := { c with reads := c.reads.push loader.symbol }
  match loader.step with
  | none => (x, c)
  | some step => (x, c.set loader.cell (x + step))

/-- The symbols read so far, which are then forgotten. -/
def takeReads (c : Cells) : List String × Cells := (c.reads.toList, { c with reads := #[] })

end Cells

structure Symbols where
  table : Table (Source CellLoader) := {}
  failures : Table String := {}

namespace Symbols

def resolve (s : Symbols) (name : String) : Except ResolveError (Source CellLoader) :=
  match s.failures.get? name with
  | some reason => .error (.other reason)
  | none =>
    match s.table.get? name with
    | some source => .ok source
    | none => .error (.unknown name)

def resolver (s : Symbols) : Resolver (Array String) CellLoader :=
  fun name asked => (s.resolve name, asked.push name)

/-- Puts a source into the table; gives the one before. -/
def bind (s : Symbols) (name : String) (source : Source CellLoader) :
    Option (Source CellLoader) × Symbols :=
  (s.table.get? name,
    { table := s.table.insert name source, failures := s.failures.erase name })

def define (s : Symbols) (name : String) : Definition → Option (Source CellLoader) × Symbols
  | .constant value => s.bind name (.constant value)
  | .cell cell step => s.bind name (.dynamic { symbol := name, cell, step })
  | .fails reason => (none, { s with failures := s.failures.insert name reason })

def remove (s : Symbols) (name : String) : Option (Source CellLoader) × Symbols :=
  (s.table.get? name, { s with table := s.table.erase name })

def ofList (definitions : List (String × Definition)) : Symbols :=
  definitions.foldl (fun s d => (s.define d.1 d.2).2) {}

end Symbols

end ReversePolish
