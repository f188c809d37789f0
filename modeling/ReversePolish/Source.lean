/-
  ReversePolish.Source — where a value comes from, and how a name is looked up.

  A source is a constant, known while the program is built, or a dynamic loader, which is
  read once for every fetch. What a loader is stays open: it is a value of a type `ι`,
  read by a function that may look at and change an outside state `σ`, so loaders may
  share cells, count their readings or depend on each other.

  A resolver gives the source of a name or says why it has none. It may keep a state `τ`
  of its own, so one that answers differently at each look-up is a resolver too;
  `Resolver.ofFunction` is one whose answer depends on the name alone. Only tokens that
  are no literals are looked up.
-/

import ReversePolish.Event

namespace ReversePolish

inductive Source (ι : Type) where
  | constant (value : Float)
  | dynamic (loader : ι)
  deriving DecidableEq

/-- Reads a loader: its value, and the outside state after the reading. -/
abbrev Reader (ι σ : Type) := ι → σ → Float × σ

namespace Source

variable {ι σ : Type}

def constant? : Source ι → Option Float
  | constant value => some value
  | dynamic _ => none

def isConstant (s : Source ι) : Bool := s.constant?.isSome

def load (read : Reader ι σ) : Source ι → σ → Float × σ
  | constant value, outside => (value, outside)
  | dynamic loader, outside => read loader outside

@[simp] theorem constant?_constant (v : Float) : (constant v : Source ι).constant? = some v := rfl

@[simp] theorem constant?_dynamic (l : ι) : (dynamic l).constant? = none := rfl

@[simp] theorem isConstant_constant (v : Float) : (constant v : Source ι).isConstant = true := rfl

@[simp] theorem isConstant_dynamic (l : ι) : (dynamic l).isConstant = false := rfl

@[simp] theorem load_constant (read : Reader ι σ) (v : Float) (s : σ) :
    (constant v : Source ι).load read s = (v, s) := rfl

@[simp] theorem load_dynamic (read : Reader ι σ) (l : ι) (s : σ) :
    (dynamic l).load read s = read l s := rfl

end Source

inductive ResolveError where
  | unknown (name : String)
  | other (reason : String)
  deriving DecidableEq, Repr

def ResolveError.message : ResolveError → String
  | unknown name => "symbol '" ++ name ++ "' not found"
  | other reason => reason

abbrev Resolver (τ ι : Type) := String → τ → Except ResolveError (Source ι) × τ

def Resolver.ofFunction {ι : Type} (f : String → Except ResolveError (Source ι)) :
    Resolver Unit ι :=
  fun name s => (f name, s)

end ReversePolish
