/-
  ReversePolish.CommandLine.Arguments — reading the arguments.

  Arguments are read from left to right. One that begins with `--` names an option or a
  flag, with a value after `=` or, for an option, in the next argument; one that begins
  with a single `-` and has more to it is a short flag; all others, and all after a
  lone `--`, are positional, of which there is one. A value in the next argument is taken
  only if it does not look like an option itself.

  An option's value is looked at when the next option, flag or positional argument is
  met, or at the end; an argument that is not known is reported before that. An option
  given twice is reported before its second value is looked at. `--var` may be given
  many times. A number is decimal digits with an optional plus, below 2^64; of a wrong
  digit and a number grown too large the one further left is reported, and the digit
  if they are in one place.
-/

import ReversePolish.Config
import ReversePolish.Double.Literal
import ReversePolish.Text.Terminal

namespace ReversePolish.CommandLine

inductive Setting where
  | var
  | backend
  | repetitions
  | flatThreshold
  deriving DecidableEq, Repr

inductive Flag where
  | memoize
  | showProgram
  | help
  | version
  deriving DecidableEq, Repr

def ofLongName? : String → Option (Setting ⊕ Flag)
  | "var" => some (.inl .var)
  | "backend" => some (.inl .backend)
  | "repeat" => some (.inl .repetitions)
  | "flat-threshold" => some (.inl .flatThreshold)
  | "memoize" => some (.inr .memoize)
  | "show-program" => some (.inr .showProgram)
  | "help" => some (.inr .help)
  | "version" => some (.inr .version)
  | _ => none

def ofShortName? : Char → Option Flag
  | 'h' => some .help
  | 'V' => some .version
  | _ => none

def Setting.usage : Setting → String
  | var => "--var <NAME=VALUE>"
  | backend => "--backend <BACKEND>"
  | repetitions => "--repeat <REPEAT>"
  | flatThreshold => "--flat-threshold <FLAT_THRESHOLD>"

def Flag.usage : Flag → String
  | memoize => "--memoize"
  | showProgram => "--show-program"
  | help => "--help"
  | version => "--version"

inductive UsageError where
  | unknown (argument : String)
  | repeated (usage : String)
  | missingValue (usage : String)
  | unexpectedValue (value usage : String)
  | invalid (value usage reason : String)
  | missingExpression
  deriving DecidableEq, Repr

/--
What is wrong. What was given and the names of options are emphasized, the reason for a
value being invalid is not.
-/
def UsageError.message : UsageError → String
  | unknown argument => "unexpected argument '" ++ Text.emphasized argument ++ "' found"
  | repeated usage =>
    "the argument '" ++ Text.emphasized usage ++ "' cannot be used multiple times"
  | missingValue usage =>
    "a value is required for '" ++ Text.emphasized usage ++ "' but none was supplied"
  | unexpectedValue value usage =>
    "unexpected value '" ++ Text.emphasized value ++ "' for '" ++ Text.emphasized usage ++
      "' found; no more were expected"
  | invalid value usage reason =>
    "invalid value '" ++ Text.emphasized value ++ "' for '" ++ Text.emphasized usage ++
      "': " ++ reason
  | missingExpression =>
    "the following required arguments were not provided:\n  " ++
      Text.emphasized "<EXPRESSION>"

inductive Stop where
  | refused (e : UsageError)
  | help
  | version
  deriving DecidableEq, Repr

/-! ## Values -/

/-- A text before and after its first `=`. -/
def splitEquals (text : List Char) : Option (List Char × List Char) :=
  let name := text.takeWhile (· != '=')
  match text.drop name.length with
  | _ :: value => some (name, value)
  | [] => none

def binding (text : String) : Except String (String × Float) :=
  match splitEquals text.toList with
  | none => .error ("expected NAME=VALUE, got '" ++ text ++ "'")
  | some (name, value) =>
    if name.isEmpty then .error ("missing symbol name in '" ++ text ++ "'")
    else
      match Double.Literal.ofChars? value with
      | none => .error ("'" ++ String.ofList value ++ "' is not a numeric literal")
      | some x => .ok (String.ofList name, x)

def choice (text : String) : Except String Choice :=
  match Choice.ofWord? text with
  | some c => .ok c
  | none =>
    .error ("unknown backend '" ++ text ++ "' (expected auto, interpreter, tree or jit)")

/-- The number of some digits, which begin with `n`. -/
def numberFrom (n : Nat) : List Char → Except String Nat
  | [] => .ok n
  | c :: rest =>
    if !c.isDigit then .error "invalid digit found in string"
    else
      let n := 10 * n + (c.toNat - '0'.toNat)
      if 0x10000000000000000 ≤ n then .error "number too large to fit in target type" else numberFrom n rest

def number (text : String) : Except String Nat :=
  match text.toList with
  | [] => .error "cannot parse integer from empty string"
  | ['+'] => .error "invalid digit found in string"
  | '+' :: digits => numberFrom 0 digits
  | digits => numberFrom 0 digits

/-! ## Reading -/

structure Options where
  expression : Option String := none
  bindings : Array (String × Float) := #[]
  choice : Option Choice := none
  repetitions : Option Nat := none
  flatThreshold : Option Nat := none
  memoize : Bool := false
  showProgram : Bool := false

structure Reading where
  options : Options := {}
  /-- The option met last, with its value if that was met, while nothing was made of it. -/
  pending : Option (Setting × Option String) := none
  /-- Whether a lone `--` was met. -/
  onlyPositional : Bool := false

/-- A value once, or the error that it was given before. -/
def once {α : Type} (before : Option α) (s : Setting) (value : String)
    (read : String → Except String α) : Except Stop α :=
  if before.isSome then .error (.refused (.repeated s.usage))
  else (read value).mapError fun reason => .refused (.invalid value s.usage reason)

def Options.set (o : Options) (s : Setting) (value : String) : Except Stop Options :=
  match s with
  | .var =>
    match binding value with
    | .ok b => .ok { o with bindings := o.bindings.push b }
    | .error reason => .error (.refused (.invalid value s.usage reason))
  | .backend =>
    (once o.choice s value CommandLine.choice).map fun c => { o with choice := some c }
  | .repetitions =>
    (once o.repetitions s value number).map fun n => { o with repetitions := some n }
  | .flatThreshold =>
    (once o.flatThreshold s value number).map fun n => { o with flatThreshold := some n }

def Options.raise (o : Options) (f : Flag) : Except Stop Options :=
  match f with
  | .memoize =>
    if o.memoize then .error (.refused (.repeated f.usage)) else .ok { o with memoize := true }
  | .showProgram =>
    if o.showProgram then .error (.refused (.repeated f.usage))
    else .ok { o with showProgram := true }
  | .help => .error .help
  | .version => .error .version

namespace Reading

/-- Makes the pending option part of the options. -/
def settle (r : Reading) : Except Stop Reading :=
  match r.pending with
  | none => .ok r
  | some (s, none) => .error (.refused (.missingValue s.usage))
  | some (s, some value) =>
    (r.options.set s value).map fun options => { r with options, pending := none }

def raise (r : Reading) (f : Flag) : Except Stop Reading :=
  match r.settle with
  | .error stop => .error stop
  | .ok r => (r.options.raise f).map fun options => { r with options }

/-- An argument that begins with `--` and has more to it; `body` is what follows. -/
def long (r : Reading) (body : List Char) : Except Stop Reading :=
  let (name, value) :=
    match splitEquals body with
    | some (name, value) => (String.ofList name, some (String.ofList value))
    | none => (String.ofList body, none)
  match ofLongName? name, value with
  | none, _ => .error (.refused (.unknown ("--" ++ name)))
  | some (.inr f), some value => .error (.refused (.unexpectedValue value f.usage))
  | some (.inr f), none => r.raise f
  | some (.inl s), none =>
    r.settle.map fun r => { r with pending := some (s, none) }
  | some (.inl s), some value =>
    match r.settle with
    | .error stop => .error stop
    | .ok r => (r.options.set s value).map fun options => { r with options }

/-- Short flags: `rest` follow the first. -/
def short (r : Reading) (c : Char) (rest : List Char) : Except Stop Reading :=
  match ofShortName? c with
  | none => .error (.refused (.unknown ("-" ++ c.toString)))
  | some f =>
    match r.raise f, rest with
    | .error stop, _ => .error stop
    | .ok r, [] => .ok r
    | .ok r, c :: rest => short r c rest
termination_by rest.length

def positional (r : Reading) (argument : String) : Except Stop Reading :=
  -- a second expression is reported before the value that is pending is looked at
  if r.options.expression.isSome then .error (.refused (.unknown argument))
  else
    r.settle.map fun r => { r with options := { r.options with expression := some argument } }

def step (r : Reading) (argument : String) : Except Stop Reading :=
  if r.onlyPositional then r.positional argument
  else
    match argument.toList, r.pending with
    | ['-', '-'], _ => .ok { r with onlyPositional := true }
    | '-' :: '-' :: body, _ => r.long body
    | '-' :: c :: rest, _ => r.short c rest
    -- an argument that looks like an option was met above and is no value
    | _, some (s, none) => .ok { r with pending := some (s, some argument) }
    | _, _ => r.positional argument

def steps : Reading → List String → Except Stop Reading
  | r, [] => .ok r
  | r, argument :: rest =>
    match r.step argument with
    | .ok r => steps r rest
    | .error stop => .error stop

end Reading

def readArguments (arguments : List String) : Except Stop (String × Options) :=
  match Reading.steps {} arguments with
  | .error stop => .error stop
  | .ok r =>
    match r.settle with
    | .error stop => .error stop
    | .ok r =>
      match r.options.expression with
      | none => .error (.refused .missingExpression)
      | some expression => .ok (expression, r.options)

end ReversePolish.CommandLine
