/-
  ReversePolish.Native.Compiler — compiling programs to native code.

  What native code costs is a matter of the target it is generated for: a function from
  the optimization level and the code to a size, and the size of a page of memory, which
  is the limit where the configuration sets none. Without a target there is no
  compiler. What is proved is proved for every target; `Target.host` is one to run with,
  with invented sizes.

  A program with an operator that has no native instruction is refused before anything
  else happens. Otherwise the function gets the next number for its name and a region is
  opened; the code is generated, and if it is larger than the limit the region is freed
  again before the program is refused. A compiler changes in nothing but the number.
-/

import ReversePolish.Evaluator.Routine

namespace ReversePolish

structure Target where
  /-- The size of some code in bytes. -/
  codeSize : OptLevel → List NativeOp → Nat
  /-- The size of a page of memory in bytes. -/
  pageSize : Nat

/-- A stand-in for a code generator: sixteen bytes around the code and two for each instruction, in pages
    of 64 KiB. -/
def Target.host : Target :=
  { codeSize := fun _ code => 16 + 2 * code.length
    pageSize := 65536 }

structure Compiler where
  target : Target
  optLevel : OptLevel
  /-- The most bytes of code for one program. -/
  codeLimit : Nat
  functions : Nat := 0

structure Compilation (ι : Type) where
  result : Except NativeError (Routine ι)
  compiler : Compiler
  events : List Event := []

namespace Compiler

variable {ι : Type}

def ofConfig (target : Option Target) (config : Config) : Except NativeError Compiler :=
  match target with
  | none => .error .unavailable
  | some target =>
    .ok { target
          optLevel := config.optLevel
          codeLimit := config.codeLimit.getD target.pageSize }

def canCompile (target : Option Target) (p : Program ι) : Bool :=
  target.isSome && p.unsupported?.isNone

def functionName (c : Compiler) : String := "rpn_expr_" ++ toString c.functions

def compile (c : Compiler) (p : Program ι) : Compilation ι :=
  match p.unsupported? with
  | some o => { result := .error (.unsupported o), compiler := c }
  | none =>
    let function := c.functionName
    -- the number is spent, whatever becomes of the code
    let c := { c with functions := c.functions + 1 }
    let region := Region.live
    match NativeOp.lowerAll p.ops.toList with
    | .error e => { result := .error e, compiler := c, events := region.drop }
    | .ok code =>
      let size := c.target.codeSize c.optLevel code
      if c.codeLimit < size then
        { result := .error (.tooLarge size c.codeLimit)
          compiler := c
          events := .codeGenerated :: .codeTooLarge size c.codeLimit :: region.drop }
      else
        { result := .ok (.ofProgram p region code size)
          compiler := c
          events := [.codeGenerated, .codeAccepted function size p.ops.size] }

end Compiler

end ReversePolish
