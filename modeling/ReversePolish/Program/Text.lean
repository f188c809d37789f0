/-
  ReversePolish.Program.Text — the two texts of a program.

  The text of a program is its tokens again, separated by single spaces: the name of the
  operand for each fetch, the symbol for each operator. The parenthesized text shows
  the same expression with the operators between their operands, every operator in
  parentheses of its own; the conditional `c v if` is `(if c>0 then v)`.
-/

import ReversePolish.Program

namespace ReversePolish

namespace Program

variable {ι : Type}

/-- The token of each instruction: the name of the operand it fetches, or the operator. -/
def tokens : List Instruction → List (Operand ι) → List String
  | [], _ => []
  | .apply o :: ops, operands => o.symbol :: tokens ops operands
  | .fetch :: ops, operand :: operands => operand.name :: tokens ops operands
  | .fetch :: ops, [] => "" :: tokens ops []

/-- The program as an expression, which builds the same program. -/
def text (p : Program ι) : String :=
  " ".intercalate (tokens p.ops.toList p.operands.toList)

def between : Operator → String → String → String
  | .cond, lhs, rhs => "(if " ++ lhs ++ ">0 then " ++ rhs ++ ")"
  | o, lhs, rhs => "(" ++ lhs ++ " " ++ o.symbol ++ " " ++ rhs ++ ")"

/-- The stack of texts and the operands not yet fetched, after one more instruction. -/
def parenthesizeStep (s : List String × List (Operand ι)) :
    Instruction → List String × List (Operand ι)
  | .fetch =>
    match s.2 with
    | operand :: operands => (operand.name :: s.1, operands)
    | [] => s
  | .apply o =>
    let rhs := s.1.headD ""
    let lhs := s.1.tail.headD ""
    (between o lhs rhs :: s.1.tail.tail, s.2)

def parenthesized (p : Program ι) : String :=
  (p.ops.toList.foldl parenthesizeStep ([], p.operands.toList)).1.headD ""

end Program

end ReversePolish
