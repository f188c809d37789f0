/-
  ReversePolish.Token — the tokens of an expression and what they stand for.

  The tokens are the non-empty pieces between spaces; no other blank separates. A token
  that is an operator's symbol is that operator, whatever a resolver would say of it. Any
  other token is a value: a literal is its constant, and all else is looked up. Without
  a resolver a token that is no literal has no source.
-/

import ReversePolish.Double.Literal
import ReversePolish.Error

namespace ReversePolish

/-- The non-empty pieces of an expression between spaces. -/
def tokenize (expression : String) : List String :=
  ((expression.toList.splitOn ' ').filter (!·.isEmpty)).map String.ofList

def readValue {τ ι : Type} (resolver : Option (Resolver τ ι)) (token : String) (lookups : τ) :
    Report τ (Source ι) :=
  match Double.Literal.parse? token, resolver with
  | some value, _ => { result := .ok (.constant value), lookups }
  | none, none => { result := .error (.unresolved token none), lookups }
  | none, some resolve =>
    match resolve token lookups with
    | (.ok source, lookups) =>
      { result := .ok source, lookups, events := [.symbolResolved token source.isConstant] }
    | (.error cause, lookups) => { result := .error (.unresolved token (some cause)), lookups }

end ReversePolish
