/-
  ReversePolish.Proofs.Folding — folding constants keeps the meaning of an expression.

  The meaning is given by the tokens alone. `evalTokens` goes through them from left to
  right over a stack of values and folds nothing: a value token pushes its literal, its
  constant or a fresh reading of its loader, an operator takes the two topmost values and
  pushes its own. `loadersOf` lists the loaders of the dynamic tokens in the order of the
  text.

  The program of an expression gives the same value and the same outside state, and reads
  exactly the listed loaders, in this order, each token's once (`run_eq_evalTokens`):
  what is folded away reads nothing, and an `if` reads both its operands whatever its
  condition.
-/

import ReversePolish.Proofs.Machine

namespace ReversePolish

variable {τ ι σ : Type}

/-- Evaluates tokens over a stack of values, without a program. -/
def evalTokens (resolver : Option (Resolver τ ι)) (read : Reader ι σ) :
    List String → τ → List Float → σ → Option (List Float × σ)
  | [], _, stack, outside => some (stack, outside)
  | token :: rest, lookups, stack, outside =>
    match Operator.ofSymbol? token with
    | some o =>
      match stack with
      | rhs :: lhs :: stack => evalTokens resolver read rest lookups (o.apply lhs rhs :: stack) outside
      | _ => none
    | none =>
      match readValue resolver token lookups with
      | { result := .ok source, lookups, .. } =>
        let (x, outside) := source.load read outside
        evalTokens resolver read rest lookups (x :: stack) outside
      | { result := .error _, .. } => none

def loadersOf (resolver : Option (Resolver τ ι)) : List String → τ → List ι
  | [], _ => []
  | token :: rest, lookups =>
    match Operator.ofSymbol? token with
    | some _ => loadersOf resolver rest lookups
    | none =>
      match readValue resolver token lookups with
      | { result := .ok source, lookups, .. } => source.loader?.toList ++ loadersOf resolver rest lookups
      | { result := .error _, lookups, .. } => loadersOf resolver rest lookups

namespace Term

theorem evalTokens_names (read : Reader ι σ) {resolver : Option (Resolver τ ι)} {t : Term (Operand ι)} {s s' : τ}
    (h : Reads resolver s t s') (rest : List String) (stack : List Float) (outside : σ) :
    evalTokens resolver read (t.names ++ rest) s stack outside =
      evalTokens resolver read rest s' ((t.eval read outside).1 :: stack) (t.eval read outside).2 := by
  induction h generalizing rest stack outside with
  | leaf operand s hv hs =>
    rcases hr : readValue resolver operand.name s with ⟨result, s', events⟩
    rw [hr] at hs
    cases hs
    simp only [tokens, List.singleton_append, evalTokens, hv, hr, eval]
  | node o hl hr ihl ihr =>
    rw [names, tokens, List.append_assoc, List.append_assoc, ihl, ihr]
    simp only [List.singleton_append, evalTokens, Operator.ofSymbol?_symbol, eval]

theorem loadersOf_names {resolver : Option (Resolver τ ι)} {t : Term (Operand ι)} {s s' : τ}
    (h : Reads resolver s t s') (rest : List String) :
    loadersOf resolver (t.names ++ rest) s = t.loaders ++ loadersOf resolver rest s' := by
  induction h generalizing rest with
  | leaf operand s hv hs =>
    rcases hr : readValue resolver operand.name s with ⟨result, s', events⟩
    rw [hr] at hs
    cases hs
    simp only [tokens, List.singleton_append, loadersOf, hv, hr, loaders, leaves]
    cases hd : operand.source.loader? <;> simp [hd]
  | node o hl hr ihl ihr =>
    rw [names, tokens, List.append_assoc, List.append_assoc, ihl, ihr]
    simp only [List.singleton_append, loadersOf, Operator.ofSymbol?_symbol, loaders, leaves, List.filterMap_append,
      List.append_assoc]

end Term

/-- A run of the built program gives the value and the outside state of the tokens themselves, and
    reads what they read: the loader of every dynamic token, once and in the order of the text. -/
theorem run_eq_evalTokens {resolver : Option (Resolver τ ι)} {text : String} {lookups : τ} {p : Program ι}
    (h : (Program.parse resolver text lookups).result = .ok p) (read : Reader ι σ) (outside : σ) :
    ∃ x m outside',
      (Interpreter.ofProgram p).run read.logged (outside, []) =
        .ok (x, m, outside', loadersOf resolver (tokenize text) lookups) ∧
      evalTokens resolver read.logged (tokenize text) lookups [] (outside, []) =
        some ([x], outside', loadersOf resolver (tokenize text) lookups) := by
  obtain ⟨t, lookups', hr, hn, rfl⟩ := Program.parse_eq_ok_iff.mp h
  have hl : loadersOf resolver (tokenize text) lookups = t.loaders := by
    have := Term.loadersOf_names hr []
    rwa [List.append_nil, hn, loadersOf, List.append_nil] at this
  have he := Term.evalTokens_names read.logged hr [] [] (outside, [])
  rw [List.append_nil, hn] at he
  obtain ⟨m, -, hrun⟩ := Interpreter.run_ofTerm read.logged (Interpreter.serves_ofProgram (.ofTerm t)) (outside, [])
  rw [Term.eval_logged, List.nil_append] at he hrun
  exact ⟨_, m, _, by rw [hrun, hl], by rw [he, hl, evalTokens]⟩

/-- The constant condition is folded to -1 and false, and both names under it are read. -/
theorem run_eq_evalTokens_under_false_condition :
    ∃ p, (Program.parse (some Resolver.itself) "0 1 - x y + if 2 *" ()).result = .ok p ∧
      ∃ x m n,
        (Interpreter.ofProgram p).run (Reader.logged fun _ n => (n.toFloat, n + 1)) (0, []) =
          .ok (x, m, n, ["x", "y"]) ∧
        evalTokens (some Resolver.itself) (Reader.logged fun _ n => (n.toFloat, n + 1))
          (tokenize "0 1 - x y + if 2 *") () [] (0, []) = some ([x], n, ["x", "y"]) := by
  have hok : (Program.parse (some Resolver.itself) "0 1 - x y + if 2 *" ()).result.toOption.isSome = true := by
    decide +kernel
  have hl : loadersOf (some Resolver.itself) (tokenize "0 1 - x y + if 2 *") () = ["x", "y"] := by decide +kernel
  cases hp : (Program.parse (some Resolver.itself) "0 1 - x y + if 2 *" ()).result with
  | error e => rw [hp] at hok; cases hok
  | ok p =>
    have h := run_eq_evalTokens hp (fun _ (n : Nat) => (n.toFloat, n + 1)) 0
    rw [hl] at h
    exact ⟨p, rfl, h⟩

end ReversePolish
