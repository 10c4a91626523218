import Polyadic.Matching.Call
import Polyadic.Splitting

/-! # Expansion of aliases

A reference to an alias is its name, alone or applied to arguments.  Expanding it binds the
parameters of the alias to the arguments, replaces them in the body, and then expands the references
in the result.  The names of the aliases that are being expanded are kept in order, the *stack*: an
alias that is reached again while it is on the stack ends the expansion, and so does a stack that
would grow longer than the limit. -/

namespace Polyadic

open Attempt

/-- The aliases in scope; each is found under its own name. -/
structure Scope where
  find? : String → Option Alias
  name_of_find? : ∀ name a, find? name = some a → a.name = name

namespace Scope

/-- No alias is in scope. -/
def empty : Scope := ⟨fun _ => none, fun _ _ h => nomatch h⟩

/-- An alias in front of a scope; it hides another one of its name. -/
def push (scope : Scope) (a : Alias) : Scope where
  find? name := if a.name = name then some a else scope.find? name
  name_of_find? name a' h := by
    split at h
    · rename_i heq
      cases h
      exact heq
    · exact scope.name_of_find? name a' h

end Scope

/-- Binds the parameters of an alias to arguments.  There have to be as many arguments as scalar
parameters. -/
def Alias.bindArguments (a : Alias) (arguments : List TypeExpr) : Attempt Binding :=
  let scalars := a.formal.scalarSlots.length
  if arguments.length < scalars then fail (.tooFewArguments a.name scalars arguments.length)
  else do
    ofExcept a.checkSingleTuple
    (matchParameters a.formal arguments).silent

namespace TypeExpr

mutual

/-- Replaces the references inside a type, as `replace` says for a name and its arguments; the
arguments are worked on first.  A lone name as the constructor of a spliced map is no reference yet:
it becomes one when it is applied. -/
def replaceReferences (replace : String → List TypeExpr → Option (Attempt TypeExpr)) :
    TypeExpr → Attempt TypeExpr
  | .named name => (replace name []).getD (return .named name)
  | .apply (.named name) args => do
    let args ← replaceAll replace args
    (replace name args).getD (return .apply (.named name) args)
  | .apply head args => do
    let args ← replaceAll replace args
    let head ← head.replaceReferences replace
    return .apply head args
  | .arrow params result => do
    let params ← replaceAll replace params
    let result ← result.replaceReferences replace
    return .arrow params result
  | .union members => do
    let members ← replaceAll replace members
    return .union members
  | .spreadMap (.named name) ts => return .spreadMap (.named name) ts
  | .spreadMap ctor ts => do
    let ctor ← ctor.replaceReferences replace
    return .spreadMap ctor ts
  | .var v => return .var v
  | .packed ts => return .packed ts
  | .spread ts => return .spread ts

/-- Replaces the references inside the types of a list. -/
def replaceAll (replace : String → List TypeExpr → Option (Attempt TypeExpr)) :
    List TypeExpr → Attempt (List TypeExpr)
  | [] => return []
  | t :: ts => do
    let t ← t.replaceReferences replace
    let ts ← replaceAll replace ts
    return t :: ts

end

end TypeExpr

/-- The end of an expansion that reached an alias again, or went too deep. -/
def reportCycle {α : Type} (name : String) (chain : List String) : Attempt α := do
  log (.aliasCycle name chain)
  fail (.recursiveAlias name chain)

/-- Expands an alias for the given arguments, where `budget` more aliases may be on the stack. -/
def instantiate (scope : Scope) : Nat → List String → Alias → List TypeExpr → Attempt TypeExpr
  | budget, stack, a, arguments =>
    if a.name ∈ stack then reportCycle a.name (stack.dropWhile (· ≠ a.name) ++ [a.name])
    else
      match budget with
      | 0 => reportCycle a.name (stack ++ [a.name])
      | budget + 1 => do
        let b ← a.bindArguments arguments
        log (.expandAlias a.name a.formal arguments b)
        let body ← ofExcept (a.body.subst b)
        body.replaceReferences fun name args =>
          (scope.find? name).map fun a' => instantiate scope budget (stack ++ [a.name]) a' args

/-- The number of aliases that may be on the stack unless something else is said. -/
def defaultDepth : Nat := 64

/-- Expands an alias, which need not be in scope, for the given arguments. -/
def expandAlias (scope : Scope) (depth : Nat) (a : Alias) (arguments : List TypeExpr) :
    Attempt TypeExpr :=
  instantiate (scope.push a) depth [] a arguments

/-- Expands every reference inside a type. -/
def expandReferences (scope : Scope) (depth : Nat) (t : TypeExpr) : Attempt TypeExpr :=
  t.replaceReferences fun name args =>
    (scope.find? name).map fun a => instantiate scope depth [] a args

end Polyadic
