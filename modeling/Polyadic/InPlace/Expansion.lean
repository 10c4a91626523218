import Polyadic.Expansion
import Polyadic.InPlace.Matching

/-! # Expansion in place

Expansion as a session does it, with the stack in the recorder.  An expansion that fails leaves the
names on the stack. -/

namespace Polyadic.InPlace

open Work

/-- Binds the parameters of an alias to arguments, in a recorder of its own that keeps no steps. -/
def bindArguments (a : Alias) (arguments : List TypeExpr) : Except Failure Binding :=
  let scalars := a.formal.scalarSlots.length
  if arguments.length < scalars then
    .error ⟨.tooFewArguments a.name scalars arguments.length, []⟩
  else do
    a.checkSingleTuple
    (Recorder.record {} do
      matchAnchored a.formal arguments []
      binding).1

mutual

/-- Replaces the references inside a type, as `replace` says for a name and its arguments; the
arguments are worked on first. -/
def replaceReferences (replace : String → List TypeExpr → Option (Work TypeExpr)) :
    TypeExpr → Work TypeExpr
  | .named name => (replace name []).getD (return .named name)
  | .apply (.named name) args => do
    let args ← replaceAll replace args
    (replace name args).getD (return .apply (.named name) args)
  | .apply head args => do
    let args ← replaceAll replace args
    let head ← replaceReferences replace head
    return .apply head args
  | .arrow params result => do
    let params ← replaceAll replace params
    let result ← replaceReferences replace result
    return .arrow params result
  | .union members => do
    let members ← replaceAll replace members
    return .union members
  | .spreadMap (.named name) ts => return .spreadMap (.named name) ts
  | .spreadMap ctor ts => do
    let ctor ← replaceReferences replace ctor
    return .spreadMap ctor ts
  | .var v => return .var v
  | .packed ts => return .packed ts
  | .spread ts => return .spread ts

/-- Replaces the references inside the types of a list. -/
def replaceAll (replace : String → List TypeExpr → Option (Work TypeExpr)) :
    List TypeExpr → Work (List TypeExpr)
  | [] => return []
  | t :: ts => do
    let t ← replaceReferences replace t
    let ts ← replaceAll replace ts
    return t :: ts

end

/-- The end of an expansion that reached an alias again, or went too deep. -/
def reportCycle {α : Type} (name : String) (chain : List String) : Work α := do
  note (.aliasCycle name chain)
  fail (.recursiveAlias name chain)

/-- Works with one more alias on the stack. -/
def onStack {α : Type} (name : String) (x : Work α) : Work α := do
  modify fun r => { r with stack := r.stack ++ [name] }
  let a ← x
  modify fun r => { r with stack := r.stack.dropLast }
  return a

/-- Expands an alias for the given arguments, where `budget` more aliases may be on the stack. -/
def instantiate (scope : Scope) : Nat → Alias → List TypeExpr → Work TypeExpr
  | budget, a, arguments => do
    let stack := (← get).stack
    if a.name ∈ stack then reportCycle a.name (stack.dropWhile (· ≠ a.name) ++ [a.name])
    else
      match budget with
      | 0 => reportCycle a.name (stack ++ [a.name])
      | budget + 1 =>
        let b ← ofExcept (bindArguments a arguments)
        noteIfEnabled (.expandAlias a.name a.formal arguments b)
        let body ← ofExcept (a.body.subst b)
        onStack a.name <| replaceReferences (fun name args =>
          (scope.find? name).map fun a' => instantiate scope budget a' args) body

/-- Expands an alias, which need not be in scope, for the given arguments. -/
def expandAlias (scope : Scope) (depth : Nat) (a : Alias) (arguments : List TypeExpr) :
    Work TypeExpr :=
  instantiate (scope.push a) depth a arguments

/-- Expands every reference inside a type. -/
def expandReferences (scope : Scope) (depth : Nat) (t : TypeExpr) : Work TypeExpr :=
  replaceReferences (fun name args =>
    (scope.find? name).map fun a => instantiate scope depth a args) t

end Polyadic.InPlace
