import Polyadic.Declaration
import Polyadic.Matching.Unify

/-! # Matching parameter lists and calls

A parameter list may come with anchors, types that are matched before it.  What they bind is known
when the list is taken apart, which is how they settle a split between several tuple variables.  In
a call the keyword parameters are the anchors of the positional list. -/

namespace Polyadic

open Attempt

/-- A type that is matched before a parameter list. -/
structure Anchor where
  formal : TypeExpr
  actual : TypeExpr
deriving DecidableEq, Repr

/-- What a failure inside an anchor means for the tuple variables that earlier anchors have bound.
If the anchor disagrees with one of them, or on a length, then the split that the anchors were to
settle is not determined. -/
def anchorCause (bound : List TupleVar) : Cause → Cause
  | .conflict (.tuple ts) previous found =>
    if ts ∈ bound then .ambiguousSplit [ts] else .conflict (.tuple ts) previous found
  | .arity expected found =>
    if bound.isEmpty then .arity expected found else .ambiguousSplit bound
  | cause => cause

/-- Matches an anchor. -/
def solveAnchor (formal actual : TypeExpr) (b : Binding) : Attempt Binding := do
  log (.solveAnchor formal actual)
  (unify formal actual b).recast
    (anchorCause (formal.tupleVars.filter fun ts => (b.tuple? ts).isSome))

/-- Matches anchors one after another, from the given number on. -/
def solveAnchors : Nat → List Anchor → Binding → Attempt Binding
  | _, [], b => return b
  | i, anchor :: rest, b => do
    let b ← (solveAnchor anchor.formal anchor.actual b).under (.anchor i)
    solveAnchors (i + 1) rest b

/-- Matches a parameter list after its anchors. -/
def matchAnchored (formal : ParameterList) (arguments : List TypeExpr) (anchors : List Anchor) :
    Attempt Binding := do
  let b ← solveAnchors 0 anchors .empty
  matchList unify .param formal.slots arguments b

/-- Matches a parameter list. -/
def matchParameters (formal : ParameterList) (arguments : List TypeExpr) : Attempt Binding :=
  matchAnchored formal arguments []

theorem matchParameters_eq (list : ParameterList) (arguments : List TypeExpr) :
    matchParameters list arguments = matchList unify .param list.slots arguments .empty :=
  pure_bind _ _

/-- Matches a single type. -/
def matchType (formal actual : TypeExpr) : Attempt Binding := unify formal actual .empty

/-- Matches the declared keywords of a call in the order of their declaration; each of them has to
be passed. -/
def solveKeywords (function : String) (call : Call) :
    List (String × TypeExpr) → Binding → Attempt Binding
  | [], b => return b
  | (name, formal) :: rest, b => do
    let b ← Attempt.under (.keyword name) <|
      match call.keyword? name with
      | some actual => solveAnchor formal actual b
      | none => fail (.missingKeyword function name)
    solveKeywords function call rest b

/-- Matches the further keywords of a call in the order of the call. -/
def collectKeywords (function : String) (kwargs : Option TypeExpr) :
    List (String × TypeExpr) → Binding → Attempt Binding
  | [], b => return b
  | (name, actual) :: rest, b => do
    let b ← Attempt.under (.keyword name) <|
      match kwargs with
      | some formal => unify formal actual b
      | none => fail (.unexpectedKeyword function name)
    collectKeywords function kwargs rest b

/-- Matches a call: the declared keywords, then the further ones, then the positional list. -/
def matchCall (s : Signature) (call : Call) : Attempt Binding := do
  let b ← solveKeywords s.name call s.keywords .empty
  let b ← collectKeywords s.name s.kwargs (call.extraKeywords s) b
  matchList unify .param s.positional.slots call.positional b

end Polyadic
