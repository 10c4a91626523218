import Polyadic.Binding
import Polyadic.ParameterList

/-! # Events of an attempt

What happens on the way to a binding or an expansion is kept as a list of events.  An event is data;
its four texts (`Event.step`) are made only when a log is read. -/

namespace Polyadic

/-- The kind of an event. -/
inductive Action where
  | identity
  | decompose
  | bindScalar
  | bindTuple
  | splitEvenly
  | solveAnchor
  | expandMap
  | invertMap
  | expandAlias
  | error
deriving DecidableEq, Repr

/-- The name of a kind of event. -/
def Action.name : Action → String
  | identity => "identity"
  | decompose => "decompose"
  | bindScalar => "bind_scalar"
  | bindTuple => "bind_tuple"
  | splitEvenly => "split_evenly"
  | solveAnchor => "solve_anchor"
  | expandMap => "expand_map"
  | invertMap => "invert_map"
  | expandAlias => "expand_alias"
  | error => "error"

/-- Something that happened. -/
inductive Event where
  /-- A type met an equal type. -/
  | identity (t : TypeExpr)
  /-- Two types of the same form were taken apart. -/
  | decompose (formal actual : TypeExpr)
  /-- A scalar variable was bound. -/
  | bindScalar (v : TypeVar) (t : TypeExpr)
  /-- A tuple variable was bound. -/
  | bindTuple (ts : TupleVar) (contents : List TypeExpr)
  /-- The occurrences of one open tuple variable share `available` arguments evenly. -/
  | splitEvenly (slots : List Slot) (arguments : List TypeExpr) (available occurrences : Nat)
  /-- An anchor is about to be solved. -/
  | solveAnchor (formal actual : TypeExpr)
  /-- A mapped slot became the types that its bound tuple variable makes of it. -/
  | expandMap (ctor : TypeExpr) (ts : TupleVar) (arguments expansion : List TypeExpr)
  /-- A mapped slot is about to be solved for its tuple variable. -/
  | invertMap (ctor : TypeExpr) (ts : TupleVar) (arguments : List TypeExpr)
  /-- An alias was instantiated. -/
  | expandAlias (name : String) (formal : ParameterList) (arguments : List TypeExpr)
      (binding : Binding)
  /-- A type did not have the expected form. -/
  | mismatch (expected actual : TypeExpr)
  /-- A scalar variable already had another type. -/
  | scalarConflict (v : TypeVar) (previous found : TypeExpr)
  /-- A tuple variable already had another sequence. -/
  | tupleConflict (ts : TupleVar) (previous found : List TypeExpr)
  /-- Several tuple variables were open at both ends of a list. -/
  | severalOpen (slots : List Slot) (arguments : List TypeExpr)
  /-- An alias was reached again inside its own expansion. -/
  | aliasCycle (name : String) (chain : List String)
deriving DecidableEq

/-- An event in words. -/
structure Step where
  action : Action
  formal : String
  actual : String
  detail : String
deriving DecidableEq, Repr

namespace Event

/-- The kind of an event. -/
def action : Event → Action
  | identity .. => .identity
  | decompose .. => .decompose
  | bindScalar .. => .bindScalar
  | bindTuple .. => .bindTuple
  | splitEvenly .. => .splitEvenly
  | solveAnchor .. => .solveAnchor
  | expandMap .. => .expandMap
  | invertMap .. => .invertMap
  | expandAlias .. => .expandAlias
  | mismatch .. | scalarConflict .. | tupleConflict .. | severalOpen .. | aliasCycle .. => .error

/-- What is said about two types that are taken apart. -/
def decomposition : TypeExpr → String
  | .packed _ => "Ts ~ tuple[...] → match [*Ts] against the elements"
  | .apply _ _ => "F[args] ~ G[args] → unify constructors, then match args"
  | .arrow _ _ => "(P1) -> R1 ~ (P2) -> R2 → match params, then unify returns"
  | _ => "union members matched in order"

/-- What is said about two equal types. -/
def coincidence : TypeExpr → String
  | .named _ => "same name"
  | _ => "types already equal"

/-- An event in words. -/
def step (e : Event) : Step :=
  let step formal actual detail : Step := ⟨e.action, formal, actual, detail⟩
  let seq := TypeExpr.sequenceText
  match e with
  | identity t => step t.text t.text (coincidence t)
  | decompose formal actual => step formal.text actual.text (decomposition formal)
  | bindScalar v t => step v.text t.text (v.text ++ " := " ++ t.text)
  | bindTuple ts contents => step ts.text (seq contents) (ts.text ++ " := " ++ seq contents)
  | splitEvenly slots arguments available occurrences =>
    step (ParameterList.mk slots).text (seq arguments)
      s!"{available} argument(s) over {occurrences} occurrence(s)"
  | solveAnchor formal actual =>
    step formal.text actual.text "sibling constraint solved before the parameter list"
  | expandMap ctor ts arguments expansion =>
    step (Slot.mapped ctor ts).text (seq arguments)
      s!"{ts.text} is bound, Map yields {seq expansion}"
  | invertMap ctor ts arguments =>
    step (Slot.mapped ctor ts).text (seq arguments)
      s!"{ts.text} is only determined by this Map; strip `{ctor.text}`"
  | expandAlias name formal arguments binding =>
    step (name ++ formal.text) (seq arguments) binding.text
  | mismatch expected actual => step expected.text actual.text "type mismatch"
  | scalarConflict v previous found =>
    step v.text found.text s!"{v.text} already bound to {previous.text}"
  | tupleConflict ts previous found =>
    step ts.text (seq found) s!"{ts.text} already bound to {seq previous}"
  | severalOpen slots arguments =>
    step (ParameterList.mk slots).text (seq arguments) "several open tuple variables"
  | aliasCycle name chain => step name (" -> ".intercalate chain) "alias reaches itself"

@[simp] theorem action_step (e : Event) : e.step.action = e.action := by cases e <;> rfl

end Event

end Polyadic
