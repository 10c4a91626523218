import Polyadic.InPlace.Expansion

/-! # Sessions

A session answers one question after another on one recorder, and lets the steps of the last answer
be read.  It may be told at any time to keep steps from then on. -/

namespace Polyadic

/-- A question to a matching session. -/
inductive MatchQuery where
  | parameters (formal : ParameterList) (arguments : List TypeExpr)
  | type (formal actual : TypeExpr)
  | anchored (formal : ParameterList) (arguments : List TypeExpr) (anchors : List Anchor)
  | call (signature : Signature) (call : Call)
deriving DecidableEq, Repr

/-- The work on a question about matching, up to the binding that it ends with. -/
def MatchQuery.attempt (q : MatchQuery) : Work Binding := do
  match q with
  | parameters formal arguments => InPlace.matchAnchored formal arguments []
  | type formal actual => InPlace.unify formal actual
  | anchored formal arguments anchors => InPlace.matchAnchored formal arguments anchors
  | call s c => InPlace.matchCall s c
  InPlace.binding

/-- A question to an expansion session. -/
inductive ExpansionQuery where
  | expansion (a : Alias) (arguments : List TypeExpr)
  | references (t : TypeExpr)
deriving DecidableEq, Repr

/-- The work on a question about expansion. -/
def ExpansionQuery.attempt (scope : Scope) (depth : Nat) : ExpansionQuery → Work TypeExpr
  | expansion a arguments => InPlace.expandAlias scope depth a arguments
  | references t => InPlace.expandReferences scope depth t

/-! ### Runs -/

/-- What a session may be told to do: to keep steps from now on, or to answer a question. -/
inductive Command (κ : Type) where
  | enable
  | ask (question : κ)
deriving DecidableEq, Repr

/-- What a session shows after a command: its answer, if it was asked something, and the steps that
it has kept. -/
structure Response (α : Type) where
  result : Option (Except Failure α)
  steps : List (Nat × Step)

section runs

variable {κ α : Type} (attempt : κ → Work α)

/-- Carries out a command. -/
def Recorder.step (r : Recorder) : Command κ → Response α × Recorder
  | .enable => (⟨none, r.enable.steps⟩, r.enable)
  | .ask q =>
    let (result, r) := r.record (attempt q)
    (⟨some result, r.steps⟩, r)

/-- Carries out commands one after another. -/
def Recorder.run (r : Recorder) : List (Command κ) → List (Response α)
  | [] => []
  | c :: cs =>
    let (response, r) := r.step attempt c
    response :: r.run cs

end runs

end Polyadic
