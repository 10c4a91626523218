import Polyadic.Diagnostic
import Polyadic.TypeExpr.Text

/-! # Failures

Why a match, an expansion or a declaration did not go through.  A failure is a cause together with
its position.  The position is relative to the thing being worked on: whoever works on a part of
something larger puts the way to the part in front (`Failure.under`). -/

namespace Polyadic

/-- The number of arguments that a list takes. -/
inductive Arity where
  | exactly (n : Nat)
  | atLeast (n : Nat)
  | multipleOf (n : Nat)
deriving DecidableEq, Repr

/-- The text of an arity. -/
def Arity.text : Arity → String
  | .exactly n => s!"exactly {n}"
  | .atLeast n => s!"at least {n}"
  | .multipleOf n => s!"a multiple of {n}"

/-- Whether a number of arguments fits. -/
def Arity.Admits : Arity → Nat → Prop
  | .exactly n, found => found = n
  | .atLeast n, found => n ≤ found
  | .multipleOf n, found => n ∣ found

instance (a : Arity) (found : Nat) : Decidable (a.Admits found) := by
  cases a <;> unfold Arity.Admits <;> infer_instance

/-- What went wrong. -/
inductive Cause where
  /-- A list was given a number of arguments that it does not take. -/
  | arity (expected : Arity) (found : Nat)
  /-- A call leaves out a declared keyword. -/
  | missingKeyword (function name : String)
  /-- A call passes a keyword that the function does not take. -/
  | unexpectedKeyword (function name : String)
  /-- A type does not have the expected form. -/
  | mismatch (expected actual : TypeExpr)
  /-- A variable would be bound a second time, to something else. -/
  | conflict (subject : Variable) (previous found : TypeExpr)
  /-- Several tuple variables have to share a run, and their lengths are unknown. -/
  | ambiguousSplit (tuples : List TupleVar)
  /-- An alias was given fewer arguments than it has scalar parameters. -/
  | tooFewArguments (name : String) (expected found : Nat)
  /-- A union was left without members. -/
  | emptyUnion
  /-- An alias was reached again inside its own expansion, or too many were open at once. -/
  | recursiveAlias (name : String) (chain : List String)
  /-- A tuple variable annotates the parameter that collects further keywords. -/
  | kwargsTuple (function : String) (type : TypeExpr)
  /-- The parameters of an alias mention several tuple variables. -/
  | severalTuples (name : String) (tuples : List TupleVar)
  /-- The name was declared before. -/
  | duplicate (name : String)
deriving DecidableEq, Repr

namespace Cause

/-- Whether a cause has a position inside a declaration or a call; the others concern a declaration
as a whole. -/
def isLocated : Cause → Bool
  | tooFewArguments .. | recursiveAlias .. | kwargsTuple .. | severalTuples .. | duplicate .. =>
    false
  | _ => true

/-- The category under which a cause is reported. -/
def category : Cause → Category
  | arity .. | missingKeyword .. | unexpectedKeyword .. => .arityMismatch
  | mismatch .. => .typeMismatch
  | conflict .. => .inconsistent
  | ambiguousSplit .. => .ambiguousSplit
  | tooFewArguments .. => .tooFewArguments
  | emptyUnion => .emptyUnion
  | recursiveAlias .. => .recursiveAlias
  | kwargsTuple .. => .invalidKwargsUsage
  | severalTuples .. => .multipleDistinctTupleInAlias
  | duplicate .. => .duplicateDeclaration

/-- Tuple variables in quotes, joined by `and`. -/
def quotedTuples (tuples : List TupleVar) : String :=
  " and ".intercalate (tuples.map fun ts => "`" ++ ts.text ++ "`")

/-- What a cause says. -/
def message : Cause → String
  | arity expected found => s!"expected {expected.text} argument(s), got {found}"
  | missingKeyword function name => s!"`{function}` requires keyword argument `{name}`"
  | unexpectedKeyword function name => s!"`{function}` takes no keyword argument `{name}`"
  | mismatch expected actual =>
    s!"type mismatch: expected `{expected.text}`, got `{actual.text}`"
  | conflict subject previous found =>
    s!"`{subject.text}` is already bound to `{previous.text}`, cannot rebind it to `{found.text}`"
  | ambiguousSplit tuples => "ambiguous split between " ++ quotedTuples tuples
  | tooFewArguments name expected found =>
    s!"alias `{name}` expects at least {expected} type argument(s), got {found}"
  | emptyUnion => "union has no members"
  | recursiveAlias name chain =>
    s!"alias `{name}` expands recursively: " ++ " -> ".intercalate chain
  | kwargsTuple function type =>
    s!"`**kwargs` of `{function}` cannot be annotated with tuple variable `{type.text}`"
  | severalTuples name tuples =>
    s!"alias `{name}` uses distinct tuple variables " ++ quotedTuples tuples
  | duplicate name => s!"`{name}` is already declared"

/-- What to do about a cause: the advice of its category, unless the cause allows a more definite
one. -/
def help : Cause → String
  | ambiguousSplit tuples =>
    let subject := match tuples with
      | [] => "one tuple variable"
      | ts :: _ => "`" ++ ts.text ++ "`"
    s!"give {subject} a separate parameter so its length is known before the split"
  | missingKeyword _ name => s!"Pass `{name}` as a keyword argument."
  | unexpectedKeyword function name => s!"Remove `{name}` or declare `**kwargs` on `{function}`."
  | cause => cause.category.fix

end Cause

/-- A cause and its position. -/
structure Failure where
  cause : Cause
  path : Path := []
deriving DecidableEq, Repr

namespace Failure

/-- A cause at a position; one that concerns a whole declaration has the empty path. -/
def ofCause (cause : Cause) (path : Path) : Failure := ⟨cause, if cause.isLocated then path else []⟩

/-- The failure as seen from one step further out. -/
def under (segment : Segment) (f : Failure) : Failure := { f with path := segment :: f.path }

@[simp] theorem cause_under (segment : Segment) (f : Failure) :
    (f.under segment).cause = f.cause := rfl

@[simp] theorem path_under (segment : Segment) (f : Failure) :
    (f.under segment).path = segment :: f.path := rfl

/-- The report of a failure. -/
def diagnostic (f : Failure) : Diagnostic :=
  .ofCategory f.cause.category f.cause.message f.path (some f.cause.help)

end Failure

/-! ### Results of parts -/

variable {α : Type}

/-- The result of working on a part, seen from one step further out. -/
def within (segment : Segment) : Except Failure α → Except Failure α
  | .ok a => .ok a
  | .error e => .error (e.under segment)

theorem within_eq_ok_iff {segment : Segment} {x : Except Failure α} {a : α} :
    within segment x = .ok a ↔ x = .ok a := by
  cases x <;> simp [within]

theorem within_eq_error_iff {segment : Segment} {x : Except Failure α} {e : Failure} :
    within segment x = .error e ↔ ∃ f, x = .error f ∧ e = f.under segment := by
  cases x <;> simp [within, eq_comm]

/-- The same result with another account of why it failed. -/
def recast (f : Cause → Cause) : Except Failure α → Except Failure α
  | .ok a => .ok a
  | .error e => .error { e with cause := f e.cause }

theorem recast_eq_ok_iff {f : Cause → Cause} {x : Except Failure α} {a : α} :
    recast f x = .ok a ↔ x = .ok a := by
  cases x <;> simp [recast]

theorem recast_eq_error_iff {f : Cause → Cause} {x : Except Failure α} {e : Failure} :
    recast f x = .error e ↔ ∃ e', x = .error e' ∧ e = ⟨f e'.cause, e'.path⟩ := by
  cases x <;> simp [recast, eq_comm]

end Polyadic
