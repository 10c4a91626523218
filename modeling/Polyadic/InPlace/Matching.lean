import Polyadic.InPlace.Recorder
import Polyadic.Matching.Call

/-! # Matching in place

Matching as a session does it.  It reads and changes the binding of the recorder and keeps the
position there too, while `Polyadic.unify` and the functions around it hand a binding on from one
step to the next.  The two agree, and so nothing that a session did before has an influence. -/

namespace Polyadic.InPlace

open Work

/-- The binding so far. -/
def binding : Work Binding := return (← get).binding

/-- Changes the binding. -/
def rebind (f : Binding → Binding) : Work Unit := modify fun r => { r with binding := f r.binding }

/-! ### Assigning variables -/

/-- Gives a scalar variable its type. -/
def assignScalar (v : TypeVar) (t : TypeExpr) : Work Unit := do
  match (← binding).scalar? v with
  | none =>
    note (.bindScalar v t)
    rebind fun b => b.bindScalar v t
  | some previous =>
    if previous ≠ t then
      note (.scalarConflict v previous t)
      fail (.conflict (.scalar v) previous t)

/-- Gives a tuple variable its sequence. -/
def assignTuple (ts : TupleVar) (contents : List TypeExpr) : Work Unit := do
  match (← binding).tuple? ts with
  | none =>
    noteIfEnabled (.bindTuple ts contents)
    rebind fun b => b.bindTuple ts contents
  | some previous =>
    if previous ≠ contents then
      note (.tupleConflict ts previous contents)
      fail (.conflict (.tuple ts) (.tuple previous) (.tuple contents))

/-- A type that does not have the expected form. -/
def mismatch (expected actual : TypeExpr) : Work Unit := do
  note (.mismatch expected actual)
  fail (.mismatch expected actual)

/-! ### Slots -/

/-- A way of matching a formal type against an actual type, which changes the binding. -/
abbrev Unifier := TypeExpr → TypeExpr → Work Unit

section

variable (unify : Unifier) (place : Nat → Segment)

/-- Matches types pairwise, from the given index on. -/
def unifyEach : Nat → List TypeExpr → List TypeExpr → Work Unit
  | i, f :: fs, a :: as => do
    under (place i) (unify f a)
    unifyEach (i + 1) fs as
  | _, _, _ => return ()

/-- Matches a constructor against that of every argument, from the given index on. -/
def stripEach (ctor : TypeExpr) (ts : TupleVar) : Nat → List TypeExpr → Work Unit
  | _, [] => return ()
  | i, actual :: rest => do
    under (place i) <|
      match actual.unary? with
      | some (head, _) => under .ctor (unify ctor head)
      | none => mismatch (.apply ctor [.spread ts]) actual
    stripEach ctor ts (i + 1) rest

/-- Matches a slot against its run of arguments. -/
def matchSlot (slot : Slot) (run : Run) : Work Unit := do
  match slot with
  | .single formal => unifyEach unify place run.start [formal] run.types
  | .spread ts => under (place run.start) (assignTuple ts run.types)
  | .mapped ctor ts =>
    match (← binding).tuple? ts with
    | some contents =>
      noteIfEnabled (.expandMap ctor ts run.types (TypeExpr.mapOver ctor contents))
      unifyEach unify place run.start (TypeExpr.mapOver ctor contents) run.types
    | none =>
      noteIfEnabled (.invertMap ctor ts run.types)
      stripEach unify place ctor ts run.start run.types
      assignTuple ts (run.types.filterMap fun t => t.unary?.map Prod.snd)

/-! ### Rows of slots -/

/-- The failure of a row that is given too few or too many arguments. -/
def wrongArity {α : Type} (slots : List Slot) (found : Nat) : Work α := do
  fail (.arity (listArity (← binding) slots) found)

/-- Shares the available arguments of a run evenly between the occurrences of a tuple variable. -/
def shareEvenly (slots : List Slot) (run : Run) (available occurrences : Nat) : Work Nat := do
  if available % occurrences ≠ 0 then fail (.arity (.multipleOf occurrences) available)
  else if 1 < occurrences then
    noteIfEnabled (.splitEvenly slots run.types available occurrences)
    return available / occurrences
  else return available / occurrences

/-- The number of arguments that each occurrence of the one open tuple variable takes, when the
known slots of a row have had theirs. -/
def evenShare (slots : List Slot) (run : Run) : Work Nat := do
  let b ← binding
  if 1 < (openTuples b slots).length then
    noteIfEnabled (.severalOpen slots run.types)
    fail (.ambiguousSplit (openTuples b slots))
  else if run.length < requiredLength b slots then wrongArity slots run.length
  else shareEvenly slots run (run.length - requiredLength b slots) (openCount b slots)

/-- What is left of a row and of its arguments, with the end of the last move. -/
structure Frame where
  side : Side
  slots : List Slot
  run : Run

/-- Takes the next slot off a row, with its run of arguments. -/
def takeSlot (w : Frame) : Work Frame := do
  let b ← binding
  match nextMove (fun s => !s.isOpen b) w.side w.slots with
  | .done => return w
  | .front slot rest =>
    if w.run.length < slot.width b then wrongArity w.slots w.run.length
    else
      matchSlot unify place slot (w.run.first (slot.width b))
      return ⟨.front, rest, w.run.after (slot.width b)⟩
  | .back rest slot =>
    if w.run.length < slot.width b then wrongArity w.slots w.run.length
    else
      matchSlot unify place slot (w.run.after (w.run.length - slot.width b))
      return ⟨.back, rest, w.run.first (w.run.length - slot.width b)⟩
  | .stuck slot rest =>
    let width ← evenShare w.slots w.run
    matchSlot unify place slot (w.run.first width)
    return ⟨.front, rest, w.run.after width⟩

/-- Takes `n` slots off a row. -/
def takeSlots : Nat → Frame → Work Frame
  | 0, w => return w
  | n + 1, w => do
    let w ← takeSlot unify place w
    takeSlots n w

/-- Matches a row of slots against a list of arguments. -/
def matchList (slots : List Slot) (arguments : List TypeExpr) : Work Unit := do
  if (listArity (← binding) slots).Admits arguments.length then
    let w ← takeSlots unify place slots.length ⟨.front, slots, ⟨0, arguments⟩⟩
    if ¬w.run.types.isEmpty then
      fail (.arity (.exactly (requiredLength (← binding) slots)) arguments.length)
  else wrongArity slots arguments.length

end

/-! ### Types -/

/-- One level of matching two types. -/
def unifyStep (unify : Unifier) (formal actual : TypeExpr) : Work Unit := do
  match formal, actual with
  | .var v, _ => assignScalar v actual
  | .packed ts, _ =>
    match actual.tupleElements? with
    | some elements =>
      note (.decompose formal actual)
      matchList unify .element [.spread ts] elements
    | none => mismatch formal actual
  | .apply head args, .packed us =>
    if head = .named TypeExpr.tupleName then
      matchList unify .element (args.map Slot.ofType) [.spread us]
    else mismatch formal actual
  | .apply head args, .apply head' args' =>
    note (.decompose formal actual)
    under .ctor (unify head head')
    matchList unify .arg (args.map Slot.ofType) args'
  | .arrow params result, .arrow params' result' =>
    note (.decompose formal actual)
    matchList unify .callableParam (params.map Slot.ofType) params'
    under .result (unify result result')
  | .union members, .union members' =>
    note (.decompose formal actual)
    matchList unify .member (members.map Slot.ofType) members'
  | _, _ =>
    if formal = actual then note (.identity formal)
    else mismatch formal actual

/-- Matching of actual types up to a weight. -/
def unifyWithin : Nat → Unifier
  | 0 => mismatch
  | n + 1 => unifyStep (unifyWithin n)

/-- Matches a formal type against an actual type. -/
def unify : Unifier := fun formal actual => unifyWithin actual.weight formal actual

/-! ### Parameter lists and calls -/

/-- Matches an anchor. -/
def solveAnchor (formal actual : TypeExpr) : Work Unit := do
  let b ← binding
  let bound := formal.tupleVars.filter fun ts => (b.tuple? ts).isSome
  note (.solveAnchor formal actual)
  (unify formal actual).adaptExcept fun e => { e with cause := anchorCause bound e.cause }

/-- Matches anchors one after another, from the given number on. -/
def solveAnchors : Nat → List Anchor → Work Unit
  | _, [] => return ()
  | i, anchor :: rest => do
    under (.anchor i) (solveAnchor anchor.formal anchor.actual)
    solveAnchors (i + 1) rest

/-- Matches a parameter list after its anchors. -/
def matchAnchored (formal : ParameterList) (arguments : List TypeExpr) (anchors : List Anchor) :
    Work Unit := do
  solveAnchors 0 anchors
  matchList unify .param formal.slots arguments

/-- Matches the declared keywords of a call in the order of their declaration; each of them has to
be passed. -/
def solveKeywords (function : String) (call : Call) : List (String × TypeExpr) → Work Unit
  | [] => return ()
  | (name, formal) :: rest => do
    under (.keyword name) <|
      match call.keyword? name with
      | some actual => solveAnchor formal actual
      | none => fail (.missingKeyword function name)
    solveKeywords function call rest

/-- Matches the further keywords of a call in the order of the call. -/
def collectKeywords (function : String) (kwargs : Option TypeExpr) :
    List (String × TypeExpr) → Work Unit
  | [] => return ()
  | (name, actual) :: rest => do
    under (.keyword name) <|
      match kwargs with
      | some formal => unify formal actual
      | none => fail (.unexpectedKeyword function name)
    collectKeywords function kwargs rest

/-- Matches a call: the declared keywords, then the further ones, then the positional list. -/
def matchCall (s : Signature) (call : Call) : Work Unit := do
  solveKeywords s.name call s.keywords
  collectKeywords s.name s.kwargs (call.extraKeywords s)
  matchList unify .param s.positional.slots call.positional

end Polyadic.InPlace
