import Polyadic.Matching.Assignment
import Polyadic.Matching.Length
import Polyadic.Peeling

/-! # Matching a row of slots against a list of arguments

The slots whose lengths are known are taken off both ends of the row (`nextMove`), and with each of
them its run of arguments.  A slot taken may bind a tuple variable, and so make other slots known.
When neither end is known, the arguments that remain are shared evenly between the occurrences of
the one open tuple variable; two open tuple variables leave the split undetermined.

How two single types are matched is a parameter here, so that it may be the matching of types
itself, which needs `matchList` for its lists. -/

namespace Polyadic

open Attempt

/-! ### Single slots -/

/-- A way of matching a formal type against an actual type, from a binding to a larger one. -/
abbrev Unifier := TypeExpr → TypeExpr → Binding → Attempt Binding

section

variable (unify : Unifier) (place : Nat → Segment)

/-- Matches types pairwise, from the given index on. -/
def unifyEach : Nat → List TypeExpr → List TypeExpr → Binding → Attempt Binding
  | i, f :: fs, a :: as, b => do
    let b ← (unify f a b).under (place i)
    unifyEach (i + 1) fs as b
  | _, _, _, b => return b

/-- Matches a constructor against that of every argument, from the given index on.  Every argument
has to be an application to one argument. -/
def stripEach (ctor : TypeExpr) (ts : TupleVar) : Nat → List TypeExpr → Binding → Attempt Binding
  | _, [], b => return b
  | i, actual :: rest, b => do
    let b ← Attempt.under (place i) <|
      match actual.unary? with
      | some (head, _) => (unify ctor head b).under .ctor
      | none => mismatch (.apply ctor [.spread ts]) actual
    stripEach ctor ts (i + 1) rest b

/-- Matches a slot against its run of arguments.  A mapped slot is expanded if its tuple variable is
bound, and otherwise solved for it. -/
def matchSlot (slot : Slot) (run : Run) (b : Binding) : Attempt Binding :=
  match slot with
  | .single formal => unifyEach unify place run.start [formal] run.types b
  | .spread ts => (assignTuple ts run.types b).under (place run.start)
  | .mapped ctor ts =>
    match b.tuple? ts with
    | some contents => do
      log (.expandMap ctor ts run.types (TypeExpr.mapOver ctor contents))
      unifyEach unify place run.start (TypeExpr.mapOver ctor contents) run.types b
    | none => do
      log (.invertMap ctor ts run.types)
      let b ← stripEach unify place ctor ts run.start run.types b
      assignTuple ts (run.types.filterMap fun t => t.unary?.map Prod.snd) b

/-! ### Rows of slots -/

/-- The failure of a row that is given too few or too many arguments. -/
def wrongArity {α : Type} (b : Binding) (slots : List Slot) (found : Nat) : Attempt α :=
  fail (.arity (listArity b slots) found)

/-- Shares the available arguments of a run evenly between the occurrences of a tuple variable. -/
def shareEvenly (slots : List Slot) (run : Run) (available occurrences : Nat) : Attempt Nat :=
  if available % occurrences ≠ 0 then fail (.arity (.multipleOf occurrences) available)
  else if 1 < occurrences then do
    log (.splitEvenly slots run.types available occurrences)
    return available / occurrences
  else return available / occurrences

/-- The number of arguments that each occurrence of the one open tuple variable takes, when the
known slots of a row have had theirs. -/
def evenShare (slots : List Slot) (run : Run) (b : Binding) : Attempt Nat :=
  if 1 < (openTuples b slots).length then do
    log (.severalOpen slots run.types)
    fail (.ambiguousSplit (openTuples b slots))
  else if run.length < requiredLength b slots then wrongArity b slots run.length
  else shareEvenly slots run (run.length - requiredLength b slots) (openCount b slots)

/-- What is left of a row and of its arguments, with the end of the last move and the binding so
far. -/
structure Window where
  side : Side
  slots : List Slot
  run : Run
  binding : Binding

namespace Window

/-- All of a row and all of its arguments. -/
def whole (slots : List Slot) (arguments : List TypeExpr) (b : Binding) : Window :=
  ⟨.front, slots, ⟨0, arguments⟩, b⟩

end Window

/-- Takes the next slot off a row, with its run of arguments. -/
def takeSlot (w : Window) : Attempt Window :=
  match nextMove (fun s => !s.isOpen w.binding) w.side w.slots with
  | .done => return w
  | .front slot rest =>
    if w.run.length < slot.width w.binding then wrongArity w.binding w.slots w.run.length
    else do
      let b ← matchSlot unify place slot (w.run.first (slot.width w.binding)) w.binding
      return ⟨.front, rest, w.run.after (slot.width w.binding), b⟩
  | .back rest slot =>
    if w.run.length < slot.width w.binding then wrongArity w.binding w.slots w.run.length
    else do
      let b ← matchSlot unify place slot
        (w.run.after (w.run.length - slot.width w.binding)) w.binding
      return ⟨.back, rest, w.run.first (w.run.length - slot.width w.binding), b⟩
  | .stuck slot rest => do
    let width ← evenShare w.slots w.run w.binding
    let b ← matchSlot unify place slot (w.run.first width) w.binding
    return ⟨.front, rest, w.run.after width, b⟩

/-- Takes `n` slots off a row. -/
def takeSlots : Nat → Window → Attempt Window
  | 0, w => return w
  | n + 1, w => do
    let w ← takeSlot unify place w
    takeSlots n w

/-- Matches a row of slots against a list of arguments. -/
def matchList (slots : List Slot) (arguments : List TypeExpr) (b : Binding) : Attempt Binding :=
  if (listArity b slots).Admits arguments.length then do
    let w ← takeSlots unify place slots.length (.whole slots arguments b)
    if w.run.types.isEmpty then return w.binding
    else fail (.arity (.exactly (requiredLength w.binding slots)) arguments.length)
  else wrongArity b slots arguments.length

end

end Polyadic
