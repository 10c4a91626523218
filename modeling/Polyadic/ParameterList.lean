import Polyadic.TypeExpr.Variables
import Polyadic.TypeExpr.Text

/-! # Parameter lists

A parameter list is a row of slots.  A `single` slot takes one argument; a `spread` or `mapped` slot
takes a contiguous, possibly empty run of arguments.  Every list of types can be read as a parameter
list (`ofTypes`): its spliced elements become the slots that take runs. -/

namespace Polyadic

/-- One position of a parameter list. -/
inductive Slot where
  /-- Takes exactly one argument. -/
  | single (type : TypeExpr)
  /-- Takes the run of arguments that the tuple variable stands for. -/
  | spread (ts : TupleVar)
  /-- Takes the constructor applied to each element of the tuple variable. -/
  | mapped (ctor : TypeExpr) (ts : TupleVar)
deriving DecidableEq, Repr

namespace Slot

/-- Reads an element of a list of types as a slot. -/
def ofType : TypeExpr → Slot
  | .spread ts => .spread ts
  | .spreadMap ctor ts => .mapped ctor ts
  | t => .single t

/-- The type that stands for a slot in a list of types. -/
def toType : Slot → TypeExpr
  | .single t => t
  | .spread ts => .spread ts
  | .mapped ctor ts => .spreadMap ctor ts

@[simp] theorem toType_ofType (t : TypeExpr) : (ofType t).toType = t := by
  cases t <;> rfl

/-- The tuple variable whose sequence a slot takes. -/
def tuple? : Slot → Option TupleVar
  | .single _ => none
  | .spread ts | .mapped _ ts => some ts

/-- Whether a slot takes a run of arguments. -/
def takesRun (s : Slot) : Bool := s.tuple?.isSome

/-- The scalar variable that a slot is. -/
def scalar? : Slot → Option TypeVar
  | .single (.var v) => some v
  | _ => none

/-- The text of a slot. -/
def text (s : Slot) : String := s.toType.text

end Slot

/-- A parameter list. -/
structure ParameterList where
  slots : List Slot := []
deriving DecidableEq, Repr, Inhabited

namespace ParameterList

/-- Reads a list of types as a parameter list. -/
def ofTypes (types : List TypeExpr) : ParameterList := ⟨types.map Slot.ofType⟩

/-- The types of the slots. -/
def toTypes (list : ParameterList) : List TypeExpr := list.slots.map Slot.toType

@[simp] theorem toTypes_ofTypes (types : List TypeExpr) : (ofTypes types).toTypes = types := by
  simp [toTypes, ofTypes, Function.comp_def]

/-- The distinct tuple variables mentioned anywhere in the list, in any form, by first mention. -/
def tupleVars (list : ParameterList) : List TupleVar :=
  (list.toTypes.flatMap TypeExpr.tupleMentions).eraseDups

/-- The distinct scalar variables that are slots of their own, by first occurrence. -/
def scalarSlots (list : ParameterList) : List TypeVar :=
  (list.slots.filterMap Slot.scalar?).eraseDups

/-- The text of a parameter list. -/
def text (list : ParameterList) : String :=
  "(" ++ ", ".intercalate (list.slots.map Slot.text) ++ ")"

end ParameterList

end Polyadic
