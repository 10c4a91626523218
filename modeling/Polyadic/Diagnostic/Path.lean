/-! # Positions inside a declaration or a call

A path leads from the outermost list, type or keyword down to a position inside it.  It is written
as `param[1].arg[0]`. -/

namespace Polyadic

/-- One step down. -/
inductive Segment where
  /-- Into a position of the outermost parameter list. -/
  | param (index : Nat)
  /-- Into the keyword parameter of that name. -/
  | keyword (name : String)
  /-- Into the anchor of that number. -/
  | anchor (index : Nat)
  /-- Into the constructor of an application. -/
  | ctor
  /-- Into an argument of an application. -/
  | arg (index : Nat)
  /-- Into a parameter of a callable type. -/
  | callableParam (index : Nat)
  /-- Into the result of a callable type. -/
  | result
  /-- Into a member of a union. -/
  | member (index : Nat)
  /-- Into an element of a wrapped tuple. -/
  | element (index : Nat)
deriving DecidableEq, Repr

/-- A position, from the outermost step to the innermost. -/
abbrev Path := List Segment

/-- The text of one step. -/
def Segment.text : Segment → String
  | .param i => s!"param[{i}]"
  | .keyword name => s!"keyword[{name}]"
  | .anchor i => s!"anchor[{i}]"
  | .ctor => "ctor"
  | .arg i => s!"arg[{i}]"
  | .callableParam i => s!"callable_param[{i}]"
  | .result => "return"
  | .member i => s!"member[{i}]"
  | .element i => s!"element[{i}]"

/-- The text of a path; the empty one is `<root>`. -/
def Path.text : Path → String
  | [] => "<root>"
  | path => ".".intercalate (path.map Segment.text)

end Polyadic
