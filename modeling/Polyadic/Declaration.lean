import Polyadic.ParameterList

/-! # Declarations and calls

An alias is a named template with parameters, a signature is a function as its callers see it, and a
call is what they pass.  Both may be declared, as may the variables that occur in them. -/

namespace Polyadic

/-- A named template, as in `Pair[T, *Ts] = tuple[T, list[*Ts]]`. -/
structure Alias where
  name : String
  formal : ParameterList
  body : TypeExpr
deriving DecidableEq, Repr

/-- A function.  The spliced parameter that collects further positional arguments is a slot of
`positional`; `kwargs` is the type of every further keyword argument. -/
structure Signature where
  name : String
  positional : ParameterList
  keywords : List (String × TypeExpr) := []
  kwargs : Option TypeExpr := none
  result : TypeExpr
deriving DecidableEq, Repr

namespace Signature

/-- The types of the keyword parameters, as declared. -/
def siblings (s : Signature) : List TypeExpr := s.keywords.map Prod.snd

/-- Whether a keyword is declared. -/
def declares (s : Signature) (name : String) : Bool := s.keywords.any (·.1 == name)

end Signature

/-- The types of the arguments of a call. -/
structure Call where
  positional : List TypeExpr
  keywords : List (String × TypeExpr) := []
deriving DecidableEq, Repr

namespace Call

/-- The first argument passed under a keyword. -/
def keyword? (c : Call) (name : String) : Option TypeExpr := c.keywords.lookup name

/-- The keyword arguments that a signature does not declare, in order. -/
def extraKeywords (c : Call) (s : Signature) : List (String × TypeExpr) :=
  c.keywords.filter fun (name, _) => !s.declares name

end Call

/-- Something to declare. -/
inductive Declaration where
  | scalar (name : String)
  | tuple (name : String)
  | template (a : Alias)
  | function (s : Signature)
deriving DecidableEq, Repr

end Polyadic
