import Std.Data.ExtTreeMap
import Polyadic.TypeExpr.Variables
import Polyadic.TypeExpr.Text

/-! # Bindings

A binding assigns types to scalar variables and sequences of types to tuple variables.  Two
bindings are equal when they assign the same to every variable (`Binding.ext_lookup`). -/

namespace Polyadic

/-- An assignment of types to scalar variables and of sequences of types to tuple variables. -/
structure Binding where
  scalars : Std.ExtTreeMap TypeVar TypeExpr := ∅
  tuples : Std.ExtTreeMap TupleVar (List TypeExpr) := ∅
deriving DecidableEq

namespace Binding

/-- The binding that assigns nothing. -/
def empty : Binding := {}

instance : Inhabited Binding := ⟨empty⟩

/-- The type assigned to a scalar variable. -/
def scalar? (b : Binding) (v : TypeVar) : Option TypeExpr := b.scalars[v]?

/-- The sequence assigned to a tuple variable. -/
def tuple? (b : Binding) (ts : TupleVar) : Option (List TypeExpr) := b.tuples[ts]?

/-- Assigns a type to a scalar variable, over what it had. -/
def bindScalar (b : Binding) (v : TypeVar) (t : TypeExpr) : Binding :=
  { b with scalars := b.scalars.insert v t }

/-- Assigns a sequence to a tuple variable, over what it had. -/
def bindTuple (b : Binding) (ts : TupleVar) (contents : List TypeExpr) : Binding :=
  { b with tuples := b.tuples.insert ts contents }

/-- Whether nothing is assigned. -/
def isEmpty (b : Binding) : Bool := b.scalars.isEmpty && b.tuples.isEmpty

/-! ### Lookups -/

@[simp] theorem scalar?_empty (v : TypeVar) : empty.scalar? v = none := by
  simp [scalar?, empty]

@[simp] theorem tuple?_empty (ts : TupleVar) : empty.tuple? ts = none := by
  simp [tuple?, empty]

theorem scalar?_bindScalar (b : Binding) (v w : TypeVar) (t : TypeExpr) :
    (b.bindScalar v t).scalar? w = if v = w then some t else b.scalar? w := by
  simp [scalar?, bindScalar, Std.ExtTreeMap.getElem?_insert]

@[simp] theorem tuple?_bindScalar (b : Binding) (v : TypeVar) (t : TypeExpr) (ts : TupleVar) :
    (b.bindScalar v t).tuple? ts = b.tuple? ts := rfl

theorem tuple?_bindTuple (b : Binding) (ts us : TupleVar) (contents : List TypeExpr) :
    (b.bindTuple ts contents).tuple? us = if ts = us then some contents else b.tuple? us := by
  simp [tuple?, bindTuple, Std.ExtTreeMap.getElem?_insert]

@[simp] theorem scalar?_bindTuple (b : Binding) (ts : TupleVar) (contents : List TypeExpr)
    (v : TypeVar) : (b.bindTuple ts contents).scalar? v = b.scalar? v := rfl

theorem ext_lookup {a b : Binding} (scalars : ∀ v, a.scalar? v = b.scalar? v)
    (tuples : ∀ ts, a.tuple? ts = b.tuple? ts) : a = b := by
  cases a; cases b
  have hs := Std.ExtTreeMap.ext_getElem? scalars
  have ht := Std.ExtTreeMap.ext_getElem? tuples
  simp only at hs ht
  rw [hs, ht]

/-! ### Text -/

/-- A sequence of types in parentheses, with a comma after a lone element. -/
def contentsText (contents : List TypeExpr) : String :=
  "(" ++ ", ".intercalate (contents.map TypeExpr.text)
    ++ (if contents.length = 1 then "," else "") ++ ")"

/-- The assignments in braces, scalar variables first and each kind ascending. -/
def text (b : Binding) : String :=
  let scalars := b.scalars.toList.map fun (v, t) => v.text ++ " = " ++ t.text
  let tuples := b.tuples.toList.map fun (ts, contents) => ts.text ++ " = " ++ contentsText contents
  "\x7b" ++ ", ".intercalate (scalars ++ tuples) ++ "\x7d"

end Binding

end Polyadic
