import Std.Data.ExtTreeSet
import Polyadic.TypeExpr.Basic

/-! # Nodes and variables of a type

`nodes` lists a type and everything inside it in pre-order.  The variables of a type are read off
that list: `tupleMentions` and `scalarMentions` keep the order and the repetitions, `tupleVars` and
`scalarVars` are ascending and without repetition. -/

namespace Polyadic

/-! ### Order of variables -/

instance : Ord TypeVar := ⟨fun v w => compare v.id w.id⟩
instance : Ord TupleVar := ⟨fun ts us => compare ts.id us.id⟩

instance : Std.LawfulEqOrd TypeVar where
  compare_self := Std.ReflOrd.compare_self (α := UInt32)
  eq_of_compare {v w} h := by
    cases v; cases w
    exact congrArg TypeVar.mk (Std.LawfulEqOrd.eq_of_compare (α := UInt32) h)

instance : Std.TransOrd TypeVar where
  eq_swap {v w} := Std.OrientedOrd.eq_swap (a := v.id) (b := w.id)
  isLE_trans {u v w} := Std.TransOrd.isLE_trans (a := u.id) (b := v.id) (c := w.id)

instance : Std.LawfulEqOrd TupleVar where
  compare_self := Std.ReflOrd.compare_self (α := UInt32)
  eq_of_compare {ts us} h := by
    cases ts; cases us
    exact congrArg TupleVar.mk (Std.LawfulEqOrd.eq_of_compare (α := UInt32) h)

instance : Std.TransOrd TupleVar where
  eq_swap {ts us} := Std.OrientedOrd.eq_swap (a := ts.id) (b := us.id)
  isLE_trans {rs ts us} := Std.TransOrd.isLE_trans (a := rs.id) (b := ts.id) (c := us.id)

namespace TypeExpr

/-! ### Nodes -/

mutual

/-- The type and every type inside it, in pre-order. -/
def nodes : TypeExpr → List TypeExpr
  | .named name => [.named name]
  | .var v => [.var v]
  | .packed ts => [.packed ts]
  | .spread ts => [.spread ts]
  | .spreadMap ctor ts => .spreadMap ctor ts :: ctor.nodes
  | .apply head args => .apply head args :: (head.nodes ++ allNodes args)
  | .union members => .union members :: allNodes members
  | .arrow params result => .arrow params result :: (allNodes params ++ result.nodes)

/-- The nodes of the types of a list, one after another. -/
def allNodes : List TypeExpr → List TypeExpr
  | [] => []
  | t :: ts => t.nodes ++ allNodes ts

end

theorem allNodes_eq_flatMap (ts : List TypeExpr) : allNodes ts = ts.flatMap nodes := by
  induction ts with
  | nil => rfl
  | cons t ts ih => simp [allNodes, ih]

theorem self_mem_nodes (t : TypeExpr) : t ∈ t.nodes := by cases t <;> simp [nodes]

/-! ### Variables -/

/-- The tuple variable that a node itself mentions, in whatever form. -/
def ownTuple? : TypeExpr → Option TupleVar
  | .packed ts | .spread ts | .spreadMap _ ts => some ts
  | _ => none

/-- The scalar variable that a node is. -/
def ownScalar? : TypeExpr → Option TypeVar
  | .var v => some v
  | _ => none

/-- Every mention of a tuple variable, in pre-order. -/
def tupleMentions (t : TypeExpr) : List TupleVar := t.nodes.filterMap ownTuple?

/-- Every mention of a scalar variable, in pre-order. -/
def scalarMentions (t : TypeExpr) : List TypeVar := t.nodes.filterMap ownScalar?

/-- The tuple variables of a type, ascending. -/
def tupleVars (t : TypeExpr) : List TupleVar := (Std.ExtTreeSet.ofList t.tupleMentions).toList

/-- The scalar variables of a type, ascending. -/
def scalarVars (t : TypeExpr) : List TypeVar := (Std.ExtTreeSet.ofList t.scalarMentions).toList

theorem mem_tupleVars {t : TypeExpr} {ts : TupleVar} : ts ∈ t.tupleVars ↔ ts ∈ t.tupleMentions := by
  simp [tupleVars, Std.ExtTreeSet.mem_toList]

theorem mem_scalarVars {t : TypeExpr} {v : TypeVar} : v ∈ t.scalarVars ↔ v ∈ t.scalarMentions := by
  simp [scalarVars, Std.ExtTreeSet.mem_toList]

end TypeExpr

end Polyadic
