import Polyadic.Binding
import Polyadic.Failure

/-! # Substitution

`TypeExpr.subst` replaces the bound variables of a type.  Inside a list, the bound spliced forms
`*Ts` and `*Map[F, Ts]` contribute their elements; elsewhere they become one wrapped tuple.  Unbound
variables stay.  The one thing that can go wrong is a union that loses all its members. -/

namespace Polyadic

/-- The union of a sequence; repetitions keep their places. -/
def unionOf : List TypeExpr → Except Failure TypeExpr
  | [] => .error ⟨.emptyUnion, []⟩
  | t :: ts => .ok (.union (t :: ts))

namespace TypeExpr

mutual

/-- Replaces the bound variables of a type. -/
def subst (b : Binding) : TypeExpr → Except Failure TypeExpr
  | .named name => .ok (.named name)
  | .var v => .ok ((b.scalar? v).getD (.var v))
  | .packed ts => .ok (((b.tuple? ts).map tuple).getD (.packed ts))
  | .spread ts => .ok (((b.tuple? ts).map tuple).getD (.spread ts))
  | .spreadMap ctor ts => do
    let ctor ← within .ctor (ctor.subst b)
    .ok (((b.tuple? ts).map fun contents => tuple (mapOver ctor contents)).getD
      (.spreadMap ctor ts))
  | .apply head args => do
    let head ← within .ctor (head.subst b)
    let args ← substAll b .arg 0 args
    .ok (.apply head args)
  | .union members => do
    let members ← substAll b .member 0 members
    unionOf members
  | .arrow params result => do
    let params ← substAll b .callableParam 0 params
    let result ← within .result (result.subst b)
    .ok (.arrow params result)

/-- Replaces the bound variables of the elements of a list, from the given index on, and splices the
bound spliced forms. -/
def substAll (b : Binding) (place : Nat → Segment) :
    Nat → List TypeExpr → Except Failure (List TypeExpr)
  | _, [] => .ok []
  | i, .spread ts :: rest => do
    let rest ← substAll b place (i + 1) rest
    .ok ((b.tuple? ts).getD [.spread ts] ++ rest)
  | i, .spreadMap ctor ts :: rest => do
    let ctor ← within (place i) (within .ctor (ctor.subst b))
    let rest ← substAll b place (i + 1) rest
    .ok (((b.tuple? ts).map (mapOver ctor)).getD [.spreadMap ctor ts] ++ rest)
  | i, t :: rest => do
    let t ← within (place i) (t.subst b)
    let rest ← substAll b place (i + 1) rest
    .ok (t :: rest)

end

end TypeExpr

end Polyadic
