/-! # Type expressions

The already resolved types that parameter lists and argument lists are made of.  Two kinds of
variables occur in them: a *scalar* variable stands for one type, a *tuple* variable for a
finite sequence of types.  A tuple variable appears in three forms:

* `packed ts`, the wrapped form, stands for the single type `tuple[*ts]`;
* `spread ts` splices the sequence into the list that encloses it;
* `spreadMap f ts` splices `f[t]` for every `t` of the sequence.

The module fixes the syntax, the induction principle over it, decidable equality, the view of a
type as a wrapped tuple (`tupleElements?`) and the measure `weight`, under which the elements of a
wrapped tuple are smaller than the tuple also in its form `packed ts`. -/

namespace Polyadic

/-- A scalar type variable. -/
structure TypeVar where
  id : UInt32
deriving DecidableEq, Repr

/-- A type variable that stands for a sequence of types. -/
structure TupleVar where
  id : UInt32
deriving DecidableEq, Repr

/-- A variable of either kind. -/
inductive Variable where
  | scalar (v : TypeVar)
  | tuple (ts : TupleVar)
deriving DecidableEq, Repr

/-- A resolved type expression. -/
inductive TypeExpr where
  /-- A nominal type; two of them agree when their names do. -/
  | named (name : String)
  /-- A scalar variable. -/
  | var (v : TypeVar)
  /-- A tuple variable as one wrapped tuple. -/
  | packed (ts : TupleVar)
  /-- A tuple variable spliced into the enclosing list. -/
  | spread (ts : TupleVar)
  /-- A constructor applied to every element of a tuple variable, spliced. -/
  | spreadMap (ctor : TypeExpr) (ts : TupleVar)
  /-- A constructor applied to arguments. -/
  | apply (head : TypeExpr) (args : List TypeExpr)
  /-- A union; the order of its members counts. -/
  | union (members : List TypeExpr)
  /-- A callable type. -/
  | arrow (params : List TypeExpr) (result : TypeExpr)
deriving Repr, Inhabited

namespace TypeExpr

/-- Induction with the hypothesis for every element of a list inside a type. -/
@[elab_as_elim]
theorem induct {motive : TypeExpr → Prop}
    (named : ∀ name, motive (.named name)) (var : ∀ v, motive (.var v))
    (packed : ∀ ts, motive (.packed ts)) (spread : ∀ ts, motive (.spread ts))
    (spreadMap : ∀ ctor ts, motive ctor → motive (.spreadMap ctor ts))
    (apply : ∀ head args, motive head → (∀ t ∈ args, motive t) → motive (.apply head args))
    (union : ∀ members, (∀ t ∈ members, motive t) → motive (.union members))
    (arrow : ∀ params result, (∀ t ∈ params, motive t) → motive result →
      motive (.arrow params result)) (t : TypeExpr) : motive t := by
  refine @TypeExpr.rec motive (fun ts => ∀ t ∈ ts, motive t)
    named var packed spread spreadMap apply union (fun ps r hp hr => arrow ps r hp hr)
    (fun _ h => nomatch h) (fun a as ha has t ht => ?_) t
  cases ht with
  | head => exact ha
  | tail _ h => exact has t h

/-! ### Equality -/

mutual

/-- Structural comparison. -/
def same : TypeExpr → TypeExpr → Bool
  | .named m, .named n => m == n
  | .var v, .var w => v == w
  | .packed ts, .packed us => ts == us
  | .spread ts, .spread us => ts == us
  | .spreadMap f ts, .spreadMap g us => same f g && ts == us
  | .apply f as, .apply g bs => same f g && sameAll as bs
  | .union as, .union bs => sameAll as bs
  | .arrow as r, .arrow bs q => sameAll as bs && same r q
  | _, _ => false

/-- Structural comparison of two lists. -/
def sameAll : List TypeExpr → List TypeExpr → Bool
  | [], [] => true
  | a :: as, b :: bs => same a b && sameAll as bs
  | _, _ => false

end

theorem sameAll_iff_of_forall {as : List TypeExpr} (h : ∀ a ∈ as, ∀ b, same a b = true ↔ a = b)
    (bs : List TypeExpr) : sameAll as bs = true ↔ as = bs := by
  induction as generalizing bs with
  | nil => cases bs <;> simp [sameAll]
  | cons a as ih =>
    cases bs with
    | nil => simp [sameAll]
    | cons b bs =>
      have ha := h a (by simp) b
      have has := ih (fun x hx => h x (by simp [hx])) bs
      simp [sameAll, ha, has]

theorem same_iff (a b : TypeExpr) : same a b = true ↔ a = b := by
  induction a using induct generalizing b with
  | named | var | packed | spread => cases b <;> simp [same]
  | spreadMap f ts hf => cases b <;> simp [same, hf]
  | apply f as hf has => cases b <;> simp [same, hf, sameAll_iff_of_forall has]
  | union as has => cases b <;> simp [same, sameAll_iff_of_forall has]
  | arrow as r has hr => cases b <;> simp [same, hr, sameAll_iff_of_forall has]

instance : DecidableEq TypeExpr := fun a b => decidable_of_iff _ (same_iff a b)

/-! ### Wrapped tuples -/

/-- The name of the constructor of wrapped tuples. -/
def tupleName : String := "tuple"

/-- The wrapped tuple of the given elements. -/
def tuple (elements : List TypeExpr) : TypeExpr := .apply (.named tupleName) elements

/-- The stand-in for the type of something that could not be matched. -/
def unknown : TypeExpr := .named "Any"

/-- The elements of a wrapped tuple; a wrapped tuple variable has its own spread form as its only
element. -/
def tupleElements? : TypeExpr → Option (List TypeExpr)
  | .apply (.named name) args => if name = tupleName then some args else none
  | .packed ts => some [.spread ts]
  | _ => none

@[simp] theorem tupleElements?_tuple (elements : List TypeExpr) :
    (tuple elements).tupleElements? = some elements := by simp [tuple, tupleElements?]

theorem tupleElements?_eq_some_iff {t : TypeExpr} {elements : List TypeExpr} :
    t.tupleElements? = some elements ↔
      t = .tuple elements ∨ ∃ us, t = .packed us ∧ elements = [.spread us] := by
  cases t with
  | apply head args =>
    cases head <;> simp [tupleElements?, tuple, eq_comm]
  | _ => simp [tupleElements?, tuple, eq_comm]

/-- The constructor and the argument of an application to one argument. -/
def unary? : TypeExpr → Option (TypeExpr × TypeExpr)
  | .apply head [operand] => some (head, operand)
  | _ => none

theorem unary?_eq_some_iff {t head operand : TypeExpr} :
    t.unary? = some (head, operand) ↔ t = .apply head [operand] := by
  unfold unary?
  split <;> simp_all

/-- The constructor applied to each element of a sequence on its own. -/
def mapOver (ctor : TypeExpr) (sequence : List TypeExpr) : List TypeExpr :=
  sequence.map fun t => .apply ctor [t]

@[simp] theorem length_mapOver (ctor : TypeExpr) (sequence : List TypeExpr) :
    (mapOver ctor sequence).length = sequence.length := by simp [mapOver]

/-! ### Measure -/

mutual

/-- The number of nodes, where the wrapped form of a tuple variable counts for two, so that it is
heavier than its only element. -/
def weight : TypeExpr → Nat
  | .named _ | .var _ | .spread _ => 1
  | .packed _ => 2
  | .spreadMap ctor _ => ctor.weight + 1
  | .apply head args => head.weight + totalWeight args + 1
  | .union members => totalWeight members + 1
  | .arrow params result => totalWeight params + result.weight + 1

/-- The weights of a list added up. -/
def totalWeight : List TypeExpr → Nat
  | [] => 0
  | t :: ts => t.weight + totalWeight ts

end

theorem weight_pos (t : TypeExpr) : 0 < t.weight := by cases t <;> simp [weight]

theorem weight_le_totalWeight {t : TypeExpr} {ts : List TypeExpr} (h : t ∈ ts) :
    t.weight ≤ totalWeight ts := by
  induction ts with
  | nil => cases h
  | cons a as ih =>
    cases h with
    | head => simp [totalWeight]
    | tail _ h => simp only [totalWeight]; have := ih h; omega

/-- The constructor of an application is lighter than the application. -/
theorem weight_lt_of_unary {t head operand : TypeExpr} (h : t.unary? = some (head, operand)) :
    head.weight < t.weight := by
  rw [unary?_eq_some_iff.1 h]
  simp only [weight]; omega

/-- The elements of a wrapped tuple are lighter than the tuple. -/
theorem weight_lt_of_mem_tupleElements {t e : TypeExpr} {elements : List TypeExpr}
    (h : t.tupleElements? = some elements) (he : e ∈ elements) : e.weight < t.weight := by
  unfold tupleElements? at h
  split at h
  · split at h
    · cases h
      have := weight_le_totalWeight he
      simp only [weight]; omega
    · cases h
  · cases h
    obtain rfl := List.mem_singleton.1 he
    simp [weight]
  · cases h

end TypeExpr

end Polyadic
