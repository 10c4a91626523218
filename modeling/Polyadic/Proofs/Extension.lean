import Polyadic.Binding
import Polyadic.Proofs.Nodes

/-! # Extension of bindings

`b ≤ c` says that `c` assigns what `b` assigns, and possibly more.  A match only ever extends the
binding it starts from, so that a statement about every extension of a binding stays true to the end
of the match. -/

namespace Polyadic

namespace Binding

instance : LE Binding where
  le b c := (∀ v t, b.scalar? v = some t → c.scalar? v = some t) ∧
    ∀ ts xs, b.tuple? ts = some xs → c.tuple? ts = some xs

variable {b c d : Binding}

theorem scalar?_of_le (h : b ≤ c) {v : TypeVar} {t : TypeExpr} (hb : b.scalar? v = some t) :
    c.scalar? v = some t := h.1 v t hb

theorem tuple?_of_le (h : b ≤ c) {ts : TupleVar} {xs : List TypeExpr}
    (hb : b.tuple? ts = some xs) : c.tuple? ts = some xs := h.2 ts xs hb

theorem le_refl (b : Binding) : b ≤ b := ⟨fun _ _ h => h, fun _ _ h => h⟩

theorem le_trans (h : b ≤ c) (h' : c ≤ d) : b ≤ d := by
  constructor
  · intro v t hb
    exact h'.1 v t (h.1 v t hb)
  · intro ts xs hb
    exact h'.2 ts xs (h.2 ts xs hb)

theorem empty_le (b : Binding) : empty ≤ b :=
  ⟨fun v t h => by simp at h, fun ts xs h => by simp at h⟩

theorem le_bindScalar {v : TypeVar} (h : b.scalar? v = none) (t : TypeExpr) :
    b ≤ b.bindScalar v t := by
  refine ⟨?_, fun ts xs hb => hb⟩
  intro w u hw
  rw [scalar?_bindScalar]
  split
  · rename_i heq
    rw [← heq, h] at hw
    cases hw
  · exact hw

theorem le_bindTuple {ts : TupleVar} (h : b.tuple? ts = none) (xs : List TypeExpr) :
    b ≤ b.bindTuple ts xs := by
  refine ⟨fun v t hb => hb, ?_⟩
  intro us ys hus
  rw [tuple?_bindTuple]
  split
  · rename_i heq
    rw [← heq, h] at hus
    cases hus
  · exact hus

theorem bindScalar_le {v : TypeVar} {t : TypeExpr} (h : b ≤ c) (hc : c.scalar? v = some t) :
    b.bindScalar v t ≤ c := by
  refine ⟨?_, h.2⟩
  intro w u hw
  rw [scalar?_bindScalar] at hw
  split at hw
  · rename_i heq
    rw [← heq, hc, ← hw]
  · exact h.1 w u hw

theorem bindTuple_le {ts : TupleVar} {xs : List TypeExpr} (h : b ≤ c)
    (hc : c.tuple? ts = some xs) : b.bindTuple ts xs ≤ c := by
  refine ⟨h.1, ?_⟩
  intro us ys hus
  rw [tuple?_bindTuple] at hus
  split at hus
  · rename_i heq
    rw [← heq, hc, ← hus]
  · exact h.2 us ys hus

/-! ### What is assigned -/

/-- Every assigned type, also inside a sequence, has a property. -/
structure Assigns (P : TypeExpr → Prop) (b : Binding) : Prop where
  scalars : ∀ v t, b.scalar? v = some t → P t
  tuples : ∀ ts xs, b.tuple? ts = some xs → ∀ x ∈ xs, P x

theorem forall_tuple_iff {P : TypeExpr → Prop} :
    (∀ ts xs, b.tuple? ts = some xs → ∀ x ∈ xs, P x) ↔ ∀ p ∈ b.tuples.toList, ∀ x ∈ p.2, P x := by
  simp only [Prod.forall, Std.ExtTreeMap.mem_toList_iff_getElem?_eq_some]
  rfl

theorem assigns_iff {P : TypeExpr → Prop} : b.Assigns P ↔
    (∀ p ∈ b.scalars.toList, P p.2) ∧ ∀ p ∈ b.tuples.toList, ∀ x ∈ p.2, P x := by
  have hscalars : (∀ v t, b.scalar? v = some t → P t) ↔ ∀ p ∈ b.scalars.toList, P p.2 := by
    simp only [Prod.forall, Std.ExtTreeMap.mem_toList_iff_getElem?_eq_some]
    rfl
  rw [← hscalars, ← forall_tuple_iff]
  exact ⟨fun h => ⟨h.scalars, h.tuples⟩, fun h => ⟨h.1, h.2⟩⟩

instance {P : TypeExpr → Prop} [DecidablePred P] (b : Binding) : Decidable (b.Assigns P) :=
  decidable_of_iff _ assigns_iff.symm

section assigns

variable {P : TypeExpr → Prop}

theorem assigns_empty : empty.Assigns P :=
  ⟨fun v t h => by simp at h, fun ts xs h => by simp at h⟩

theorem Assigns.bindScalar (h : b.Assigns P) {t : TypeExpr} (ht : P t) (v : TypeVar) :
    (b.bindScalar v t).Assigns P := by
  refine ⟨?_, h.tuples⟩
  intro w u hw
  rw [scalar?_bindScalar] at hw
  split at hw
  · cases hw
    exact ht
  · exact h.scalars w u hw

theorem Assigns.bindTuple (h : b.Assigns P) {xs : List TypeExpr} (hxs : ∀ x ∈ xs, P x)
    (ts : TupleVar) : (b.bindTuple ts xs).Assigns P := by
  refine ⟨h.scalars, ?_⟩
  intro us ys hus
  rw [tuple?_bindTuple] at hus
  split at hus
  · cases hus
    exact hxs
  · exact h.tuples us ys hus

end assigns

/-! ### Ground bindings -/

/-- Every assigned type, also inside a sequence, is ground. -/
structure IsGround (b : Binding) : Prop where
  scalars : ∀ v t, b.scalar? v = some t → t.IsGround
  tuples : ∀ ts xs, b.tuple? ts = some xs → ∀ x ∈ xs, x.IsGround

theorem isGround_iff : b.IsGround ↔ b.Assigns TypeExpr.IsGround :=
  ⟨fun h => ⟨h.scalars, h.tuples⟩, fun h => ⟨h.scalars, h.tuples⟩⟩

instance (b : Binding) : Decidable b.IsGround := decidable_of_iff _ isGround_iff.symm

theorem isGround_empty : empty.IsGround := isGround_iff.2 assigns_empty

theorem IsGround.bindScalar (h : b.IsGround) {t : TypeExpr} (ht : t.IsGround) (v : TypeVar) :
    (b.bindScalar v t).IsGround := isGround_iff.2 ((isGround_iff.1 h).bindScalar ht v)

theorem IsGround.bindTuple (h : b.IsGround) {xs : List TypeExpr} (hxs : ∀ x ∈ xs, x.IsGround)
    (ts : TupleVar) : (b.bindTuple ts xs).IsGround :=
  isGround_iff.2 ((isGround_iff.1 h).bindTuple hxs ts)

/-! ### Covered types -/

/-- The variable that a node is or mentions is assigned. -/
def coversNode (b : Binding) (n : TypeExpr) : Bool :=
  n.ownScalar?.all (fun v => (b.scalar? v).isSome) && n.ownTuple?.all fun ts => (b.tuple? ts).isSome

/-- Every variable of a type is assigned. -/
def Covers (b : Binding) (t : TypeExpr) : Prop := t.Everywhere fun n => b.coversNode n = true

instance (b : Binding) (t : TypeExpr) : Decidable (b.Covers t) :=
  inferInstanceAs (Decidable (t.Everywhere _))

section covers

open TypeExpr

@[simp] theorem covers_var {v : TypeVar} : b.Covers (var v) ↔ ∃ t, b.scalar? v = some t := by
  simp [Covers, coversNode, ownScalar?, ownTuple?, Option.isSome_iff_exists]

@[simp] theorem covers_packed {ts : TupleVar} :
    b.Covers (packed ts) ↔ ∃ xs, b.tuple? ts = some xs := by
  simp [Covers, coversNode, ownScalar?, ownTuple?, Option.isSome_iff_exists]

@[simp] theorem covers_spread {ts : TupleVar} :
    b.Covers (spread ts) ↔ ∃ xs, b.tuple? ts = some xs := by
  simp [Covers, coversNode, ownScalar?, ownTuple?, Option.isSome_iff_exists]

@[simp] theorem covers_spreadMap {ctor : TypeExpr} {ts : TupleVar} :
    b.Covers (spreadMap ctor ts) ↔ (∃ xs, b.tuple? ts = some xs) ∧ b.Covers ctor := by
  simp [Covers, coversNode, ownScalar?, ownTuple?, Option.isSome_iff_exists]

@[simp] theorem covers_apply {head : TypeExpr} {args : List TypeExpr} :
    b.Covers (apply head args) ↔ b.Covers head ∧ ∀ t ∈ args, b.Covers t := by
  simp [Covers, coversNode, ownScalar?, ownTuple?]

@[simp] theorem covers_union {members : List TypeExpr} :
    b.Covers (union members) ↔ ∀ t ∈ members, b.Covers t := by
  simp [Covers, coversNode, ownScalar?, ownTuple?]

@[simp] theorem covers_arrow {params : List TypeExpr} {result : TypeExpr} :
    b.Covers (arrow params result) ↔ (∀ t ∈ params, b.Covers t) ∧ b.Covers result := by
  simp [Covers, coversNode, ownScalar?, ownTuple?]

end covers

end Binding

theorem TypeExpr.IsGround.covered {t : TypeExpr} (h : t.IsGround) (b : Binding) : b.Covers t :=
  Everywhere.mono h fun n hn => by simp [Binding.coversNode, hn]

end Polyadic
