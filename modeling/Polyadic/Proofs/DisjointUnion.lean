import Polyadic.Proofs.Occurrence

/-! # Bindings in two parts

A binding is the disjoint union of two others if each of its variables is bound by exactly one of
them, and to the same value.  It extends both of them (`left_le`, `right_le`), and it stays their
union when a variable that the first part does not bind is bound in it and in the second part. -/

namespace Polyadic

namespace Binding

/-- What is bound is bound in exactly one of two parts, and to the same. -/
structure IsDisjointUnion (b b₀ c : Binding) : Prop where
  scalar? : ∀ v, b.scalar? v = (b₀.scalar? v).or (c.scalar? v)
  tuple? : ∀ ts, b.tuple? ts = (b₀.tuple? ts).or (c.tuple? ts)
  disjoint : ∀ x, b₀.Binds x → ¬c.Binds x

namespace IsDisjointUnion

variable {b b₀ c : Binding} {v : TypeVar} {t : TypeExpr} {ts : TupleVar}
  {contents : List TypeExpr}

theorem empty (b : Binding) : b.IsDisjointUnion b .empty :=
  ⟨by simp, by simp, by rintro (v | ts) <;> simp [Binds]⟩

theorem scalar?_left (h : b.IsDisjointUnion b₀ c) (hv : b₀.scalar? v = some t) :
    b.scalar? v = some t := by rw [h.scalar?, hv, Option.some_or]

theorem scalar?_right (h : b.IsDisjointUnion b₀ c) (hv : b₀.scalar? v = none) :
    b.scalar? v = c.scalar? v := by rw [h.scalar?, hv, Option.none_or]

theorem tuple?_left (h : b.IsDisjointUnion b₀ c) (hts : b₀.tuple? ts = some contents) :
    b.tuple? ts = some contents := by rw [h.tuple?, hts, Option.some_or]

theorem tuple?_right (h : b.IsDisjointUnion b₀ c) (hts : b₀.tuple? ts = none) :
    b.tuple? ts = c.tuple? ts := by rw [h.tuple?, hts, Option.none_or]

theorem left_le (h : b.IsDisjointUnion b₀ c) : b₀ ≤ b :=
  ⟨fun _ _ => h.scalar?_left, fun _ _ => h.tuple?_left⟩

theorem right_le (h : b.IsDisjointUnion b₀ c) : c ≤ b := by
  constructor
  · intro v t hc
    cases hv : b₀.scalar? v with
    | none => rw [h.scalar?_right hv, hc]
    | some u => exact absurd ⟨t, hc⟩ (h.disjoint (.scalar v) ⟨u, hv⟩)
  · intro ts contents hc
    cases hts : b₀.tuple? ts with
    | none => rw [h.tuple?_right hts, hc]
    | some xs => exact absurd ⟨contents, hc⟩ (h.disjoint (.tuple ts) ⟨xs, hts⟩)

theorem bindScalar (h : b.IsDisjointUnion b₀ c) (hv : b₀.scalar? v = none) (t : TypeExpr) :
    (b.bindScalar v t).IsDisjointUnion b₀ (c.bindScalar v t) := by
  refine ⟨?_, h.tuple?, ?_⟩
  · intro w
    rw [scalar?_bindScalar, scalar?_bindScalar]
    split
    · rename_i heq
      rw [← heq, hv, Option.none_or]
    · exact h.scalar? w
  · rintro (w | ts) hx
    · obtain ⟨u, hu⟩ := hx
      rintro ⟨u', hu'⟩
      rw [scalar?_bindScalar] at hu'
      split at hu'
      · rename_i heq
        rw [← heq, hv] at hu
        cases hu
      · exact h.disjoint (.scalar w) ⟨u, hu⟩ ⟨u', hu'⟩
    · exact h.disjoint (.tuple ts) hx

theorem bindTuple (h : b.IsDisjointUnion b₀ c) (hts : b₀.tuple? ts = none)
    (contents : List TypeExpr) :
    (b.bindTuple ts contents).IsDisjointUnion b₀ (c.bindTuple ts contents) := by
  refine ⟨h.scalar?, ?_, ?_⟩
  · intro us
    rw [tuple?_bindTuple, tuple?_bindTuple]
    split
    · rename_i heq
      rw [← heq, hts, Option.none_or]
    · exact h.tuple? us
  · rintro (v | us) hx
    · exact h.disjoint (.scalar v) hx
    · obtain ⟨xs, hxs⟩ := hx
      rintro ⟨ys, hys⟩
      rw [tuple?_bindTuple] at hys
      split at hys
      · rename_i heq
        rw [← heq, hts] at hxs
        cases hxs
      · exact h.disjoint (.tuple us) ⟨xs, hxs⟩ ⟨ys, hys⟩

end IsDisjointUnion

/-- What is below a ground binding is ground. -/
theorem IsGround.of_le {b c : Binding} (h : b.IsGround) (hle : c ≤ b) : c.IsGround :=
  ⟨fun v t hc => h.scalars v t (scalar?_of_le hle hc),
    fun ts xs hc => h.tuples ts xs (tuple?_of_le hle hc)⟩

end Binding

end Polyadic
