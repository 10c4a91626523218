import Polyadic.Proofs.DisjointUnion
import Polyadic.Proofs.EmptyUnions

/-! # Filling in a binding in two stages

The variables of a type may be filled in by two bindings, one after the other, in place of their
disjoint union.  On ground values this comes to the same (`fill_fill`), even where the tuple
variable of a spliced map belongs to one stage and the variables of its constructor to the other.
If the values have no empty unions, then neither stage empties a union that the disjoint union does
not (`subst_staged`). -/

namespace Polyadic

namespace TypeExpr

variable {b b₁ b₂ : Binding}

/-! ### What the stages fill in -/

section stages

variable (hsplit : b.IsDisjointUnion b₁ b₂) (hground : b.IsGround)
include hsplit hground

theorem fillAll_fill_slot {t : TypeExpr}
    (h : ∀ u ∈ (Slot.ofType t).inner?, (u.fill b₁).fill b₂ = u.fill b) :
    fillAll b₂ ((Slot.ofType t).fill b₁) = (Slot.ofType t).fill b := by
  have hground₁ : b₁.IsGround := hground.of_le hsplit.left_le
  cases hspliced : t.isSpliced with
  | false =>
    rw [Slot.ofType_eq_single hspliced] at h ⊢
    rw [Slot.fill, fillAll_cons (isSpliced_fill hground₁ hspliced), h t rfl]
    rfl
  | true =>
    cases t with
    | spread ts =>
      cases hts : b₁.tuple? ts with
      | none => simp [Slot.ofType, Slot.fill, fillAll, hts, hsplit.tuple?_right hts]
      | some xs =>
        have hxs : fillAll b₂ xs = xs := fillAll_of_isGround (hground₁.tuples ts xs hts)
        simp [Slot.ofType, Slot.fill, hts, hsplit.tuple?_left hts, hxs]
    | spreadMap ctor ts =>
      have hctor : (ctor.fill b₁).fill b₂ = ctor.fill b := h ctor rfl
      cases hts : b₁.tuple? ts with
      | none => simp [Slot.ofType, Slot.fill, fillAll, hts, hsplit.tuple?_right hts, hctor]
      | some xs =>
        simp [Slot.ofType, Slot.fill, hts, hsplit.tuple?_left hts, hctor,
          fillAll_mapOver (hground₁.tuples ts xs hts)]
    | _ => cases hspliced

theorem fillAll_fillAll {ts : List TypeExpr}
    (h : ∀ s ∈ ts.map Slot.ofType, ∀ t ∈ s.inner?, (t.fill b₁).fill b₂ = t.fill b) :
    fillAll b₂ (fillAll b₁ ts) = fillAll b ts := by
  induction ts with
  | nil => rfl
  | cons t ts ih =>
    have hslot := fillAll_fill_slot hsplit hground (h (Slot.ofType t) (by simp))
    have hrest := ih fun s hs => h s (by simp [List.mem_map.1 hs])
    simp only [fillAll_eq_flatMap (_ :: _), List.map_cons, List.flatMap_cons]
    rw [← fillAll_eq_flatMap, ← fillAll_eq_flatMap, fillAll_append, hslot, hrest]

/-- To fill in two parts of a binding, one after the other, is to fill in the whole. -/
theorem fill_fill (t : TypeExpr) : (t.fill b₁).fill b₂ = t.fill b := by
  have hground₁ : b₁.IsGround := hground.of_le hsplit.left_le
  induction t using inductSlots with
  | named name => rfl
  | var v =>
    cases hv : b₁.scalar? v with
    | none => simp [fill, hv, hsplit.scalar?_right hv]
    | some u => simp [fill, hv, hsplit.scalar?_left hv, (hground₁.scalars v u hv).fill]
  | packed ts | spread ts =>
    cases hts : b₁.tuple? ts with
    | none => simp [fill, hts, hsplit.tuple?_right hts]
    | some xs =>
      have hxs : fillAll b₂ xs = xs := fillAll_of_isGround (hground₁.tuples ts xs hts)
      simp [fill, hts, hsplit.tuple?_left hts, tuple, hxs]
  | spreadMap ctor ts hctor =>
    cases hts : b₁.tuple? ts with
    | none => simp [fill, hts, hsplit.tuple?_right hts, hctor]
    | some xs =>
      simp [fill, hts, hsplit.tuple?_left hts, tuple, hctor,
        fillAll_mapOver (hground₁.tuples ts xs hts)]
  | apply head args hhead hargs =>
    rw [fill, fill, fill, hhead, fillAll_fillAll hsplit hground hargs]
  | union members hmembers => rw [fill, fill, fill, fillAll_fillAll hsplit hground hmembers]
  | arrow params result hparams hresult =>
    rw [fill, fill, fill, hresult, fillAll_fillAll hsplit hground hparams]

end stages

/-! ### Where the stages go through -/

theorem Vanishes.mono {t : TypeExpr} (h : t.Vanishes b₁) (hle : b₁ ≤ b) : t.Vanishes b := by
  obtain ⟨ts, hts, ht⟩ := h
  exact ⟨ts, Binding.tuple?_of_le hle hts, ht⟩

theorem Emptied.mono {t : TypeExpr} (h : t.Emptied b₁) (hle : b₁ ≤ b) : t.Emptied b := by
  obtain ⟨members, rfl, hmembers⟩ := h
  exact ⟨members, rfl, fun m hm => (hmembers m hm).mono hle⟩

/-- In a ground type only a union without members comes out empty. -/
theorem IsGround.not_emptied {t : TypeExpr} (h : t.IsGround) (hunions : t.UnionsInhabited) :
    t.Everywhere fun n => ¬n.Emptied b := by
  have hmaps : t.UnionFreeMaps := by
    refine Everywhere.mono h ?_
    rintro (_ | _ | _ | _ | _ | _ | _ | _) ⟨-, hn⟩
    case spreadMap => cases hn
    all_goals trivial
  exact exists_subst_iff.1 ⟨t.fill b, subst_eq_ok_fill hmaps (by rwa [h.fill])⟩

section filled

variable {P : TypeExpr → Prop} (hP : ∀ n, n.isUnion = false → P n)
include hP

theorem everywhere_tuple {ts : List TypeExpr} (h : ∀ t ∈ ts, t.Everywhere P) :
    (tuple ts).Everywhere P :=
  everywhere_apply.2 ⟨hP _ rfl, everywhere_named.2 (hP _ rfl), h⟩

theorem everywhere_mapOver {ctor : TypeExpr} (hctor : ctor.Everywhere P) {ts : List TypeExpr}
    (h : ∀ t ∈ ts, t.Everywhere P) : ∀ x ∈ mapOver ctor ts, x.Everywhere P := by
  intro x hx
  obtain ⟨t, ht, rfl⟩ := List.mem_map.1 hx
  exact everywhere_apply.2 ⟨hP _ rfl, hctor, by simpa using h t ht⟩

theorem everywhere_fill_slot (hvalues : b.Assigns (Everywhere P)) {slot : Slot}
    (h : ∀ t ∈ slot.inner?, (t.fill b).Everywhere P) : ∀ x ∈ slot.fill b, x.Everywhere P := by
  cases slot with
  | single t => simpa [Slot.fill] using h t rfl
  | spread ts =>
    cases hts : b.tuple? ts with
    | none => simpa [Slot.fill, hts] using hP _ rfl
    | some xs => simpa [Slot.fill, hts] using hvalues.tuples ts xs hts
  | mapped ctor ts =>
    have hctor : (ctor.fill b).Everywhere P := h ctor rfl
    cases hts : b.tuple? ts with
    | none => simpa [Slot.fill, hts, hctor] using hP _ rfl
    | some xs =>
      simpa [Slot.fill, hts] using everywhere_mapOver hP hctor (hvalues.tuples ts xs hts)

theorem everywhere_fillAll (hvalues : b.Assigns (Everywhere P)) {ts : List TypeExpr}
    (h : ∀ s ∈ ts.map Slot.ofType, ∀ t ∈ s.inner?, (t.fill b).Everywhere P) :
    ∀ x ∈ fillAll b ts, x.Everywhere P := by
  intro x hx
  rw [fillAll_eq_flatMap, List.mem_flatMap] at hx
  obtain ⟨s, hs, hx⟩ := hx
  exact everywhere_fill_slot hP hvalues (h s hs) x hx

/-- What is true of values, and of all types but unions, is true everywhere in a filled type if it
is true of what the unions of the type are filled to. -/
theorem everywhere_fill (hvalues : b.Assigns (Everywhere P)) {t : TypeExpr}
    (h : t.Everywhere fun n => n.isUnion = true → P (n.fill b)) : (t.fill b).Everywhere P := by
  have row {ts : List TypeExpr}
      (hts : ∀ t ∈ ts, t.Everywhere fun n => n.isUnion = true → P (n.fill b))
      (ih : ∀ s ∈ ts.map Slot.ofType, ∀ t ∈ s.inner?,
        (t.Everywhere fun n => n.isUnion = true → P (n.fill b)) → (t.fill b).Everywhere P) :
      ∀ x ∈ fillAll b ts, x.Everywhere P :=
    everywhere_fillAll hP hvalues fun s hs t ht => ih s hs t ht (everywhere_inner hts s hs t ht)
  induction t using inductSlots with
  | named name => exact everywhere_named.2 (hP _ rfl)
  | var v =>
    cases hv : b.scalar? v with
    | none => simpa [fill, hv] using hP _ rfl
    | some u => simpa [fill, hv] using hvalues.scalars v u hv
  | packed ts | spread ts =>
    cases hts : b.tuple? ts with
    | none => simpa [fill, hts] using hP _ rfl
    | some xs => simpa [fill, hts] using everywhere_tuple hP (hvalues.tuples ts xs hts)
  | spreadMap ctor ts ih =>
    have hctor : (ctor.fill b).Everywhere P := ih (everywhere_spreadMap.1 h).2
    cases hts : b.tuple? ts with
    | none => simpa [fill, hts, hctor] using hP _ rfl
    | some xs =>
      simpa [fill, hts] using
        everywhere_tuple hP (everywhere_mapOver hP hctor (hvalues.tuples ts xs hts))
  | apply head args hhead hargs =>
    obtain ⟨-, hh, ha⟩ := everywhere_apply.1 h
    exact everywhere_apply.2 ⟨hP _ rfl, hhead hh, row ha hargs⟩
  | union members hmembers =>
    obtain ⟨hunion, hm⟩ := everywhere_union.1 h
    exact everywhere_union.2 ⟨hunion rfl, row hm hmembers⟩
  | arrow params result hparams hresult =>
    obtain ⟨-, hp, hr⟩ := everywhere_arrow.1 h
    exact everywhere_arrow.2 ⟨hP _ rfl, row hp hparams, hresult hr⟩

end filled

/-- Substituting a binding whose values are ground and have no empty unions is substituting two
parts of it, one after the other. -/
theorem subst_staged {t r : TypeExpr} (hsplit : b.IsDisjointUnion b₁ b₂) (hground : b.IsGround)
    (hunions : b.Assigns UnionsInhabited) (h : t.subst b = .ok r) :
    ∃ t₁, t.subst b₁ = .ok t₁ ∧ t₁.subst b₂ = .ok r := by
  have hkept : t.Everywhere fun n => ¬n.Emptied b := exists_subst_iff.1 ⟨r, h⟩
  obtain ⟨t₁, ht₁⟩ : ∃ t₁, t.subst b₁ = .ok t₁ :=
    exists_subst_iff.2 (hkept.mono fun n hn hemptied => hn (hemptied.mono hsplit.left_le))
  have hvalues : b₁.Assigns (Everywhere fun n => ¬n.Emptied b₂) :=
    { scalars v u hv := (hground.scalars v u (hsplit.scalar?_left hv)).not_emptied
        (hunions.scalars v u (hsplit.scalar?_left hv))
      tuples ts xs hts x hx := (hground.tuples ts xs (hsplit.tuple?_left hts) x hx).not_emptied
        (hunions.tuples ts xs (hsplit.tuple?_left hts) x hx) }
  have hfilled : (t.fill b₁).Everywhere fun n => ¬n.Emptied b₂ := by
    refine everywhere_fill (fun _ => not_emptied_of_isUnion) hvalues (hkept.mono ?_)
    intro n hn hunion
    cases n with
    | union members =>
      have hmembers : fillAll b₂ (fillAll b₁ members) = fillAll b members :=
        fillAll_fillAll hsplit hground fun _ _ t _ => fill_fill hsplit hground t
      rw [emptied_union] at hn
      rw [fill, emptied_union, hmembers]
      exact hn
    | _ => cases hunion
  obtain ⟨x, hx⟩ := exists_subst_iff.2 hfilled
  refine ⟨t₁, ht₁, ?_⟩
  rw [fill_of_subst ht₁, hx, fill_of_subst hx, fill_of_subst h, fill_fill hsplit hground]

/-- The type `tuple[*Map[F[T0, *Ts1], Ts0], *Ts2 | *Ts1, *Ts1]`: the first stage binds `Ts0` and
takes the empty `Ts2` from the union, the second stage binds the variables of the constructor. -/
theorem subst_staged_map :
    ∃ t₁, subst ((Binding.empty.bindTuple ⟨0⟩ [.named "str", .named "bool"]).bindTuple ⟨2⟩ [])
        (.tuple [.spreadMap (.apply (.named "F") [.var ⟨0⟩, .spread ⟨1⟩]) ⟨0⟩,
          .union [.spread ⟨2⟩, .spread ⟨1⟩], .spread ⟨1⟩]) = .ok t₁ ∧
      subst ((Binding.empty.bindScalar ⟨0⟩ (.named "int")).bindTuple ⟨1⟩ [.named "float"]) t₁ =
        .ok (.tuple
          [.apply (.apply (.named "F") [.named "int", .named "float"]) [.named "str"],
            .apply (.apply (.named "F") [.named "int", .named "float"]) [.named "bool"],
            .union [.named "float"], .named "float"]) :=
  subst_staged
    (((Binding.IsDisjointUnion.empty _).bindScalar rfl (.named "int")).bindTuple rfl
      [.named "float"])
    (by decide) (by decide) rfl

end TypeExpr

end Polyadic
