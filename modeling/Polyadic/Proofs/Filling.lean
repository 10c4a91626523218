import Polyadic.Substitution
import Polyadic.Proofs.Extension
import Polyadic.Proofs.Outcome

/-! # Filling in a binding

`t.fill b` replaces the bound variables of `t` as substitution does, but does not mind a union
without members, so that it is defined everywhere.  Substitution gives what filling gives if it
gives anything (`fill_of_subst`), and it does so if no union of the filled type is empty
(`subst_eq_ok_fill`).  What a list of types is filled to is what its slots are filled to, one after
another (`fillAll_eq_flatMap`). -/

namespace Polyadic

namespace TypeExpr

mutual

/-- Replaces the bound variables of a type; unions may end up without members. -/
def fill (b : Binding) : TypeExpr → TypeExpr
  | .named name => .named name
  | .var v => (b.scalar? v).getD (.var v)
  | .packed ts => ((b.tuple? ts).map tuple).getD (.packed ts)
  | .spread ts => ((b.tuple? ts).map tuple).getD (.spread ts)
  | .spreadMap ctor ts =>
    ((b.tuple? ts).map fun contents => tuple (mapOver (ctor.fill b) contents)).getD
      (.spreadMap (ctor.fill b) ts)
  | .apply head args => .apply (head.fill b) (fillAll b args)
  | .union members => .union (fillAll b members)
  | .arrow params result => .arrow (fillAll b params) (result.fill b)

/-- Replaces the bound variables of the elements of a list, and splices the bound spliced forms. -/
def fillAll (b : Binding) : List TypeExpr → List TypeExpr
  | [] => []
  | .spread ts :: rest => (b.tuple? ts).getD [.spread ts] ++ fillAll b rest
  | .spreadMap ctor ts :: rest =>
    ((b.tuple? ts).map (mapOver (ctor.fill b))).getD [.spreadMap (ctor.fill b) ts]
      ++ fillAll b rest
  | t :: rest => t.fill b :: fillAll b rest

end

end TypeExpr

/-- What a slot contributes to a list. -/
def Slot.fill (b : Binding) : Slot → List TypeExpr
  | .single t => [t.fill b]
  | .spread ts => (b.tuple? ts).getD [.spread ts]
  | .mapped ctor ts =>
    ((b.tuple? ts).map (TypeExpr.mapOver (ctor.fill b))).getD [.spreadMap (ctor.fill b) ts]

theorem Slot.flatMap_fill_single (b : Binding) (ts : List TypeExpr) :
    (ts.map Slot.single).flatMap (Slot.fill b) = ts.map (TypeExpr.fill b) := by
  rw [List.flatMap_map, List.map_eq_flatMap]
  rfl

namespace TypeExpr

variable {b : Binding}

theorem fillAll_eq_flatMap (ts : List TypeExpr) :
    fillAll b ts = (ts.map Slot.ofType).flatMap (Slot.fill b) := by
  induction ts with
  | nil => rfl
  | cons t ts ih => cases t <;> simp [fillAll, ih, Slot.ofType, Slot.fill]

theorem fillAll_cons {t : TypeExpr} (h : t.isSpliced = false) (ts : List TypeExpr) :
    fillAll b (t :: ts) = t.fill b :: fillAll b ts := by
  simp [fillAll_eq_flatMap, Slot.ofType_eq_single h, Slot.fill]

theorem fillAll_append (ts us : List TypeExpr) :
    fillAll b (ts ++ us) = fillAll b ts ++ fillAll b us := by simp [fillAll_eq_flatMap]

/-- What other than a spliced form is filled to is no spliced form either. -/
theorem isSpliced_fill (hb : b.IsGround) {t : TypeExpr} (h : t.isSpliced = false) :
    (t.fill b).isSpliced = false := by
  cases t with
  | var v =>
    cases hv : b.scalar? v with
    | none => simp [fill, hv, isSpliced]
    | some u => simpa [fill, hv] using (hb.scalars v u hv).isSpliced
  | packed ts => cases hts : b.tuple? ts <;> simp [fill, hts, isSpliced, tuple]
  | spread | spreadMap => cases h
  | _ => rfl

/-- Nothing is filled in where nothing is bound. -/
@[simp] theorem fill_empty (t : TypeExpr) : t.fill .empty = t := by
  have row {ts : List TypeExpr} (ih : ∀ s ∈ ts.map Slot.ofType, ∀ t ∈ s.inner?, t.fill .empty = t) :
      fillAll .empty ts = ts := by
    induction ts with
    | nil => rfl
    | cons t ts hrest =>
      have hrest := hrest fun s hs => ih s (by simp [List.mem_map.1 hs])
      have ht := ih (Slot.ofType t) (by simp)
      rw [fillAll_eq_flatMap] at hrest ⊢
      rw [List.map_cons, List.flatMap_cons, hrest]
      cases t <;> simp_all [Slot.ofType, Slot.inner?, Slot.fill]
  induction t using inductSlots with
  | named | var | packed | spread => simp [fill]
  | spreadMap ctor ts ih => simp [fill, ih]
  | apply head args hhead hargs => rw [fill, hhead, row hargs]
  | union members hmembers => rw [fill, row hmembers]
  | arrow params result hparams hresult => rw [fill, row hparams, hresult]

/-- A list of ground types stays as it is if its elements do. -/
theorem fillAll_of_fill {ts : List TypeExpr} (hground : ∀ t ∈ ts, t.IsGround)
    (hfill : ∀ t ∈ ts, t.fill b = t) : fillAll b ts = ts := by
  induction ts with
  | nil => rfl
  | cons t ts ih =>
    have hrest : fillAll b ts = ts :=
      ih (fun t ht => hground t (by simp [ht])) (fun t ht => hfill t (by simp [ht]))
    rw [fillAll_cons (hground t (by simp)).isSpliced, hfill t (by simp), hrest]

/-- There is nothing to fill in in a ground type. -/
theorem IsGround.fill {t : TypeExpr} (h : t.IsGround) : t.fill b = t := by
  induction t using induct with
  | named => rfl
  | var | packed | spread | spreadMap => simp at h
  | apply head args hhead hargs =>
    rw [isGround_apply] at h
    have hlist : fillAll b args = args := fillAll_of_fill h.2 fun t ht => hargs t ht (h.2 t ht)
    rw [TypeExpr.fill, hhead h.1, hlist]
  | union members hmembers =>
    rw [isGround_union] at h
    have hlist : fillAll b members = members :=
      fillAll_of_fill h fun t ht => hmembers t ht (h t ht)
    rw [TypeExpr.fill, hlist]
  | arrow params result hparams hresult =>
    rw [isGround_arrow] at h
    have hlist : fillAll b params = params :=
      fillAll_of_fill h.1 fun t ht => hparams t ht (h.1 t ht)
    rw [TypeExpr.fill, hresult h.2, hlist]

theorem fillAll_of_isGround {ts : List TypeExpr} (h : ∀ t ∈ ts, t.IsGround) :
    fillAll b ts = ts := fillAll_of_fill h fun t ht => (h t ht).fill

/-- Only the constructor is filled in where it is applied to ground types. -/
theorem map_fill_mapOver {sequence : List TypeExpr} (h : ∀ t ∈ sequence, t.IsGround)
    (ctor : TypeExpr) : (mapOver ctor sequence).map (fill b) = mapOver (ctor.fill b) sequence := by
  simp only [mapOver, List.map_map]
  refine List.map_congr_left ?_
  intro t ht
  have hoperand : fillAll b [t] = [t] := fillAll_of_isGround (by simpa using h t ht)
  simp [fill, hoperand]

theorem fillAll_mapOver {sequence : List TypeExpr} (h : ∀ t ∈ sequence, t.IsGround)
    (ctor : TypeExpr) : fillAll b (mapOver ctor sequence) = mapOver (ctor.fill b) sequence := by
  have hsingles : (mapOver ctor sequence).map Slot.ofType =
      (mapOver ctor sequence).map .single := by
    refine List.map_congr_left fun t ht => ?_
    obtain ⟨u, -, rfl⟩ := List.mem_map.1 ht
    rfl
  rw [fillAll_eq_flatMap, hsingles, Slot.flatMap_fill_single, map_fill_mapOver h]

/-! ### Substitution fills -/

end TypeExpr

/-- What substitution makes of a slot, with the position of the slot. -/
def Slot.subst (b : Binding) (segment : Segment) : Slot → Except Failure (List TypeExpr)
  | .single t => do
    let t ← within segment (t.subst b)
    .ok [t]
  | .spread ts => .ok ((b.tuple? ts).getD [.spread ts])
  | .mapped ctor ts => do
    let ctor ← within segment (within .ctor (ctor.subst b))
    .ok (((b.tuple? ts).map (TypeExpr.mapOver ctor)).getD [.spreadMap ctor ts])

namespace Slot

variable {b : Binding} {slot : Slot}

theorem fill_of_subst (h : ∀ t ∈ slot.inner?, ∀ x, t.subst b = .ok x → x = t.fill b)
    {segment : Segment} {xs : List TypeExpr} (hxs : slot.subst b segment = .ok xs) :
    xs = slot.fill b := by
  cases slot with
  | single t =>
    obtain ⟨x, hx, hxs⟩ := except_bind_eq_ok_iff.1 hxs
    obtain rfl := h t rfl x (within_eq_ok_iff.1 hx)
    cases hxs
    rfl
  | spread ts =>
    cases hxs
    rfl
  | mapped ctor ts =>
    obtain ⟨c, hc, hxs⟩ := except_bind_eq_ok_iff.1 hxs
    obtain rfl := h ctor rfl c (within_eq_ok_iff.1 (within_eq_ok_iff.1 hc))
    cases hxs
    rfl

theorem subst_eq_ok_fill (h : ∀ t ∈ slot.inner?, t.subst b = .ok (t.fill b)) (segment : Segment) :
    slot.subst b segment = .ok (slot.fill b) := by
  cases slot with
  | single t =>
    rw [subst, h t rfl]
    rfl
  | spread ts => rfl
  | mapped ctor ts =>
    rw [subst, h ctor rfl]
    rfl

end Slot

namespace TypeExpr

variable {b : Binding} {place : Nat → Segment} {i : Nat}

theorem substAll_cons (t : TypeExpr) (ts : List TypeExpr) :
    substAll b place i (t :: ts) = (do
      let xs ← (Slot.ofType t).subst b (place i)
      let rest ← substAll b place (i + 1) ts
      .ok (xs ++ rest)) := by
  cases t <;> simp [substAll, Slot.ofType, Slot.subst] <;> rfl

theorem fillAll_of_substAll {ts xs : List TypeExpr}
    (h : ∀ s ∈ ts.map Slot.ofType, ∀ t ∈ s.inner?, ∀ x, t.subst b = .ok x → x = t.fill b)
    (hx : substAll b place i ts = .ok xs) : xs = fillAll b ts := by
  induction ts generalizing i xs with
  | nil =>
    cases hx
    rfl
  | cons t ts ih =>
    rw [substAll_cons, except_bind_eq_ok_iff] at hx
    obtain ⟨ys, hy, hx⟩ := hx
    obtain ⟨rest, hrest, hx⟩ := except_bind_eq_ok_iff.1 hx
    have hys := Slot.fill_of_subst (h _ (by simp)) hy
    have hrest := ih (fun s hs => h s (by simp [List.mem_map.1 hs])) hrest
    cases hx
    rw [hys, hrest, fillAll_eq_flatMap, fillAll_eq_flatMap]
    simp

/-- What substitution gives is what filling gives. -/
theorem fill_of_subst {t x : TypeExpr} (hx : t.subst b = .ok x) : x = t.fill b := by
  induction t using inductSlots generalizing x with
  | named | var | packed | spread =>
    cases hx
    rfl
  | spreadMap ctor ts ih =>
    rw [subst, except_bind_eq_ok_iff] at hx
    obtain ⟨c, hc, hx⟩ := hx
    obtain rfl := ih (within_eq_ok_iff.1 hc)
    cases hx
    rfl
  | apply head args hhead hargs =>
    rw [subst, except_bind_eq_ok_iff] at hx
    obtain ⟨head', hh, hx⟩ := hx
    obtain ⟨args', ha, hx⟩ := except_bind_eq_ok_iff.1 hx
    obtain rfl := hhead (within_eq_ok_iff.1 hh)
    obtain rfl := fillAll_of_substAll (fun s hs t ht _ => hargs s hs t ht) ha
    cases hx
    rfl
  | union members hmembers =>
    rw [subst, except_bind_eq_ok_iff] at hx
    obtain ⟨members', hm, hx⟩ := hx
    obtain rfl := fillAll_of_substAll (fun s hs t ht _ => hmembers s hs t ht) hm
    rw [fill]
    cases hf : fillAll b members with
    | nil => rw [hf] at hx; cases hx
    | cons t ts => rw [hf] at hx; cases hx; rfl
  | arrow params result hparams hresult =>
    rw [subst, except_bind_eq_ok_iff] at hx
    obtain ⟨params', hp, hx⟩ := hx
    obtain ⟨result', hr, hx⟩ := except_bind_eq_ok_iff.1 hx
    obtain rfl := fillAll_of_substAll (fun s hs t ht _ => hparams s hs t ht) hp
    obtain rfl := hresult (within_eq_ok_iff.1 hr)
    cases hx
    rfl

/-! ### Where substitution goes through -/

theorem substAll_eq_ok {ts : List TypeExpr}
    (h : ∀ s ∈ ts.map Slot.ofType, ∀ t ∈ s.inner?, t.subst b = .ok (t.fill b)) :
    substAll b place i ts = .ok (fillAll b ts) := by
  induction ts generalizing i with
  | nil => rfl
  | cons t ts ih =>
    have hrest : substAll b place (i + 1) ts = .ok (fillAll b ts) :=
      ih fun s hs => h s (by simp [List.mem_map.1 hs])
    rw [substAll_cons, Slot.subst_eq_ok_fill (h _ (by simp)), hrest]
    simp only [fillAll_eq_flatMap, List.map_cons, List.flatMap_cons]
    rfl

/-- If a node is a spliced map, then its constructor is free of unions. -/
def mapsUnionFree : TypeExpr → Prop
  | .spreadMap ctor _ => ctor.Everywhere fun n => n.isUnion = false
  | _ => True

instance : DecidablePred mapsUnionFree
  | .spreadMap ctor _ => inferInstanceAs (Decidable (ctor.Everywhere _))
  | .named _ | .var _ | .packed _ | .spread _ | .apply _ _ | .union _ | .arrow _ _ =>
    inferInstanceAs (Decidable True)

/-- No union stands inside the constructor of a spliced map. -/
def UnionFreeMaps (t : TypeExpr) : Prop := t.Everywhere mapsUnionFree

instance (t : TypeExpr) : Decidable t.UnionFreeMaps :=
  inferInstanceAs (Decidable (t.Everywhere _))

/-- Every union has a member. -/
def UnionsInhabited (t : TypeExpr) : Prop := t.Everywhere fun n => n ≠ .union []

instance (t : TypeExpr) : Decidable t.UnionsInhabited :=
  inferInstanceAs (Decidable (t.Everywhere _))

theorem subst_eq_ok_of_unionFree {t : TypeExpr} (h : t.Everywhere fun n => n.isUnion = false) :
    t.subst b = .ok (t.fill b) := by
  induction t using inductSlots with
  | named | var | packed | spread => rfl
  | spreadMap ctor ts ih =>
    rw [subst, ih (everywhere_spreadMap.1 h).2]
    rfl
  | apply head args hhead hargs =>
    obtain ⟨-, hh, ha⟩ := everywhere_apply.1 h
    have hlist : ∀ s ∈ args.map Slot.ofType, ∀ t ∈ s.inner?, t.subst b = .ok (t.fill b) :=
      fun s hs t ht => hargs s hs t ht (everywhere_inner ha s hs t ht)
    rw [subst, hhead hh, substAll_eq_ok hlist]
    rfl
  | union members hmembers => cases (everywhere_union.1 h).1
  | arrow params result hparams hresult =>
    obtain ⟨-, hp, hr⟩ := everywhere_arrow.1 h
    have hlist : ∀ s ∈ params.map Slot.ofType, ∀ t ∈ s.inner?, t.subst b = .ok (t.fill b) :=
      fun s hs t ht => hparams s hs t ht (everywhere_inner hp s hs t ht)
    rw [subst, hresult hr, substAll_eq_ok hlist]
    rfl

/-- Substitution goes through where filling leaves no union empty. -/
theorem subst_eq_ok_fill {t : TypeExpr} (hmaps : t.UnionFreeMaps)
    (hfill : (t.fill b).UnionsInhabited) : t.subst b = .ok (t.fill b) := by
  -- Of a slot, only a single type comes out as a whole; a constructor has no unions at all.
  have slots {ts : List TypeExpr} (hmaps : ∀ t ∈ ts, t.UnionFreeMaps)
      (hfill : ∀ t ∈ fillAll b ts, t.UnionsInhabited)
      (ih : ∀ s ∈ ts.map Slot.ofType, ∀ t ∈ s.inner?, t.UnionFreeMaps →
        (t.fill b).UnionsInhabited → t.subst b = .ok (t.fill b)) :
      ∀ s ∈ ts.map Slot.ofType, ∀ t ∈ s.inner?, t.subst b = .ok (t.fill b) := by
    intro s hs t ht
    have hinner := everywhere_inner hmaps s hs t ht
    obtain ⟨u, hu, rfl⟩ := List.mem_map.1 hs
    have hitem : ∀ x ∈ (Slot.ofType u).fill b, x.UnionsInhabited := fun x hx =>
      hfill x (by rw [fillAll_eq_flatMap]; exact List.mem_flatMap.2 ⟨_, hs, hx⟩)
    cases u with
    | spread => cases ht
    | spreadMap ctor us =>
      cases ht
      exact subst_eq_ok_of_unionFree (hmaps _ hu).self
    | _ =>
      cases ht
      exact ih _ hs _ rfl hinner (hitem _ (by simp [Slot.ofType, Slot.fill]))
  induction t using inductSlots with
  | named | var | packed | spread => rfl
  | spreadMap ctor ts ih =>
    rw [subst, subst_eq_ok_of_unionFree hmaps.self]
    rfl
  | apply head args hhead hargs =>
    obtain ⟨-, hmh, hma⟩ := everywhere_apply.1 hmaps
    obtain ⟨-, hfh, hfa⟩ := everywhere_apply.1 hfill
    rw [subst, hhead hmh hfh, substAll_eq_ok (slots hma hfa hargs)]
    rfl
  | union members hmembers =>
    obtain ⟨-, hmm⟩ := everywhere_union.1 hmaps
    obtain ⟨hne, hfm⟩ := everywhere_union.1 hfill
    rw [subst, substAll_eq_ok (slots hmm hfm hmembers), fill]
    cases hf : fillAll b members with
    | nil => exact absurd (congrArg _ hf) hne
    | cons t ts => rfl
  | arrow params result hparams hresult =>
    obtain ⟨-, hmp, hmr⟩ := everywhere_arrow.1 hmaps
    obtain ⟨-, hfp, hfr⟩ := everywhere_arrow.1 hfill
    rw [subst, hresult hmr hfr, substAll_eq_ok (slots hmp hfp hparams)]
    rfl

end TypeExpr

end Polyadic
