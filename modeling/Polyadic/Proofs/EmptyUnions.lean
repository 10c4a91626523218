import Polyadic.TypeExpr.Position
import Polyadic.Proofs.Filling

/-! # Unions that become empty

A union is emptied by a binding if each of its members is spliced and bound to no types
(`fillAll_eq_nil_iff`).  Such a union anywhere in a type, be it in a constructor that nothing is
made of, is what makes substitution fail (`exists_subst_iff`), and the path of the failure leads to
one of them (`emptiedAt_of_subst`). -/

namespace Polyadic

namespace TypeExpr

/-- A list element contributes nothing: it is spliced, and what it stands for has no elements. -/
def Vanishes (b : Binding) (t : TypeExpr) : Prop :=
  ∃ ts, b.tuple? ts = some [] ∧ (t = .spread ts ∨ ∃ ctor, t = .spreadMap ctor ts)

/-- A union whose members all contribute nothing, if it has members at all. -/
def Emptied (b : Binding) (t : TypeExpr) : Prop :=
  ∃ members, t = .union members ∧ ∀ m ∈ members, m.Vanishes b

variable {b : Binding}

/-! ### Members -/

theorem vanishes_iff {t : TypeExpr} : t.Vanishes b ↔ (Slot.ofType t).fill b = [] := by
  cases t with
  | spread ts =>
    cases hts : b.tuple? ts <;> simp [Vanishes, Slot.ofType, Slot.fill, hts]
  | spreadMap ctor ts =>
    cases hts : b.tuple? ts <;> simp [Vanishes, Slot.ofType, Slot.fill, mapOver, hts]
  | _ => simp [Vanishes, Slot.ofType, Slot.fill]

theorem fillAll_eq_nil_iff {members : List TypeExpr} :
    fillAll b members = [] ↔ ∀ m ∈ members, m.Vanishes b := by
  simp [fillAll_eq_flatMap, vanishes_iff]

@[simp] theorem emptied_union {members : List TypeExpr} :
    (union members).Emptied b ↔ fillAll b members = [] := by
  simp [Emptied, fillAll_eq_nil_iff]

theorem not_emptied_of_isUnion {t : TypeExpr} (h : t.isUnion = false) : ¬t.Emptied b := by
  rintro ⟨members, rfl, -⟩
  cases h

/-! ### Where substitution goes through -/

theorem exists_subst_slot_iff {slot : Slot} (segment : Segment) :
    (∃ xs, slot.subst b segment = .ok xs) ↔ ∀ t ∈ slot.inner?, ∃ x, t.subst b = .ok x := by
  cases slot <;> simp [Slot.subst, Slot.inner?, exists_except_bind_iff, within_eq_ok_iff]

theorem exists_substAll_iff {place : Nat → Segment} {i : Nat} {ts : List TypeExpr} :
    (∃ xs, substAll b place i ts = .ok xs) ↔
      ∀ s ∈ ts.map Slot.ofType, ∀ t ∈ s.inner?, ∃ x, t.subst b = .ok x := by
  induction ts generalizing i with
  | nil => simp [substAll]
  | cons t ts ih =>
    rw [List.map_cons, List.forall_mem_cons, ← exists_subst_slot_iff (place i),
      ← ih (i := i + 1), substAll_cons]
    simp [exists_except_bind_iff]

/-- What holds everywhere in the elements of a list is what holds everywhere in what its slots
hold, as far as spliced forms are no matter. -/
theorem everywhere_inner_iff {P : TypeExpr → Prop} (hspread : ∀ ts, P (.spread ts))
    (hmap : ∀ ctor ts, P (.spreadMap ctor ts)) {ts : List TypeExpr} :
    (∀ t ∈ ts, t.Everywhere P) ↔
      ∀ s ∈ ts.map Slot.ofType, ∀ t ∈ s.inner?, t.Everywhere P := by
  refine ⟨everywhere_inner, fun h t ht => ?_⟩
  have hinner := h (Slot.ofType t) (List.mem_map_of_mem ht)
  cases t with
  | spread us => exact everywhere_spread.2 (hspread us)
  | spreadMap ctor us => exact everywhere_spreadMap.2 ⟨hmap ctor us, hinner ctor rfl⟩
  | _ => exact hinner _ rfl

/-- Substitution goes through if no union is emptied, and only then. -/
theorem exists_subst_iff {t : TypeExpr} :
    (∃ x, t.subst b = .ok x) ↔ t.Everywhere fun n => ¬n.Emptied b := by
  have row (place : Nat → Segment) {ts : List TypeExpr} (ih : ∀ s ∈ ts.map Slot.ofType,
      ∀ t ∈ s.inner?, (∃ x, t.subst b = .ok x) ↔ t.Everywhere fun n => ¬n.Emptied b) :
      (∃ xs, substAll b place 0 ts = .ok xs) ↔ ∀ t ∈ ts, t.Everywhere fun n => ¬n.Emptied b := by
    rw [exists_substAll_iff, everywhere_inner_iff (fun _ => not_emptied_of_isUnion rfl)
      fun _ _ => not_emptied_of_isUnion rfl]
    exact forall₄_congr ih
  induction t using inductSlots with
  | named name =>
    rw [everywhere_named]
    exact iff_of_true ⟨_, rfl⟩ (not_emptied_of_isUnion rfl)
  | var v =>
    rw [everywhere_var]
    exact iff_of_true ⟨_, rfl⟩ (not_emptied_of_isUnion rfl)
  | packed ts =>
    rw [everywhere_packed]
    exact iff_of_true ⟨_, rfl⟩ (not_emptied_of_isUnion rfl)
  | spread ts =>
    rw [everywhere_spread]
    exact iff_of_true ⟨_, rfl⟩ (not_emptied_of_isUnion rfl)
  | spreadMap ctor ts ih =>
    have hparts : (∃ x, (spreadMap ctor ts).subst b = .ok x) ↔ ∃ x, ctor.subst b = .ok x := by
      simp [subst, exists_except_bind_iff, within_eq_ok_iff]
    rw [hparts, everywhere_spreadMap, and_iff_right (not_emptied_of_isUnion rfl)]
    exact ih
  | apply head args hhead hargs =>
    have hparts : (∃ x, (apply head args).subst b = .ok x) ↔
        (∃ x, head.subst b = .ok x) ∧ ∃ xs, substAll b .arg 0 args = .ok xs := by
      simp [subst, exists_except_bind_iff, within_eq_ok_iff]
    rw [hparts, everywhere_apply, and_iff_right (not_emptied_of_isUnion rfl)]
    exact and_congr hhead (row _ hargs)
  | union members hmembers =>
    -- The members are substituted to what they are filled to, and the union of that is taken.
    have hunion {xs : List TypeExpr} (hxs : substAll b .member 0 members = .ok xs) :
        (∃ x, unionOf xs = .ok x) ↔ fillAll b members ≠ [] := by
      rw [← fillAll_of_substAll (fun _ _ _ _ _ => fill_of_subst) hxs]
      cases xs <;> simp [unionOf]
    rw [everywhere_union, emptied_union, ← row .member hmembers, subst, exists_except_bind_iff]
    constructor
    · rintro ⟨xs, hxs, hx⟩
      exact ⟨(hunion hxs).1 hx, xs, hxs⟩
    · rintro ⟨hne, xs, hxs⟩
      exact ⟨xs, hxs, (hunion hxs).2 hne⟩
  | arrow params result hparams hresult =>
    have hparts : (∃ x, (arrow params result).subst b = .ok x) ↔
        (∃ xs, substAll b .callableParam 0 params = .ok xs) ∧ ∃ x, result.subst b = .ok x := by
      simp [subst, exists_except_bind_iff, within_eq_ok_iff]
    rw [hparts, everywhere_arrow, and_iff_right (not_emptied_of_isUnion rfl)]
    exact and_congr (row _ hparams) hresult

/-! ### Where substitution fails -/

/-- A failure for an empty union, at the position of a union that is emptied. -/
structure EmptiedAt (b : Binding) (t : TypeExpr) (e : Failure) : Prop where
  cause : e.cause = .emptyUnion
  reached : ∃ u, t.follow? e.path = some u ∧ u.Emptied b

theorem EmptiedAt.under {t p : TypeExpr} {segment : Segment} {e : Failure} (h : EmptiedAt b p e)
    (hp : t.part? segment = some p) : EmptiedAt b t (e.under segment) := by
  obtain ⟨u, hu, hemptied⟩ := h.reached
  exact ⟨h.cause, u, follow?_cons_eq_some_iff.2 ⟨p, hp, hu⟩, hemptied⟩

theorem emptiedAt_of_subst_slot {slot : Slot} {segment : Segment}
    (h : ∀ t ∈ slot.inner?, FailsWith (EmptiedAt b t) (t.subst b)) :
    FailsWith (fun e => ∃ e', EmptiedAt b slot.toType e' ∧ e = e'.under segment)
      (slot.subst b segment) := by
  cases slot with
  | single t =>
    exact FailsWith.bind (.within ((h t rfl).mono fun e he => ⟨e, he, rfl⟩)) fun _ => failsWith_ok _
  | spread ts => exact failsWith_ok _
  | mapped ctor ts =>
    exact FailsWith.bind
      (.within (.within ((h ctor rfl).mono fun e he => ⟨e.under .ctor, he.under rfl, rfl⟩)))
      fun _ => failsWith_ok _

/-- In a list, substitution fails inside one of the elements. -/
theorem failsWith_substAll {Q : Failure → Prop} {place : Nat → Segment} {i : Nat}
    {ts : List TypeExpr} (h : ∀ s ∈ ts.map Slot.ofType, ∀ t ∈ s.inner?,
      FailsWith (EmptiedAt b t) (t.subst b))
    (hQ : ∀ j t, ts[j]? = some t → ∀ e, EmptiedAt b t e → Q (e.under (place (i + j)))) :
    FailsWith Q (substAll b place i ts) := by
  induction ts generalizing i with
  | nil => exact failsWith_ok _
  | cons t ts ih =>
    have hrest : FailsWith Q (substAll b place (i + 1) ts) := by
      refine ih (fun s hs => h s (by simp [List.mem_map.1 hs])) fun j u hj e he => ?_
      have hindex : i + 1 + j = i + (j + 1) := by omega
      rw [hindex]
      exact hQ (j + 1) u hj e he
    rw [substAll_cons]
    refine FailsWith.bind ((emptiedAt_of_subst_slot (h _ (by simp))).mono ?_)
      fun _ => hrest.bind fun _ => failsWith_ok _
    rintro e ⟨e', he', rfl⟩
    exact hQ 0 t rfl e' (by simpa using he')

/-- Substitution fails where a union is emptied. -/
theorem emptiedAt_of_subst (t : TypeExpr) : FailsWith (EmptiedAt b t) (t.subst b) := by
  induction t using inductSlots with
  | named | var | packed | spread => exact failsWith_ok _
  | spreadMap ctor ts ih =>
    rw [subst]
    exact FailsWith.bind (.within (ih.mono fun e he => he.under rfl)) fun _ => failsWith_ok _
  | apply head args hhead hargs =>
    have hlist : FailsWith (EmptiedAt b (apply head args)) (substAll b .arg 0 args) :=
      failsWith_substAll hargs fun j t ht e he => he.under (by simpa [part?] using ht)
    rw [subst]
    exact FailsWith.bind (.within (hhead.mono fun e he => he.under rfl)) fun _ =>
      hlist.bind fun _ => failsWith_ok _
  | union members hmembers =>
    have hlist : FailsWith (EmptiedAt b (union members)) (substAll b .member 0 members) :=
      failsWith_substAll hmembers fun j t ht e he => he.under (by simpa [part?] using ht)
    intro e he
    rw [subst] at he
    cases hxs : substAll b .member 0 members with
    | error e' =>
      rw [hxs] at he
      cases he
      exact hlist e hxs
    | ok xs =>
      obtain rfl := fillAll_of_substAll (fun _ _ _ _ _ => fill_of_subst) hxs
      rw [hxs] at he
      change unionOf (fillAll b members) = .error e at he
      cases hfill : fillAll b members with
      | nil =>
        rw [hfill] at he
        cases he
        exact ⟨rfl, _, rfl, emptied_union.2 hfill⟩
      | cons x rest =>
        rw [hfill] at he
        cases he
  | arrow params result hparams hresult =>
    have hlist : FailsWith (EmptiedAt b (arrow params result))
        (substAll b .callableParam 0 params) :=
      failsWith_substAll hparams fun j t ht e he => he.under (by simpa [part?] using ht)
    rw [subst]
    exact hlist.bind fun _ =>
      FailsWith.bind (.within (hresult.mono fun e he => he.under rfl)) fun _ => failsWith_ok _

/-- Substitution fails if and only if a union anywhere in the type has no members but spliced ones
that stand for no types.  It then fails for an empty union, at the position of such a union. -/
theorem subst_fails_iff (t : TypeExpr) (b : Binding) :
    ((∃ e, t.subst b = .error e) ↔
      ∃ members, .union members ∈ t.nodes ∧ ∀ m ∈ members, m.Vanishes b) ∧
    ∀ e, t.subst b = .error e → e.cause = .emptyUnion ∧
      ∃ members, t.follow? e.path = some (.union members) ∧ ∀ m ∈ members, m.Vanishes b := by
  have hlocated (e : Failure) (he : t.subst b = .error e) : e.cause = .emptyUnion ∧
      ∃ members, t.follow? e.path = some (.union members) ∧ ∀ m ∈ members, m.Vanishes b := by
    obtain ⟨hcause, u, hu, members, rfl, hmembers⟩ := emptiedAt_of_subst t e he
    exact ⟨hcause, members, hu, hmembers⟩
  refine ⟨⟨?_, ?_⟩, hlocated⟩
  · rintro ⟨e, he⟩
    obtain ⟨-, members, hu, hmembers⟩ := hlocated e he
    exact ⟨members, mem_nodes_of_follow? hu, hmembers⟩
  · rintro ⟨members, hnode, hmembers⟩
    cases h : t.subst b with
    | error e => exact ⟨e, rfl⟩
    | ok x => exact absurd ⟨members, rfl, hmembers⟩ (exists_subst_iff.1 ⟨x, h⟩ _ hnode)

end TypeExpr

end Polyadic
