import Polyadic.Proofs.Ambiguity
import Polyadic.Proofs.FailureCauses

/-! # Lists with one tuple variable

A list that knows one tuple variable, in whatever forms and at whatever depth, is never ambiguous:
the check accepts it, and no call of it is left with a split between several open tuple variables
(`single_never_ambiguous`).  The check and the match are two walks over the list, and the second
meets types that are not in it, where a mapped slot is expanded.  What is bound comes from the
arguments, so these types mention no other tuple variable as long as the arguments do not. -/

namespace Polyadic

open Attempt

/-- Every scalar variable, and one tuple variable. -/
def OnlyTuple (ts : TupleVar) : Variable → Prop
  | .scalar _ => True
  | .tuple us => us = ts

section only

variable {ts : TupleVar} {t : TypeExpr} {slots : List Slot}

theorem within_onlyTuple_iff : t.Within (OnlyTuple ts) ↔ ∀ us ∈ t.tupleMentions, us = ts := by
  constructor
  · intro h us hus
    exact h (.tuple us) hus
  · rintro h (v | us) hx
    · exact trivial
    · exact h us hx

theorem Slot.tuple?_of_within {slot : Slot} (h : slot.toType.Within (OnlyTuple ts)) {us : TupleVar}
    (hus : slot.tuple? = some us) : us = ts :=
  within_onlyTuple_iff.1 h us (mem_tupleMentions hus)

theorem Slot.inner?_of_within {X : Variable → Prop} {slot : Slot} (h : slot.toType.Within X) :
    ∀ t ∈ slot.inner?, t.Within X := by
  intro t ht
  cases slot with
  | single u =>
    cases ht
    exact h
  | spread us => cases ht
  | mapped ctor us =>
    cases ht
    exact fun x hx => h x (TypeExpr.mentions_ctor hx)

theorem length_unknownTuples_le_one (h : ∀ s ∈ slots, s.toType.Within (OnlyTuple ts))
    (known : Known) : (unknownTuples known slots).length ≤ 1 := by
  refine length_eraseDups_le_one (x := ts) fun us hus => ?_
  obtain ⟨slot, hslot, hus⟩ := List.mem_filterMap.1 (List.mem_filter.1 hus).1
  exact Slot.tuple?_of_within (h slot hslot) hus

/-! ### The check -/

theorem checkFrom_of_single {place : Nat → Segment} (side : Side) (start : Nat) (known : Known)
    (h : ∀ s ∈ slots, s.toType.Within (OnlyTuple ts))
    (hcheck : ∀ s ∈ slots, ∀ known, s.checkSplits known = .ok ()) :
    checkFrom place side start slots known = .ok () := by
  induction side, start, slots, known using checkFrom_induct with
  | nil side start known => rfl
  | front side start slots known slot rest hm ih =>
    have hslots := (nextMove_eq_front hm).1
    rw [checkFrom_front hm, hcheck slot (by simp [hslots])]
    exact ih (fun s hs => h s (by simp [hslots, hs])) fun s hs => hcheck s (by simp [hslots, hs])
  | back side start slots known slot rest hm ih =>
    have hslots := (nextMove_eq_back hm).1
    rw [checkFrom_back hm, hcheck slot (by simp [hslots])]
    exact ih (fun s hs => h s (by simp [hslots, hs])) fun s hs => hcheck s (by simp [hslots, hs])
  | stuck side start slots known slot rest hm ih =>
    have hslots := (nextMove_eq_stuck hm).1
    have hone := length_unknownTuples_le_one h known
    rw [checkFrom_stuck hm, if_neg (by omega)]
    simp only [hcheck slot (by simp [hslots])]
    exact ih (fun s hs => h s (by simp [hslots, hs])) fun s hs => hcheck s (by simp [hslots, hs])

theorem Slot.checkSplits_eq_ok {slot : Slot}
    (h : ∀ t ∈ slot.inner?, ∀ known, t.checkSplits known = .ok ()) (known : Known) :
    slot.checkSplits known = .ok () := by
  cases slot with
  | single t => exact h t rfl known
  | spread us => rfl
  | mapped ctor us => rw [checkSplits, h ctor rfl known, within]

/-- The lists inside a type that knows one tuple variable are determined, whatever is known. -/
theorem checkSplits_of_single (h : t.Within (OnlyTuple ts)) (known : Known) :
    t.checkSplits known = .ok () := by
  have row {place : Nat → Segment} {types : List TypeExpr}
      (hwithin : ∀ t ∈ types, t.Within (OnlyTuple ts))
      (hinner : ∀ s ∈ types.map Slot.ofType, ∀ t ∈ s.inner?, t.Within (OnlyTuple ts) →
        ∀ known, t.checkSplits known = .ok ()) (known : Known) :
      checkSlots place (types.map Slot.ofType) known = .ok () := by
    have hslots : ∀ s ∈ types.map Slot.ofType, s.toType.Within (OnlyTuple ts) := by
      intro s hs
      obtain ⟨t, ht, rfl⟩ := List.mem_map.1 hs
      rw [Slot.toType_ofType]
      exact hwithin t ht
    refine checkFrom_of_single .front 0 known hslots fun s hs => Slot.checkSplits_eq_ok ?_
    intro t ht
    exact hinner s hs t ht (Slot.inner?_of_within (hslots s hs) t ht)
  induction t using TypeExpr.inductSlots generalizing known with
  | named | var | packed | spread => rfl
  | spreadMap ctor us ih => exact ih (fun x hx => h x (TypeExpr.mentions_ctor hx)) known
  | apply head args hhead hargs =>
    have hpart (p : TypeExpr) (hp : p ∈ head :: args) : p.Within (OnlyTuple ts) := h.part hp
    rw [TypeExpr.checkSplits_apply, hhead (hpart head (by simp)) known]
    exact row (fun t ht => hpart t (by simp [ht])) (fun s hs t ht h => hargs s hs t ht h) known
  | union members hmembers =>
    rw [TypeExpr.checkSplits_union]
    exact row (fun t ht => h.part ht) (fun s hs t ht h => hmembers s hs t ht h) known
  | arrow params result hparams hresult =>
    have hpart (p : TypeExpr) (hp : p ∈ result :: params) : p.Within (OnlyTuple ts) := h.part hp
    rw [TypeExpr.checkSplits_arrow,
      row (fun t ht => hpart t (by simp [ht])) (fun s hs t ht h => hparams s hs t ht h) known]
    change within .result (result.checkSplits known) = .ok ()
    rw [hresult (hpart result (by simp)) known, within]

/-! ### The match -/

/-- A match of types over some variables binds types over these variables, and whatever it comes
upon is over them. -/
def enclosedInvariant (X : Variable → Prop) : MatchInvariant where
  actual := TypeExpr.Within X
  formal _ := TypeExpr.Within X
  kept := Binding.Assigns (TypeExpr.Within X)
  actual_parts := TypeExpr.Within.part
  formal_parts := TypeExpr.Within.part
  formal_ctor h x hx := h x (TypeExpr.mentions_ctor hx)
  formal_expansion hb h hts x hx :=
    within_apply (fun y hy => h y (TypeExpr.mentions_ctor hy))
      (List.forall_mem_singleton.2 (hb.tuples _ _ hts x hx))
  formal_later _ h := h
  bindScalar {_ v _} hb _ ht _ := hb.bindScalar ht v
  bindTuple {_ _ ts _} hb _ _ hcontents _ := hb.bindTuple hcontents ts

/-- A list and arguments that know one tuple variable together do not match ambiguously. -/
theorem not_ambiguous_of_single {list : ParameterList} {arguments : List TypeExpr}
    (hlist : ∀ s ∈ list.slots, s.toType.Within (OnlyTuple ts))
    (hargs : ∀ t ∈ arguments, t.Within (OnlyTuple ts)) :
    (matchParameters list arguments).Meets (fun _ => True)
      fun e => ∀ tuples, e.cause ≠ .ambiguousSplit tuples := by
  let I := enclosedInvariant (OnlyTuple ts)
  rw [matchParameters_eq]
  refine (I.explained_of_matchList I.explainsOn_unify hargs hlist Binding.assigns_empty).mono
    (fun _ h => h) fun e he tuples htuples => ?_
  rw [htuples] at he
  cases he with
  | ambiguousSplit _ hformal hseveral =>
    refine absurd hseveral (Nat.not_lt_of_le ?_)
    exact length_openTuples_le_one fun s hs us => Slot.tuple?_of_within (hformal s hs)

end only

/-- A parameter list in which at most one tuple variable is mentioned is accepted by the check, and
no call of it with ground arguments is left with an ambiguous split. -/
theorem single_never_ambiguous {list : ParameterList} (h : list.tupleVars.length ≤ 1) :
    list.check [] = .ok () ∧ list.NeverAmbiguous := by
  obtain ⟨ts, hts⟩ := ParameterList.exists_single_tuple h
  have hlist : ∀ s ∈ list.slots, s.toType.Within (OnlyTuple ts) := fun s hs =>
    within_onlyTuple_iff.2 (hts s hs)
  constructor
  · refine checkFrom_of_single .front 0 [] hlist fun s hs => Slot.checkSplits_eq_ok ?_
    intro t ht
    exact checkSplits_of_single (Slot.inner?_of_within (hlist s hs) t ht)
  · intro arguments hground e he
    refine (not_ambiguous_of_single hlist fun t ht => ?_).of_error he
    exact fun x hx => absurd hx ((hground t ht).not_mentions x)

/-- The list `(list[*Map[F[Ts0], Ts0]], *Ts0, *Ts0, *Map[list, Ts0])` mentions `Ts0` in every form,
and in `(*Ts0, *Ts0)` nothing but the number of arguments fixes its length. -/
theorem single_never_ambiguous_forms :
    (ParameterList.mk [.single (.apply (.named "list")
          [.spreadMap (.apply (.named "F") [.packed ⟨0⟩]) ⟨0⟩]),
        .spread ⟨0⟩, .spread ⟨0⟩, .mapped (.named "list") ⟨0⟩]).check [] = .ok () ∧
      (ParameterList.mk [.single (.apply (.named "list")
          [.spreadMap (.apply (.named "F") [.packed ⟨0⟩]) ⟨0⟩]),
        .spread ⟨0⟩, .spread ⟨0⟩, .mapped (.named "list") ⟨0⟩]).NeverAmbiguous ∧
      (ParameterList.mk [.spread ⟨0⟩, .spread ⟨0⟩]).NeverAmbiguous := by
  have hforms := @single_never_ambiguous ⟨[.single (.apply (.named "list")
      [.spreadMap (.apply (.named "F") [.packed ⟨0⟩]) ⟨0⟩]),
    .spread ⟨0⟩, .spread ⟨0⟩, .mapped (.named "list") ⟨0⟩]⟩ (by decide)
  exact ⟨hforms.1, hforms.2, (single_never_ambiguous (by decide)).2⟩

end Polyadic
