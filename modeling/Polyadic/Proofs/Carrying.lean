import Polyadic.Proofs.Becoming
import Polyadic.Proofs.Inversion

/-! # Matching before and after variables are filled in

Arguments with open variables are matched against a parameter list, and so are the same arguments
when the variables have been filled in and the result has been expanded.  Where both matches go
through, the second binds the parameters to what becomes of what the first binds them to
(`carries_of_unify`), under a condition: a spliced form stands for any number of arguments, so it
may go to a parameter that takes any number (`Fits`). -/

namespace Polyadic

open Attempt

/-- How a slot may be matched for its binders to be linked: it mentions no tuple variable but `ts`,
the scalar variables that it binds are bound to single types in the end, and so are the elements
of the sequence of `ts` if the slot has spliced maps. -/
structure Slot.Fits (ts : TupleVar) (final : Binding) (slot : Slot) : Prop where
  only : ∀ us ∈ slot.toType.tupleMentions, us = ts
  scalars : ∀ v, .scalar v ∈ slot.binders → ∀ t, final.scalar? v = some t → t.isSpliced = false
  maps : slot.toType.MapFree ∨
    ∀ xs, final.tuple? ts = some xs → ∀ x ∈ xs, x.isSpliced = false

section fits

open TypeExpr

variable {ts : TupleVar} {final : Binding} {head result : TypeExpr} {types : List TypeExpr}

theorem Slot.Fits.tuple? {slot : Slot} (h : slot.Fits ts final) {us : TupleVar}
    (hus : slot.tuple? = some us) : us = ts := by
  cases slot with
  | single t => cases hus
  | spread | mapped =>
    cases hus
    exact h.only _ (by simp [Slot.toType])

/-- The slots of a list fit if the whole does. -/
theorem fits_slots (only : ∀ t ∈ types, ∀ us ∈ t.tupleMentions, us = ts)
    (scalars : ∀ v, .scalar v ∈ bindersAll types → ∀ t, final.scalar? v = some t →
      t.isSpliced = false)
    (maps : (∀ t ∈ types, t.MapFree) ∨
      ∀ xs, final.tuple? ts = some xs → ∀ x ∈ xs, x.isSpliced = false) :
    ∀ slot ∈ types.map Slot.ofType, slot.Fits ts final := by
  intro slot hslot
  obtain ⟨t, ht, rfl⟩ := List.mem_map.1 hslot
  refine ⟨?_, ?_, ?_⟩
  · rw [Slot.toType_ofType]
    exact only t ht
  · intro v hv
    refine scalars v ?_
    rw [bindersAll_eq_flatMap]
    exact List.mem_flatMap.2 ⟨_, hslot, hv⟩
  · rw [Slot.toType_ofType]
    exact maps.imp_left fun h => h t ht

theorem Slot.Fits.apply (h : (Slot.single (.apply head types)).Fits ts final) :
    (Slot.single head).Fits ts final ∧ ∀ slot ∈ types.map Slot.ofType, slot.Fits ts final := by
  have only := h.only
  have maps := h.maps.imp_left everywhere_apply.1
  simp only [Slot.toType, tupleMentions_apply, List.mem_append, List.mem_flatMap] at only
  refine ⟨⟨fun us hus => only us (.inl hus), ?_, maps.imp_left fun h => h.2.1⟩, ?_⟩
  · intro v hv
    exact h.scalars v (List.mem_append_left _ hv)
  · exact fits_slots (fun t ht us hus => only us (.inr ⟨t, ht, hus⟩))
      (fun v hv => h.scalars v (List.mem_append_right _ hv)) (maps.imp_left fun h => h.2.2)

theorem Slot.Fits.union (h : (Slot.single (.union types)).Fits ts final) :
    ∀ slot ∈ types.map Slot.ofType, slot.Fits ts final := by
  have only := h.only
  simp only [Slot.toType, tupleMentions_union, List.mem_flatMap] at only
  exact fits_slots (fun t ht us hus => only us ⟨t, ht, hus⟩) h.scalars
    (h.maps.imp_left fun h => (everywhere_union.1 h).2)

theorem Slot.Fits.arrow (h : (Slot.single (.arrow types result)).Fits ts final) :
    (∀ slot ∈ types.map Slot.ofType, slot.Fits ts final) ∧
      (Slot.single result).Fits ts final := by
  have only := h.only
  have maps := h.maps.imp_left everywhere_arrow.1
  simp only [Slot.toType, tupleMentions_arrow, List.mem_append, List.mem_flatMap] at only
  refine ⟨?_, ⟨fun us hus => only us (.inr hus), ?_, maps.imp_left fun h => h.2.2⟩⟩
  · exact fits_slots (fun t ht us hus => only us (.inl ⟨t, ht, hus⟩))
      (fun v hv => h.scalars v (List.mem_append_left _ hv)) (maps.imp_left fun h => h.2.1)
  · intro v hv
    exact h.scalars v (List.mem_append_right _ hv)

end fits

/-! ### Slots -/

namespace Setting

variable {S : Setting} {ts : TupleVar} {final : Binding}

/-- The match of a type links its binders, whatever it is matched against on the two sides. -/
def Carries (S : Setting) (ts : TupleVar) (final : Binding) (f : TypeExpr) : Prop :=
  ∀ a a' b c b' c', S.scope.Settled a → S.Becomes a a' → S.InSync ts b c →
    (unify f a b).value? = some b' → (unify f a' c).value? = some c' → b' ≤ final →
    S.InSync ts b' c' ∧ ∀ x ∈ f.binders, S.Linked b' c' x

/-- What a row needs of each of its slots. -/
structure Ready (S : Setting) (ts : TupleVar) (final : Binding) (slot : Slot) : Prop where
  fits : slot.Fits ts final
  one : ∀ f, slot = .single f → (TypeExpr.fillAll S.values [f]).length = 1
  carries : ∀ f, slot = .single f → S.Carries ts final f

section slots

open TypeExpr

variable {place place' : Nat → Segment} {slot : Slot} {slots : List Slot} {run run' : Run}
  {b b' b₁ c c' c₁ : Binding} {types types' : List TypeExpr} {L : TupleVar → Nat}

/-- A list that becomes another one is as long as that, when the variables have been filled in. -/
theorem BecomeAll.length_fillAll (h : S.BecomeAll types types') :
    types'.length = (fillAll S.values types).length := by
  have hmeets : (expandAll S.scope S.depth (fillAll S.values types)).Meets
      (List.Forall₂ (fun _ _ => True) (fillAll S.values types)) fun _ => True :=
    meets_replaceAll fun _ _ => meets_iff.2 ⟨fun _ _ => trivial, fun _ _ => trivial⟩
  exact (hmeets.of_ok h).length_eq.symm

/-- The argument of a single slot is a single one on both sides. -/
theorem length_single (h : S.Ready ts final slot) {f a : TypeExpr} (hslot : slot = .single f)
    (hm : (unify f a b).value? = some b₁) (hle : b₁ ≤ final) (ha : S.BecomeAll [a] types') :
    types'.length = 1 := by
  cases hspliced : a.isSpliced with
  | false =>
    obtain ⟨a', -, rfl⟩ := (becomeAll_singleton hspliced).1 ha
    rfl
  | true =>
    rcases eq_of_unify_spliced hspliced hm with rfl | ⟨v, rfl⟩
    · rw [ha.length_fillAll, h.one _ hslot]
    · have hv := Binding.scalar?_of_le hle (scalar?_of_unify_var hm)
      rw [h.fits.scalars v (by simp [hslot, Slot.binders, binders]) a hv] at hspliced
      cases hspliced

/-- The run of a known slot becomes as long as the slot is. -/
theorem length_of_known (h : S.Ready ts final slot)
    (hL : ∀ xs, b.tuple? ts = some xs → ∃ ys, S.BecomeAll xs ys ∧ L ts = ys.length)
    (hknown : slot.isOpen b = false) (hwidth : run.length = slot.width b)
    (hm : (matchSlot unify place slot run b).value? = some b₁) (hle : b₁ ≤ final)
    (hrun : S.BecomeAll run.types types') : types'.length = slot.lengthIn L := by
  cases slot with
  | single f =>
    obtain ⟨a, ha⟩ := List.length_eq_one_iff.1 hwidth
    rw [ha] at hrun
    exact length_single h rfl (unify_of_matchSlot_single ha hm) hle hrun
  | spread us =>
    obtain rfl : us = ts := h.fits.tuple? rfl
    obtain ⟨xs, hxs⟩ := Slot.exists_of_known rfl hknown
    obtain ⟨ys, hys, hlength⟩ := hL xs hxs
    rw [value?_matchSlot_spread, value?_assignTuple_known hxs] at hm
    split at hm
    · rename_i heq
      rw [← heq] at hrun
      rw [hrun.unique hys, Slot.lengthIn_of_tuple rfl, hlength]
    · cases hm
  | mapped ctor us =>
    obtain rfl : us = ts := h.fits.tuple? rfl
    obtain ⟨xs, hxs⟩ := Slot.exists_of_known rfl hknown
    obtain ⟨ys, hys, hlength⟩ := hL xs hxs
    have hcount : run.types.length = xs.length := by
      rw [← Run.length, hwidth, Slot.width_of_bound rfl hxs]
    have hfinal : final.tuple? us = some xs :=
      Binding.tuple?_of_le (Binding.le_trans (le_of_matchSlot hm) hle) hxs
    have hsingle : ∀ x ∈ xs, x.isSpliced = false := by
      rcases h.fits.maps with hfree | hmaps
      · cases hfree.self
      · exact hmaps xs hfinal
    rw [value?_matchSlot_known hxs] at hm
    rw [hrun.length (isSpliced_of_matchPairs hcount hm), Slot.lengthIn_of_tuple rfl, hlength,
      hys.length hsingle, hcount]

/-- What the operands of applications become are the operands of what the applications become, if
these are applications to one argument too. -/
theorem becomeAll_operands (happly : ∀ t ∈ types, ∃ head operand, t = .apply head [operand])
    (hsettled : ∀ t ∈ types, S.scope.Settled t) (h : S.BecomeAll types types') :
    ∃ ys, S.BecomeAll (operands types) ys ∧
      ((∀ t ∈ types', ∃ head operand, t = .apply head [operand]) →
        ys = operands types') := by
  induction types generalizing types' with
  | nil => exact ⟨[], becomeAll_nil.2 rfl, fun _ => by rw [becomeAll_nil.1 h]; rfl⟩
  | cons t types ih =>
    obtain ⟨head, operand, rfl⟩ := happly t (by simp)
    obtain ⟨t', types', ht', htypes', rfl⟩ := (becomeAll_cons rfl).1 h
    have hhead : S.scope.Settled head :=
      (hsettled (.apply head [operand]) (by simp)).part List.mem_cons_self
    obtain ⟨head', args', -, hargs', rfl⟩ := (becomes_apply hhead).1 ht'
    obtain ⟨ys, hys, hrest⟩ :=
      ih (fun u hu => happly u (by simp [hu])) (fun u hu => hsettled u (by simp [hu])) htypes'
    refine ⟨args' ++ ys, ?_, ?_⟩
    · rw [operands_cons, ← List.singleton_append]
      exact becomeAll_append.2 ⟨args', ys, hargs', hys, rfl⟩
    · intro hall
      obtain ⟨_, operand', heq⟩ := hall _ List.mem_cons_self
      cases heq
      rw [operands_cons, hrest fun u hu => hall u (by simp [hu]), List.singleton_append]

/-- The run of an open slot becomes as long as what its tuple variable is bound to. -/
theorem length_of_open (h : S.Ready ts final slot) (hopen : slot.isOpen b = true)
    (hm : (matchSlot unify place slot run b).value? = some b₁) (hle : b₁ ≤ final)
    (hsettled : ∀ t ∈ run.types, S.scope.Settled t) (hrun : S.BecomeAll run.types types') :
    ∃ xs ys, b₁.tuple? ts = some xs ∧ S.BecomeAll xs ys ∧ types'.length = ys.length := by
  obtain ⟨us, hus, hnone⟩ := Slot.isOpen_iff.1 hopen
  obtain rfl : us = ts := h.fits.tuple? hus
  cases slot with
  | single f => cases hus
  | spread us =>
    cases hus
    rw [value?_matchSlot_spread] at hm
    exact ⟨run.types, types', tuple?_of_assignTuple hm, hrun, rfl⟩
  | mapped ctor us =>
    cases hus
    obtain ⟨happly, hoperands⟩ := exists_of_matchSlot_open hnone hm
    obtain ⟨ys, hys, -⟩ := becomeAll_operands happly hsettled hrun
    have hsingle : ∀ t ∈ run.types, t.isSpliced = false := by
      intro t ht
      obtain ⟨head, operand, rfl⟩ := happly t ht
      rfl
    have hoperand : ∀ x ∈ operands run.types, x.isSpliced = false := by
      rcases h.fits.maps with hfree | hmaps
      · cases hfree.self
      · exact hmaps _ (Binding.tuple?_of_le hle hoperands)
    refine ⟨_, ys, hoperands, hys, ?_⟩
    rw [hrun.length hsingle, hys.length hoperand, length_operands happly]

/-- A slot that takes what becomes of its run links its binders. -/
theorem carries_of_matchSlot (h : S.Ready ts final slot) (hone : slot.takesRun = false →
      run.length = 1) (hsettled : ∀ t ∈ run.types, S.scope.Settled t)
    (hrun : S.BecomeAll run.types run'.types) (hsync : S.InSync ts b c)
    (hm : (matchSlot unify place slot run b).value? = some b₁)
    (hm' : (matchSlot unify place' slot run' c).value? = some c₁) (hle : b₁ ≤ final) :
    S.InSync ts b₁ c₁ ∧ ∀ x ∈ slot.binders, S.Linked b₁ c₁ x := by
  cases slot with
  | single f =>
    obtain ⟨a, ha⟩ := List.length_eq_one_iff.1 (hone rfl)
    have hunify := unify_of_matchSlot_single ha hm
    rw [ha] at hrun
    obtain ⟨a', ha'⟩ := List.length_eq_one_iff.1 (length_single h rfl hunify hle hrun)
    have hunify' := unify_of_matchSlot_single ha' hm'
    rw [ha'] at hrun
    cases hspliced : a.isSpliced with
    | false =>
      obtain ⟨_, hbecomes, heq⟩ := (becomeAll_singleton hspliced).1 hrun
      cases heq
      exact h.carries f rfl a a' b c b₁ c₁ (hsettled a (by simp [ha])) hbecomes hsync hunify
        hunify' hle
    | true =>
      rcases eq_of_unify_spliced hspliced hunify with rfl | ⟨v, rfl⟩
      · obtain ⟨-, rfl⟩ := eq_of_unify_of_spliced hspliced hunify
        obtain ⟨-, rfl⟩ := eq_of_unify_of_spliced hspliced hunify'
        refine ⟨hsync, ?_⟩
        cases f with
        | spread | spreadMap => simp [Slot.binders, binders]
        | _ => cases hspliced
      · have hv := Binding.scalar?_of_le hle (scalar?_of_unify_var hunify)
        rw [h.fits.scalars v (by simp [Slot.binders, binders]) a hv] at hspliced
        cases hspliced
  | spread us =>
    obtain rfl : us = ts := h.fits.tuple? rfl
    rw [value?_matchSlot_spread] at hm hm'
    have hlinked : S.Linked b₁ c₁ (.tuple us) :=
      ⟨run.types, run'.types, tuple?_of_assignTuple hm, tuple?_of_assignTuple hm', hrun⟩
    exact ⟨.inr hlinked, List.forall_mem_singleton.2 hlinked⟩
  | mapped ctor us =>
    obtain rfl : us = ts := h.fits.tuple? rfl
    have hlinked : S.Linked b₁ c₁ (.tuple us) := by
      cases hts : b.tuple? us with
      | some xs => exact (hsync.linked hts).later (le_of_matchSlot hm) (le_of_matchSlot hm')
      | none =>
        obtain ⟨happly, hoperands⟩ := exists_of_matchSlot_open hts hm
        obtain ⟨happly', hoperands'⟩ := exists_of_matchSlot_open (hsync.tuple?_eq_none hts) hm'
        obtain ⟨ys, hys, heq⟩ := becomeAll_operands happly hsettled hrun
        exact ⟨_, ys, hoperands, heq happly' ▸ hoperands', hys⟩
    exact ⟨.inr hlinked, List.forall_mem_singleton.2 hlinked⟩

end slots

/-! ### Rows -/

section rows

open TypeExpr

variable {place place' : Nat → Segment} {slot : Slot} {slots : List Slot} {run run' : Run}
  {b b' c c' : Binding} {types' : List TypeExpr} {side : Side}

/-- What a run becomes, cut where the run is cut. -/
theorem becomeAll_cut (n : Nat) (h : S.BecomeAll run.types types') :
    ∃ xs ys, S.BecomeAll (run.first n).types xs ∧ S.BecomeAll (run.after n).types ys ∧
      types' = xs ++ ys := by
  rw [← List.take_append_drop n run.types] at h
  exact becomeAll_append.1 h

/-- When the tuple variable is bound, a row becomes as long as its slots are. -/
theorem length_of_rowValue {L : TupleVar → Nat} {xs ys : List TypeExpr}
    (hslots : ∀ slot ∈ slots, S.Ready ts final slot) (hxs : b.tuple? ts = some xs)
    (hys : S.BecomeAll xs ys) (hL : L ts = ys.length)
    (hm : rowValue place ⟨side, slots, run, b⟩ = some b') (hle : b' ≤ final)
    (hrun : S.BecomeAll run.types types') : types'.length = rowLength L slots := by
  induction hn : slots.length generalizing slots side run b types' with
  | zero =>
    obtain rfl := List.eq_nil_of_length_eq_zero hn
    rw [rowValue_nil] at hm
    split at hm
    · rename_i hempty
      rw [List.isEmpty_iff.1 hempty, becomeAll_nil] at hrun
      rw [hrun]
      rfl
    · cases hm
  | succ n ih =>
    have hbound : ∀ xs', b.tuple? ts = some xs' → ∃ ys, S.BecomeAll xs' ys ∧ L ts = ys.length := by
      intro xs' hxs'
      rw [hxs, Option.some.injEq] at hxs'
      exact ⟨ys, hxs' ▸ hys, hL⟩
    have hknown : ∀ slot ∈ slots, slot.isOpen b = false := by
      intro slot hslot
      rw [Bool.eq_false_iff]
      intro hopen
      obtain ⟨us, hus, hnone⟩ := Slot.isOpen_iff.1 hopen
      obtain rfl := (hslots slot hslot).fits.tuple? hus
      rw [hxs] at hnone
      cases hnone
    cases hmove : nextMove (fun s => !s.isOpen b) side slots with
    | done =>
      rw [nextMove_eq_done hmove] at hn
      cases hn
    | front slot rest =>
      obtain ⟨hwidth, b₁, hb₁, hrest⟩ := exists_of_rowValue_front hmove hm
      obtain rfl := (nextMove_eq_front hmove).1
      obtain ⟨seg, types', hseg, htypes, rfl⟩ := becomeAll_cut (slot.width b) hrun
      have hslot := length_of_known (hslots slot (by simp)) hbound (hknown slot (by simp))
        hwidth hb₁ (Binding.le_trans (le_of_rowValue hrest) hle) hseg
      have htail := ih (fun s hs => hslots s (by simp [hs]))
        (Binding.tuple?_of_le (le_of_matchSlot hb₁) hxs) hrest htypes (by simpa using hn)
      rw [List.length_append, hslot, htail, rowLength_cons]
    | back rest slot =>
      obtain ⟨hwidth, b₁, hb₁, hrest⟩ := exists_of_rowValue_back hmove hm
      obtain rfl := (nextMove_eq_back hmove).1
      obtain ⟨types', seg, htypes, hseg, rfl⟩ := becomeAll_cut (run.length - slot.width b) hrun
      have hslot := length_of_known (hslots slot (by simp)) hbound (hknown slot (by simp))
        hwidth hb₁ (Binding.le_trans (le_of_rowValue hrest) hle) hseg
      have htail := ih (fun s hs => hslots s (by simp [hs]))
        (Binding.tuple?_of_le (le_of_matchSlot hb₁) hxs) hrest htypes (by simpa using hn)
      rw [List.length_append, hslot, htail, rowLength_append, rowLength_cons, rowLength_nil,
        Nat.add_zero]
    | stuck slot rest =>
      obtain ⟨rfl, hopen, -⟩ := nextMove_eq_stuck hmove
      rw [hknown slot (by simp)] at hopen
      cases hopen

/-- The slots that are open on the one side are open on the other one. -/
theorem InSync.isOpen_eq (hsync : S.InSync ts b c) (h : slot.Fits ts final) :
    slot.isOpen b = slot.isOpen c := by
  cases slot with
  | single f => rfl
  | spread us | mapped ctor us =>
    obtain rfl : us = ts := h.tuple? rfl
    rcases hsync with ⟨hb, hc⟩ | ⟨xs, ys, hb, hc, -⟩ <;> simp [Slot.isOpen, Slot.length?, hb, hc]

/-- The run of a known slot becomes as long as the slot is on the other side. -/
theorem InSync.length_of_known (hsync : S.InSync ts b c) (h : S.Ready ts final slot)
    (hknown : slot.isOpen b = false) (hwidth : run.length = slot.width b)
    (hm : (matchSlot unify place slot run b).value? = some b') (hle : b' ≤ final)
    (hrun : S.BecomeAll run.types types') : types'.length = slot.width c := by
  have hlength : ∀ xs, b.tuple? ts = some xs →
      ∃ ys, S.BecomeAll xs ys ∧ c.lengthOf ts = ys.length := by
    intro xs hxs
    obtain ⟨_, ys, hxs', hys, hbecome⟩ := hsync.linked hxs
    rw [hxs, Option.some.injEq] at hxs'
    exact ⟨ys, hxs' ▸ hbecome, measures_lengthOf c ts ys hys⟩
  rw [Setting.length_of_known h hlength hknown hwidth hm hle hrun]
  rw [hsync.isOpen_eq h.fits] at hknown
  exact Slot.lengthIn_of_known (measures_lengthOf c) hknown

/-- The run of an open slot becomes as long as its share on the other side. -/
theorem InSync.length_of_stuck (hsync : S.InSync ts b c)
    (hslots : ∀ s ∈ slot :: slots, S.Ready ts final s) (hopen : slot.isOpen b = true)
    {width width' : Nat} {b₁ : Binding}
    (hm : (matchSlot unify place slot (run.first width) b).value? = some b₁)
    (hrest : rowValue place ⟨side, slots, run.after width, b₁⟩ = some b') (hle : b' ≤ final)
    (hsettled : ∀ t ∈ run.types, S.scope.Settled t) (hrun : S.BecomeAll run.types run'.types)
    (hshare : (evenShare (slot :: slots) run' c).value? = some width')
    (htypes : S.BecomeAll (run.first width).types types') : types'.length = width' := by
  have hready := hslots slot (by simp)
  obtain ⟨us, hus, hnone⟩ := Slot.isOpen_iff.1 hopen
  obtain rfl := hready.fits.tuple? hus
  obtain ⟨xs, ys, hxs, hys, hlen⟩ := length_of_open hready hopen hm
    (Binding.le_trans (le_of_rowValue hrest) hle)
    (fun t ht => hsettled t (List.mem_of_mem_take ht)) htypes
  -- The lengths that the other side knows, with the one that this slot settles.
  let L (vs : TupleVar) : Nat := if vs = us then ys.length else c.lengthOf vs
  have hL : L us = ys.length := if_pos rfl
  have hmeasures : Measures L c := by
    intro vs contents hvs
    have hne : vs ≠ us := by
      rintro rfl
      rw [hsync.tuple?_eq_none hnone] at hvs
      cases hvs
    rw [show L vs = c.lengthOf vs from if_neg hne]
    exact measures_lengthOf c vs contents hvs
  obtain ⟨seg, tail, hseg, htail, heq⟩ := becomeAll_cut width hrun
  have htailLength := length_of_rowValue (fun s hs => hslots s (by simp [hs])) hxs hys hL hrest
    hle htail
  have htotal : run'.length = rowLength L (slot :: slots) := by
    rw [Run.length, heq, List.length_append, htailLength, hseg.unique htypes, hlen, rowLength_cons,
      Slot.lengthIn_of_tuple hus, hL]
  rw [hsync.isOpen_eq hready.fits] at hopen
  rw [evenShare_eq_lengthIn hmeasures (by simp) hopen htotal hshare, Slot.lengthIn_of_tuple hus, hL,
    hlen]

/-- Two runs are cut alike if what the first part becomes has the right length. -/
theorem becomeAll_first {n m : Nat} (hrun : S.BecomeAll run.types run'.types)
    (hlen : ∀ xs, S.BecomeAll (run.first n).types xs → xs.length = m) :
    S.BecomeAll (run.first n).types (run'.first m).types ∧
      S.BecomeAll (run.after n).types (run'.after m).types := by
  obtain ⟨xs, ys, hxs, hys, heq⟩ := becomeAll_cut n hrun
  have hfirst : (run'.first m).types = xs := by
    rw [Run.first, heq, ← hlen xs hxs, List.take_left]
  have hafter : (run'.after m).types = ys := by
    rw [Run.after, heq, ← hlen xs hxs, List.drop_left]
  rw [hfirst, hafter]
  exact ⟨hxs, hys⟩

/-- Two runs are cut alike if what the last part becomes has the right length. -/
theorem becomeAll_last {n k : Nat} (hrun : S.BecomeAll run.types run'.types)
    (hlen : ∀ xs, S.BecomeAll (run.after n).types xs → xs.length = k) :
    S.BecomeAll (run.first n).types (run'.first (run'.length - k)).types ∧
      S.BecomeAll (run.after n).types (run'.after (run'.length - k)).types := by
  refine becomeAll_first hrun ?_
  intro xs hxs
  obtain ⟨xs', ys, hxs', hys, heq⟩ := becomeAll_cut n hrun
  rw [Run.length, heq, List.length_append, hlen ys hys, Nat.add_sub_cancel, hxs'.unique hxs]

/-- A row that takes what becomes of its run links the binders of its slots. -/
theorem carries_of_rowValue (hslots : ∀ slot ∈ slots, S.Ready ts final slot)
    (hsettled : ∀ t ∈ run.types, S.scope.Settled t) (hrun : S.BecomeAll run.types run'.types)
    (hsync : S.InSync ts b c) (hm : rowValue place ⟨side, slots, run, b⟩ = some b')
    (hm' : rowValue place' ⟨side, slots, run', c⟩ = some c') (hle : b' ≤ final) :
    S.InSync ts b' c' ∧ ∀ slot ∈ slots, ∀ x ∈ slot.binders, S.Linked b' c' x := by
  induction hn : slots.length generalizing slots side run run' b c with
  | zero =>
    obtain rfl := List.eq_nil_of_length_eq_zero hn
    rw [rowValue_nil] at hm hm'
    split at hm
    · split at hm'
      · cases hm
        cases hm'
        exact ⟨hsync, by simp⟩
      · cases hm'
    · cases hm
  | succ n ih =>
    have hmoves : nextMove (fun s => !s.isOpen c) side slots =
        nextMove (fun s => !s.isOpen b) side slots :=
      nextMove_congr fun s hs => by rw [hsync.isOpen_eq (hslots s hs).fits]
    -- One slot takes a part of the run, and the others the rest.
    have take {slot : Slot} {rest : List Slot} {seg seg' tail tail' : Run} {b₁ c₁ : Binding}
        {side : Side} (hmem : ∀ s, s ∈ slots ↔ s = slot ∨ s ∈ rest)
        (hcount : rest.length = n) (hone : slot.takesRun = false → seg.length = 1)
        (hsegSettled : ∀ t ∈ seg.types, t ∈ run.types)
        (htailSettled : ∀ t ∈ tail.types, t ∈ run.types)
        (hseg : S.BecomeAll seg.types seg'.types) (htail : S.BecomeAll tail.types tail'.types)
        (hb₁ : (matchSlot unify place slot seg b).value? = some b₁)
        (hc₁ : (matchSlot unify place' slot seg' c).value? = some c₁)
        (hb' : rowValue place ⟨side, rest, tail, b₁⟩ = some b')
        (hc' : rowValue place' ⟨side, rest, tail', c₁⟩ = some c') :
        S.InSync ts b' c' ∧ ∀ slot ∈ slots, ∀ x ∈ slot.binders, S.Linked b' c' x := by
      have hgrown := le_of_rowValue hb'
      obtain ⟨hsync₁, hlinked⟩ := carries_of_matchSlot (hslots slot ((hmem slot).2 (.inl rfl)))
        hone (fun t ht => hsettled t (hsegSettled t ht)) hseg hsync hb₁ hc₁
        (Binding.le_trans hgrown hle)
      obtain ⟨hsync', hrest⟩ := ih (fun s hs => hslots s ((hmem s).2 (.inr hs)))
        (fun t ht => hsettled t (htailSettled t ht)) htail hsync₁ hb' hc' hcount
      refine ⟨hsync', ?_⟩
      intro s hs x hx
      rcases (hmem s).1 hs with rfl | hs
      · exact (hlinked x hx).later hgrown (le_of_rowValue hc')
      · exact hrest s hs x hx
    cases hmove : nextMove (fun s => !s.isOpen b) side slots with
    | done =>
      rw [nextMove_eq_done hmove] at hn
      cases hn
    | front slot rest =>
      obtain ⟨hwidth, b₁, hb₁, hb'⟩ := exists_of_rowValue_front hmove hm
      obtain ⟨-, c₁, hc₁, hc'⟩ := exists_of_rowValue_front (hmoves.trans hmove) hm'
      obtain ⟨rfl, hknown⟩ := nextMove_eq_front hmove
      obtain ⟨hseg, htail⟩ := becomeAll_first hrun fun _ =>
        hsync.length_of_known (hslots slot (by simp)) (by simpa using hknown) hwidth hb₁
          (Binding.le_trans (le_of_rowValue hb') hle)
      exact take (by simp) (by simpa using hn) (fun h => hwidth.trans (Slot.width_of_takesRun h))
        (fun _ => List.mem_of_mem_take) (fun _ => List.mem_of_mem_drop) hseg htail hb₁ hc₁ hb' hc'
    | back rest slot =>
      obtain ⟨hwidth, b₁, hb₁, hb'⟩ := exists_of_rowValue_back hmove hm
      obtain ⟨-, c₁, hc₁, hc'⟩ := exists_of_rowValue_back (hmoves.trans hmove) hm'
      obtain ⟨rfl, hknown⟩ := nextMove_eq_back hmove
      obtain ⟨htail, hseg⟩ := becomeAll_last hrun fun _ =>
        hsync.length_of_known (hslots slot (by simp)) (by simpa using hknown) hwidth hb₁
          (Binding.le_trans (le_of_rowValue hb') hle)
      exact take (by simp [or_comm]) (by simpa using hn)
        (fun h => hwidth.trans (Slot.width_of_takesRun h)) (fun _ => List.mem_of_mem_drop)
        (fun _ => List.mem_of_mem_take) hseg htail hb₁ hc₁ hb' hc'
    | stuck slot rest =>
      obtain ⟨width, b₁, -, hb₁, hb'⟩ := exists_of_rowValue_stuck hmove hm
      obtain ⟨width', c₁, hshare, hc₁, hc'⟩ := exists_of_rowValue_stuck (hmoves.trans hmove) hm'
      obtain ⟨rfl, hopen, -⟩ := nextMove_eq_stuck hmove
      replace hopen : slot.isOpen b = true := by simpa using hopen
      obtain ⟨hseg, htail⟩ := becomeAll_first hrun fun _ =>
        hsync.length_of_stuck hslots hopen hb₁ hb' hle hsettled hrun hshare
      refine take (by simp) (by simpa using hn) ?_ (fun _ => List.mem_of_mem_take)
        (fun _ => List.mem_of_mem_drop) hseg htail hb₁ hc₁ hb' hc'
      intro h
      rw [Slot.takesRun_of_isOpen hopen] at h
      cases h

theorem carries_of_matchList {arguments arguments' : List TypeExpr}
    (hslots : ∀ slot ∈ slots, S.Ready ts final slot)
    (hsettled : ∀ t ∈ arguments, S.scope.Settled t) (h : S.BecomeAll arguments arguments')
    (hsync : S.InSync ts b c) (hm : (matchList unify place slots arguments b).value? = some b')
    (hm' : (matchList unify place' slots arguments' c).value? = some c') (hle : b' ≤ final) :
    S.InSync ts b' c' ∧ ∀ x ∈ slots.flatMap Slot.binders, S.Linked b' c' x := by
  rw [value?_matchList] at hm hm'
  split at hm
  · split at hm'
    · obtain ⟨hsync', hlinked⟩ := carries_of_rowValue hslots hsettled h hsync hm hm' hle
      refine ⟨hsync', ?_⟩
      intro x hx
      obtain ⟨slot, hslot, hx⟩ := List.mem_flatMap.1 hx
      exact hlinked slot hslot x hx
    · cases hm'
  · cases hm

end rows

/-! ### Types -/

section types

open TypeExpr

variable {f a : TypeExpr} {types : List TypeExpr} {b b' : Binding} {v : TypeVar} {us : TupleVar}

theorem tuple?_of_unify_var (h : (unify (.var v) a b).value? = some b') :
    b'.tuple? ts = b.tuple? ts := by
  rw [value?_unify_var] at h
  cases hv : b.scalar? v with
  | none =>
    rw [value?_assignScalar_fresh hv, Option.some.injEq] at h
    rw [← h, Binding.tuple?_bindScalar]
  | some previous =>
    rw [value?_assignScalar_known hv] at h
    split at h
    · cases h
      rfl
    · cases h

theorem exists_of_unify_packed (h : (unify (.packed us) a b).value? = some b') :
    ∃ elements, a.tupleElements? = some elements ∧
      (matchList unify .element [.spread us] elements b).value? = some b' := by
  rw [value?_unify_packed] at h
  exact Option.bind_eq_some_iff.1 h

/-- The slots of a list are ready if the match of what they hold links its binders. -/
theorem ready_slots (hfits : ∀ slot ∈ types.map Slot.ofType, slot.Fits ts final)
    (h : ∀ s ∈ types.map Slot.ofType, ∀ t ∈ s.inner?, (Slot.single t).Fits ts final →
      S.Carries ts final t) : ∀ slot ∈ types.map Slot.ofType, S.Ready ts final slot := by
  intro slot hslot
  refine ⟨hfits slot hslot, ?_, ?_⟩
  · rintro f rfl
    obtain ⟨t, -, ht⟩ := List.mem_map.1 hslot
    have hsingle : f.isSpliced = false := by
      cases t <;> cases ht <;> rfl
    rw [fillAll_cons hsingle, fillAll, List.length_singleton]
  · rintro f rfl
    exact h _ hslot f rfl (hfits _ hslot)

/-- The match of a type links its binders if the type fits. -/
theorem carries_of_unify (h : (Slot.single f).Fits ts final) : S.Carries ts final f := by
  induction f using inductSlots with
  | named name =>
    intro a a' b c b' c' _ _ hsync hm hm' _
    rw [value?_unify_named] at hm hm'
    split at hm
    · split at hm'
      · cases hm
        cases hm'
        exact ⟨hsync, by simp [binders]⟩
      · cases hm'
    · cases hm
  | var v =>
    intro a a' b c b' c' _ ha hsync hm hm' _
    have hlinked : S.Linked b' c' (.scalar v) :=
      ⟨a, a', scalar?_of_unify_var hm, scalar?_of_unify_var hm', ha⟩
    refine ⟨?_, List.forall_mem_singleton.2 hlinked⟩
    simpa only [InSync, Linked, tuple?_of_unify_var hm, tuple?_of_unify_var hm'] using hsync
  | spread us | spreadMap ctor us =>
    intro a a' b c b' c' _ _ hsync hm hm' _
    rw [(eq_of_unify_of_spliced rfl hm).2, (eq_of_unify_of_spliced rfl hm').2]
    exact ⟨hsync, by simp [binders]⟩
  | packed us =>
    intro a a' b c b' c' hsettled ha hsync hm hm' hle
    obtain ⟨elements, he, hm⟩ := exists_of_unify_packed hm
    obtain ⟨elements', he', hm'⟩ := exists_of_unify_packed hm'
    have hfits : (Slot.spread us).Fits ts final :=
      ⟨h.only, by simp [Slot.binders], .inl (everywhere_spread.2 rfl)⟩
    have hready : S.Ready ts final (.spread us) := ⟨hfits, by simp, by simp⟩
    exact carries_of_matchList (List.forall_mem_singleton.2 hready)
      (fun t ht => hsettled.part (mem_parts_of_tupleElements he ht))
      (becomeAll_elements hsettled ha he he') hsync hm hm' hle
  | apply head args hhead hargs =>
    intro a a' b c b' c' hsettled ha hsync hm hm' hle
    obtain ⟨hfits, hfitsAll⟩ := h.apply
    have hready := ready_slots hfitsAll hargs
    by_cases hname : head = .named tupleName
    · subst hname
      obtain ⟨_, elements, he, hm⟩ := exists_of_unify_tuple hm
      obtain ⟨_, elements', he', hm'⟩ := exists_of_unify_tuple hm'
      rw [binders, binders, List.nil_append, bindersAll_eq_flatMap]
      exact carries_of_matchList hready
        (fun t ht => hsettled.part (mem_parts_of_tupleElements he ht))
        (becomeAll_elements hsettled ha he he') hsync hm hm' hle
    · obtain ⟨head₁, args₁, b₁, rfl, hb₁, hm⟩ := exists_of_unify_apply hname hm
      obtain ⟨head₂, args₂, c₁, rfl, hc₁, hm'⟩ := exists_of_unify_apply hname hm'
      have hsettledHead : S.scope.Settled head₁ := hsettled.part List.mem_cons_self
      obtain ⟨_, _, hbecomes, hbecome, heq⟩ := (becomes_apply hsettledHead).1 ha
      cases heq
      have hgrown := le_of_matchList hm
      obtain ⟨hsync₁, hlinked⟩ := hhead hfits _ _ _ _ _ _ hsettledHead hbecomes hsync hb₁ hc₁
        (Binding.le_trans hgrown hle)
      obtain ⟨hsync', hlinkedAll⟩ := carries_of_matchList hready
        (fun t ht => hsettled.part (List.mem_cons_of_mem _ ht)) hbecome hsync₁ hm hm' hle
      refine ⟨hsync', ?_⟩
      rw [binders, bindersAll_eq_flatMap, List.forall_mem_append]
      exact ⟨fun x hx => (hlinked x hx).later hgrown (le_of_matchList hm'), hlinkedAll⟩
  | union members hmembers =>
    intro a a' b c b' c' hsettled ha hsync hm hm' hle
    obtain ⟨members₁, rfl, hrow⟩ := exists_of_unify_union hm
    obtain ⟨members₂, rfl, hrow'⟩ := exists_of_unify_union hm'
    obtain ⟨_, hbecome, heq⟩ := becomes_union.1 ha
    cases heq
    rw [binders, bindersAll_eq_flatMap]
    exact carries_of_matchList (ready_slots h.union hmembers) (fun t ht => hsettled.part ht)
      hbecome hsync hrow hrow' hle
  | arrow params result hparams hresult =>
    intro a a' b c b' c' hsettled ha hsync hm hm' hle
    obtain ⟨hfitsAll, hfits⟩ := h.arrow
    obtain ⟨params₁, result₁, b₁, rfl, hb₁, hm⟩ := exists_of_unify_arrow hm
    obtain ⟨params₂, result₂, c₁, rfl, hc₁, hm'⟩ := exists_of_unify_arrow hm'
    obtain ⟨_, _, hbecome, hbecomes, heq⟩ := becomes_arrow.1 ha
    cases heq
    have hgrown := le_of_unify hm
    obtain ⟨hsync₁, hlinkedAll⟩ := carries_of_matchList (ready_slots hfitsAll hparams)
      (fun t ht => hsettled.part (by simp [parts, ht])) hbecome hsync hb₁ hc₁
      (Binding.le_trans hgrown hle)
    obtain ⟨hsync', hlinked⟩ := hresult hfits _ _ _ _ _ _ (hsettled.part (by simp [parts]))
      hbecomes hsync₁ hm hm' hle
    refine ⟨hsync', ?_⟩
    rw [binders, bindersAll_eq_flatMap, List.forall_mem_append]
    exact ⟨fun x hx => (hlinkedAll x hx).later hgrown (le_of_unify hm'), hlinked⟩

end types

end Setting

/-! ### Aliases -/

/-- An alias binds its parameters as if every argument were a single type: no scalar variable is
bound to a spliced form, and if there are spliced maps, they are not over spliced forms.  A scalar
variable that is bound for some of the arguments only, in the constructor of a spliced map, may be
bound to anything. -/
structure Alias.BindsPlainly (a : Alias) (b : Binding) : Prop where
  scalars : ∀ v, .scalar v ∈ a.formal.binders → ∀ t, b.scalar? v = some t → t.isSpliced = false
  maps : (∀ t ∈ a.body :: a.formal.toTypes, t.MapFree) ∨
    ∀ ts contents, b.tuple? ts = some contents → ∀ t ∈ contents, t.isSpliced = false

/-- The scalar variable that a variable is. -/
def Variable.scalar? : Variable → Option TypeVar
  | .scalar v => some v
  | .tuple _ => none

theorem Variable.mem_filterMap_scalar? {v : TypeVar} {xs : List Variable} :
    v ∈ xs.filterMap scalar? ↔ .scalar v ∈ xs := by
  rw [List.mem_filterMap]
  constructor
  · rintro ⟨x, hx, hv⟩
    cases x with
    | scalar w =>
      cases hv
      exact hx
    | tuple ts => cases hv
  · exact fun h => ⟨_, h, rfl⟩

instance (a : Alias) (b : Binding) : Decidable (a.BindsPlainly b) :=
  decidable_of_iff ((∀ v ∈ a.formal.binders.filterMap Variable.scalar?, ∀ t ∈ b.scalar? v,
        t.isSpliced = false) ∧
      ((∀ t ∈ a.body :: a.formal.toTypes, t.MapFree) ∨
        ∀ p ∈ b.tuples.toList, ∀ t ∈ p.2, t.isSpliced = false)) (by
    constructor
    · rintro ⟨hscalars, hmaps⟩
      exact ⟨fun v hv => hscalars v (Variable.mem_filterMap_scalar?.2 hv),
        hmaps.imp_right Binding.forall_tuple_iff.2⟩
    · rintro ⟨hscalars, hmaps⟩
      exact ⟨fun v hv => hscalars v (Variable.mem_filterMap_scalar?.1 hv),
        hmaps.imp_right Binding.forall_tuple_iff.1⟩)

namespace Setting

variable {S : Setting}

section aliases

open TypeExpr

variable {a : Alias} {args args' : List TypeExpr} {b c : Binding}

/-- Every tuple variable that a parameter list mentions is the same one if there is one at most. -/
theorem exists_tupleVar {list : ParameterList} (h : list.tupleVars.length ≤ 1) :
    ∃ ts, ∀ slot ∈ list.slots, ∀ us ∈ slot.toType.tupleMentions, us = ts := by
  have hmem : ∀ slot ∈ list.slots, ∀ us ∈ slot.toType.tupleMentions, us ∈ list.tupleVars := by
    intro slot hslot us hus
    rw [ParameterList.tupleVars, List.mem_eraseDups, List.mem_flatMap]
    exact ⟨slot.toType, List.mem_map_of_mem hslot, hus⟩
  cases hvars : list.tupleVars with
  | nil => exact ⟨⟨0⟩, fun slot hslot us hus => by simpa [hvars] using hmem slot hslot us hus⟩
  | cons ts rest =>
    obtain rfl : rest = [] := List.eq_nil_of_length_eq_zero (by simpa [hvars] using h)
    exact ⟨ts, fun slot hslot us hus => by simpa [hvars] using hmem slot hslot us hus⟩

theorem length_fillAll_singleton {t : TypeExpr} (h : t.Within fun x => ¬b.Binds x) :
    (fillAll b [t]).length = 1 := by
  cases t with
  | spread ts | spreadMap ctor ts =>
    cases hts : b.tuple? ts with
    | none => simp [fillAll, hts]
    | some contents => exact absurd ⟨contents, hts⟩ (h (.tuple ts) (by simp))
  | _ => rfl

/-- The parameters of an alias are bound to open arguments and to what becomes of them; the first
binding is linked to the second. -/
theorem linked_of_bindArguments (hplain : a.BindsPlainly b)
    (hsettled : ∀ t ∈ args, S.scope.Settled t) (h : S.BecomeAll args args')
    (hb : (a.bindArguments args).result = .ok b) (hc : (a.bindArguments args').result = .ok c) :
    ∀ x ∈ a.formal.binders, S.Linked b c x := by
  obtain ⟨hone, hm⟩ := result_bindArguments hb
  obtain ⟨-, hm'⟩ := result_bindArguments hc
  obtain ⟨ts, hts⟩ := exists_tupleVar hone
  have hfits : ∀ slot ∈ a.formal.slots, slot.Fits ts b := by
    intro slot hslot
    refine ⟨hts slot hslot, ?_, hplain.maps.imp ?_ ?_⟩
    · exact fun v hv => hplain.scalars v (List.mem_flatMap.2 ⟨slot, hslot, hv⟩)
    · exact fun hfree => hfree _ (List.mem_cons_of_mem _ (List.mem_map_of_mem hslot))
    · exact fun hsingle => hsingle ts
  have hready : ∀ slot ∈ a.formal.slots, S.Ready ts b slot := by
    intro slot hslot
    refine ⟨hfits slot hslot, ?_, ?_⟩
    · rintro f rfl
      cases hf : f.isSpliced with
      | false => rw [fillAll_cons hf, fillAll, List.length_singleton]
      | true =>
        exact length_fillAll_singleton (h.within f (mem_of_matchList_spliced hm' hslot hf))
    · rintro f rfl
      exact carries_of_unify (hfits _ hslot)
  have hsync : S.InSync ts .empty .empty := .inl ⟨by simp, by simp⟩
  exact (carries_of_matchList hready hsettled h hsync hm hm' (Binding.le_refl b)).2

end aliases

end Setting

end Polyadic
