import Polyadic.ParameterList

/-! # Types by their nodes and by their slots

Most restrictions on a type say something about each of its nodes.  `t.Everywhere P` says that `P`
holds of the type and of everything inside it, with one rule for each form of a type.  Ground types,
and types whose spliced forms stand in lists only, are cases of it.

A list inside a type is read as a row of slots wherever it is worked on.  `inductSlots` is induction
over types with the hypothesis for what the slots of such a row hold. -/

namespace Polyadic

namespace Slot

/-- The type that a slot holds. -/
def inner? : Slot → Option TypeExpr
  | .single t => some t
  | .spread _ => none
  | .mapped ctor _ => some ctor

end Slot

namespace TypeExpr

/-- Induction with the hypothesis for what the slots of a list inside a type hold. -/
@[elab_as_elim]
theorem inductSlots {motive : TypeExpr → Prop}
    (named : ∀ name, motive (.named name)) (var : ∀ v, motive (.var v))
    (packed : ∀ ts, motive (.packed ts)) (spread : ∀ ts, motive (.spread ts))
    (spreadMap : ∀ ctor ts, motive ctor → motive (.spreadMap ctor ts))
    (apply : ∀ head args, motive head →
      (∀ s ∈ args.map Slot.ofType, ∀ t ∈ s.inner?, motive t) → motive (.apply head args))
    (union : ∀ members,
      (∀ s ∈ members.map Slot.ofType, ∀ t ∈ s.inner?, motive t) → motive (.union members))
    (arrow : ∀ params result, (∀ s ∈ params.map Slot.ofType, ∀ t ∈ s.inner?, motive t) →
      motive result → motive (.arrow params result)) (t : TypeExpr) : motive t := by
  -- An element of a list holds itself or its constructor, so both are carried along.
  have slots {ts : List TypeExpr}
      (h : ∀ t ∈ ts, motive t ∧ ∀ ctor us, t = .spreadMap ctor us → motive ctor) :
      ∀ s ∈ ts.map Slot.ofType, ∀ t ∈ s.inner?, motive t := by
    intro s hs t ht
    obtain ⟨u, hu, rfl⟩ := List.mem_map.1 hs
    cases u with
    | spread => cases ht
    | spreadMap ctor us => cases ht; exact (h _ hu).2 _ us rfl
    | _ => cases ht; exact (h _ hu).1
  have both : motive t ∧ ∀ ctor us, t = .spreadMap ctor us → motive ctor := by
    induction t using induct with
    | named name => exact ⟨named name, by simp⟩
    | var v => exact ⟨var v, by simp⟩
    | packed ts => exact ⟨packed ts, by simp⟩
    | spread ts => exact ⟨spread ts, by simp⟩
    | spreadMap ctor ts ih =>
      refine ⟨spreadMap ctor ts ih.1, ?_⟩
      intro _ _ h
      cases h
      exact ih.1
    | apply head args hhead hargs => exact ⟨apply head args hhead.1 (slots hargs), by simp⟩
    | union members hmembers => exact ⟨union members (slots hmembers), by simp⟩
    | arrow params result hparams hresult =>
      exact ⟨arrow params result (slots hparams) hresult.1, by simp⟩
  exact both.1

/-! ### The parts of a type are lighter -/

section weight

variable {t head result : TypeExpr} {ts : List TypeExpr}

theorem weight_head_lt : head.weight < (apply head ts).weight := by
  simp only [weight]
  omega

theorem weight_lt_apply (h : t ∈ ts) : t.weight < (apply head ts).weight := by
  have := weight_le_totalWeight h
  simp only [weight]
  omega

theorem weight_lt_union (h : t ∈ ts) : t.weight < (union ts).weight := by
  have := weight_le_totalWeight h
  simp only [weight]
  omega

theorem weight_lt_arrow (h : t ∈ ts) : t.weight < (arrow ts result).weight := by
  have := weight_le_totalWeight h
  simp only [weight]
  omega

theorem weight_result_lt : result.weight < (arrow ts result).weight := by
  simp only [weight]
  omega

end weight

/-! ### Every node -/

/-- A condition on a type and on everything inside it. -/
def Everywhere (P : TypeExpr → Prop) (t : TypeExpr) : Prop := ∀ n ∈ t.nodes, P n

instance {P : TypeExpr → Prop} [DecidablePred P] (t : TypeExpr) : Decidable (t.Everywhere P) :=
  inferInstanceAs (Decidable (∀ n ∈ t.nodes, P n))

section rules

variable {P Q : TypeExpr → Prop}

theorem Everywhere.self {t : TypeExpr} (h : t.Everywhere P) : P t := h t t.self_mem_nodes

theorem Everywhere.mono {t : TypeExpr} (h : t.Everywhere P) (hPQ : ∀ n, P n → Q n) :
    t.Everywhere Q := by
  intro n hn
  exact hPQ n (h n hn)

@[simp] theorem everywhere_named {name : String} : (named name).Everywhere P ↔ P (.named name) := by
  simp [Everywhere, nodes]

@[simp] theorem everywhere_var {v : TypeVar} : (var v).Everywhere P ↔ P (.var v) := by
  simp [Everywhere, nodes]

@[simp] theorem everywhere_packed {ts : TupleVar} :
    (packed ts).Everywhere P ↔ P (.packed ts) := by simp [Everywhere, nodes]

@[simp] theorem everywhere_spread {ts : TupleVar} :
    (spread ts).Everywhere P ↔ P (.spread ts) := by simp [Everywhere, nodes]

@[simp] theorem everywhere_spreadMap {ctor : TypeExpr} {ts : TupleVar} :
    (spreadMap ctor ts).Everywhere P ↔ P (.spreadMap ctor ts) ∧ ctor.Everywhere P := by
  simp [Everywhere, nodes]

theorem everywhere_allNodes {ts : List TypeExpr} :
    (∀ n ∈ allNodes ts, P n) ↔ ∀ t ∈ ts, t.Everywhere P := by
  simp only [allNodes_eq_flatMap, List.mem_flatMap, Everywhere]
  constructor
  · intro h t ht n hn
    exact h n ⟨t, ht, hn⟩
  · rintro h n ⟨t, ht, hn⟩
    exact h t ht n hn

@[simp] theorem everywhere_apply {head : TypeExpr} {args : List TypeExpr} :
    (apply head args).Everywhere P ↔
      P (.apply head args) ∧ head.Everywhere P ∧ ∀ t ∈ args, t.Everywhere P := by
  rw [← everywhere_allNodes]
  simp [Everywhere, nodes, or_imp, forall_and]

@[simp] theorem everywhere_union {members : List TypeExpr} :
    (union members).Everywhere P ↔ P (.union members) ∧ ∀ t ∈ members, t.Everywhere P := by
  rw [← everywhere_allNodes]
  simp [Everywhere, nodes]

@[simp] theorem everywhere_arrow {params : List TypeExpr} {result : TypeExpr} :
    (arrow params result).Everywhere P ↔
      P (.arrow params result) ∧ (∀ t ∈ params, t.Everywhere P) ∧ result.Everywhere P := by
  rw [← everywhere_allNodes]
  simp [Everywhere, nodes, or_imp, forall_and]

/-- What holds everywhere in the elements of a list holds everywhere in what its slots hold. -/
theorem everywhere_inner {ts : List TypeExpr} (h : ∀ t ∈ ts, t.Everywhere P) :
    ∀ s ∈ ts.map Slot.ofType, ∀ t ∈ s.inner?, t.Everywhere P := by
  intro s hs t ht
  obtain ⟨u, hu, rfl⟩ := List.mem_map.1 hs
  have hP := h u hu
  cases u with
  | spread => cases ht
  | spreadMap ctor us => cases ht; exact (everywhere_spreadMap.1 hP).2
  | _ => cases ht; exact hP

end rules

/-! ### Mentions of tuple variables -/

section mentions

@[simp] theorem tupleMentions_named {name : String} : (named name).tupleMentions = [] := by
  simp [tupleMentions, nodes, ownTuple?]

@[simp] theorem tupleMentions_var {v : TypeVar} : (var v).tupleMentions = [] := by
  simp [tupleMentions, nodes, ownTuple?]

@[simp] theorem tupleMentions_packed {ts : TupleVar} : (packed ts).tupleMentions = [ts] := by
  simp [tupleMentions, nodes, ownTuple?]

@[simp] theorem tupleMentions_spread {ts : TupleVar} : (spread ts).tupleMentions = [ts] := by
  simp [tupleMentions, nodes, ownTuple?]

@[simp] theorem tupleMentions_spreadMap {ctor : TypeExpr} {ts : TupleVar} :
    (spreadMap ctor ts).tupleMentions = ts :: ctor.tupleMentions := rfl

theorem filterMap_allNodes (ts : List TypeExpr) :
    (allNodes ts).filterMap ownTuple? = ts.flatMap tupleMentions := by
  rw [allNodes_eq_flatMap, List.filterMap_flatMap]
  rfl

@[simp] theorem tupleMentions_apply {head : TypeExpr} {args : List TypeExpr} :
    (apply head args).tupleMentions = head.tupleMentions ++ args.flatMap tupleMentions := by
  rw [tupleMentions, nodes, List.filterMap_cons_none rfl, List.filterMap_append,
    filterMap_allNodes]
  rfl

@[simp] theorem tupleMentions_union {members : List TypeExpr} :
    (union members).tupleMentions = members.flatMap tupleMentions := by
  rw [tupleMentions, nodes, List.filterMap_cons_none rfl, filterMap_allNodes]

@[simp] theorem tupleMentions_arrow {params : List TypeExpr} {result : TypeExpr} :
    (arrow params result).tupleMentions =
      params.flatMap tupleMentions ++ result.tupleMentions := by
  rw [tupleMentions, nodes, List.filterMap_cons_none rfl, List.filterMap_append,
    filterMap_allNodes]
  rfl

end mentions

/-! ### Ground types -/

/-- No variable of either kind occurs. -/
def IsGround (t : TypeExpr) : Prop :=
  t.Everywhere fun n => n.ownScalar? = none ∧ n.ownTuple? = none

instance (t : TypeExpr) : Decidable t.IsGround :=
  inferInstanceAs (Decidable (t.Everywhere _))

section ground

@[simp] theorem isGround_named {name : String} : (named name).IsGround := by
  simp [IsGround, ownScalar?, ownTuple?]

@[simp] theorem not_isGround_var {v : TypeVar} : ¬(var v).IsGround := by
  simp [IsGround, ownScalar?]

@[simp] theorem not_isGround_packed {ts : TupleVar} : ¬(packed ts).IsGround := by
  simp [IsGround, ownTuple?]

@[simp] theorem not_isGround_spread {ts : TupleVar} : ¬(spread ts).IsGround := by
  simp [IsGround, ownTuple?]

@[simp] theorem not_isGround_spreadMap {ctor : TypeExpr} {ts : TupleVar} :
    ¬(spreadMap ctor ts).IsGround := by simp [IsGround, ownTuple?]

@[simp] theorem isGround_apply {head : TypeExpr} {args : List TypeExpr} :
    (apply head args).IsGround ↔ head.IsGround ∧ ∀ t ∈ args, t.IsGround := by
  simp [IsGround, ownScalar?, ownTuple?]

@[simp] theorem isGround_union {members : List TypeExpr} :
    (union members).IsGround ↔ ∀ t ∈ members, t.IsGround := by
  simp [IsGround, ownScalar?, ownTuple?]

@[simp] theorem isGround_arrow {params : List TypeExpr} {result : TypeExpr} :
    (arrow params result).IsGround ↔ (∀ t ∈ params, t.IsGround) ∧ result.IsGround := by
  simp [IsGround, ownScalar?, ownTuple?]

theorem IsGround.tupleMentions {t : TypeExpr} (h : t.IsGround) : t.tupleMentions = [] := by
  unfold TypeExpr.tupleMentions
  rw [List.filterMap_eq_nil_iff]
  intro n hn
  exact (h n hn).2

theorem IsGround.unary {t head operand : TypeExpr} (h : t.IsGround)
    (ht : t.unary? = some (head, operand)) : head.IsGround ∧ operand.IsGround := by
  rw [unary?_eq_some_iff.1 ht, isGround_apply] at h
  exact ⟨h.1, h.2 operand (by simp)⟩

theorem IsGround.tupleElements {t : TypeExpr} {elements : List TypeExpr} (h : t.IsGround)
    (ht : t.tupleElements? = some elements) : t = .tuple elements ∧ ∀ e ∈ elements, e.IsGround := by
  unfold tupleElements? at ht
  split at ht
  · split at ht
    · rename_i heq
      cases ht
      exact ⟨by rw [heq]; rfl, (isGround_apply.1 h).2⟩
    · cases ht
  · exact absurd h not_isGround_packed
  · cases ht

end ground

/-! ### Spliced forms -/

/-- Whether a type is a union. -/
def isUnion : TypeExpr → Bool
  | .union _ => true
  | _ => false

/-- Whether a type is one of the forms that a list splices. -/
def isSpliced : TypeExpr → Bool
  | .spread _ | .spreadMap _ _ => true
  | _ => false

/-- The parts of a node that are no list elements are not spliced. -/
def placesWell : TypeExpr → Bool
  | .spreadMap ctor _ => !ctor.isSpliced
  | .apply head _ => !head.isSpliced
  | .arrow _ result => !result.isSpliced
  | _ => true

/-- Spliced forms occur as elements of lists only, and the type itself is none. -/
def WellPlaced (t : TypeExpr) : Prop :=
  t.isSpliced = false ∧ t.Everywhere fun n => n.placesWell = true

instance (t : TypeExpr) : Decidable t.WellPlaced :=
  inferInstanceAs (Decidable (_ ∧ _))

@[simp] theorem not_wellPlaced_spread {ts : TupleVar} : ¬(spread ts).WellPlaced := by
  simp [WellPlaced, isSpliced]

@[simp] theorem not_wellPlaced_spreadMap {ctor : TypeExpr} {ts : TupleVar} :
    ¬(spreadMap ctor ts).WellPlaced := by simp [WellPlaced, isSpliced]

theorem IsGround.isSpliced {t : TypeExpr} (h : t.IsGround) : t.isSpliced = false := by
  cases t with
  | spread | spreadMap => simp at h
  | _ => rfl

theorem IsGround.wellPlaced {t : TypeExpr} (h : t.IsGround) : t.WellPlaced := by
  refine ⟨h.isSpliced, ?_⟩
  induction t using induct with
  | named | var | packed | spread => simp_all [placesWell]
  | spreadMap => simp at h
  | apply head args hhead hargs =>
    rw [isGround_apply] at h
    have hlist : ∀ t ∈ args, t.Everywhere fun n => n.placesWell = true := by
      intro t ht
      exact hargs t ht (h.2 t ht)
    rw [everywhere_apply]
    exact ⟨by simp [placesWell, h.1.isSpliced], hhead h.1, hlist⟩
  | union members hmembers =>
    rw [isGround_union] at h
    rw [everywhere_union]
    refine ⟨rfl, ?_⟩
    intro t ht
    exact hmembers t ht (h t ht)
  | arrow params result hparams hresult =>
    rw [isGround_arrow] at h
    have hlist : ∀ t ∈ params, t.Everywhere fun n => n.placesWell = true := by
      intro t ht
      exact hparams t ht (h.1 t ht)
    rw [everywhere_arrow]
    exact ⟨by simp [placesWell, h.2.isSpliced], hlist, hresult h.2⟩

end TypeExpr

namespace Slot

theorem ofType_eq_single {t : TypeExpr} (h : t.isSpliced = false) : ofType t = .single t := by
  cases t with
  | spread | spreadMap => simp [TypeExpr.isSpliced] at h
  | _ => rfl

/-- The type of a slot, or its constructor, is well placed. -/
def WellPlaced : Slot → Prop
  | .single t => t.WellPlaced
  | .spread _ => True
  | .mapped ctor _ => ctor.WellPlaced

instance : DecidablePred WellPlaced
  | .single t => inferInstanceAs (Decidable t.WellPlaced)
  | .spread _ => inferInstanceAs (Decidable True)
  | .mapped ctor _ => inferInstanceAs (Decidable ctor.WellPlaced)

/-- An element of a list may be spliced; otherwise it is well placed itself. -/
theorem wellPlaced_ofType {t : TypeExpr} :
    (ofType t).WellPlaced ↔ t.Everywhere fun n => n.placesWell = true := by
  cases t <;> simp [ofType, WellPlaced, TypeExpr.WellPlaced, TypeExpr.isSpliced,
    TypeExpr.placesWell]

/-- A well placed slot is what its type is read as. -/
theorem ofType_toType {slot : Slot} (h : slot.WellPlaced) : ofType slot.toType = slot := by
  cases slot with
  | single t => exact ofType_eq_single h.1
  | spread | mapped => rfl

end Slot

namespace TypeExpr

@[simp] theorem wellPlaced_apply {head : TypeExpr} {args : List TypeExpr} :
    (apply head args).WellPlaced ↔
      head.WellPlaced ∧ ∀ s ∈ args.map Slot.ofType, s.WellPlaced := by
  simp [WellPlaced, isSpliced, placesWell, Slot.wellPlaced_ofType, and_assoc]

theorem wellPlaced_mapOver {ctor : TypeExpr} {sequence : List TypeExpr} (hctor : ctor.WellPlaced)
    (hground : ∀ t ∈ sequence, t.IsGround) : ∀ f ∈ mapOver ctor sequence, f.WellPlaced := by
  intro f hf
  obtain ⟨t, ht, rfl⟩ := List.mem_map.1 hf
  have hoperand : t.WellPlaced := (hground t ht).wellPlaced
  rw [wellPlaced_apply]
  refine ⟨hctor, ?_⟩
  simpa [Slot.wellPlaced_ofType] using hoperand.2

@[simp] theorem wellPlaced_union {members : List TypeExpr} :
    (union members).WellPlaced ↔ ∀ s ∈ members.map Slot.ofType, s.WellPlaced := by
  simp [WellPlaced, isSpliced, placesWell, Slot.wellPlaced_ofType]

@[simp] theorem wellPlaced_arrow {params : List TypeExpr} {result : TypeExpr} :
    (arrow params result).WellPlaced ↔
      (∀ s ∈ params.map Slot.ofType, s.WellPlaced) ∧ result.WellPlaced := by
  simp [WellPlaced, isSpliced, placesWell, Slot.wellPlaced_ofType, and_left_comm]

end TypeExpr

/-- Spliced forms occur as elements of lists only. -/
def ParameterList.WellPlaced (list : ParameterList) : Prop := ∀ s ∈ list.slots, s.WellPlaced

instance (list : ParameterList) : Decidable list.WellPlaced :=
  inferInstanceAs (Decidable (∀ s ∈ list.slots, s.WellPlaced))

end Polyadic
