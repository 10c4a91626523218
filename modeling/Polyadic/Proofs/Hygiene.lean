import Polyadic.Proofs.Lengths
import Polyadic.Proofs.NormalForms
import Polyadic.Proofs.Occurrence
import Polyadic.Proofs.Values

/-! # Variables in expansions

A match binds some variables of its formal side whatever the arguments are, the *binders*
(`binds_of_unify`): those that do not occur in constructors of spliced maps only, which are looked
at once for each argument and so perhaps never.  If the body of an alias mentions binders of its
parameter list only, then nothing of the alias is left in its expansion, which mentions variables of
the arguments alone (`within_of_instantiate`). -/

namespace Polyadic

open Attempt

/-! ### Binders -/

namespace TypeExpr

mutual

/-- The variables that a match of a type binds whatever it is matched against. -/
def binders : TypeExpr → List Variable
  | .named _ | .spread _ | .spreadMap _ _ => []
  | .var v => [.scalar v]
  | .packed ts => [.tuple ts]
  | .apply head args => head.binders ++ bindersAll args
  | .union members => bindersAll members
  | .arrow params result => bindersAll params ++ result.binders

/-- The binders of the elements of a list, among them the variables of the spliced forms. -/
def bindersAll : List TypeExpr → List Variable
  | [] => []
  | .spread ts :: rest | .spreadMap _ ts :: rest => .tuple ts :: bindersAll rest
  | t :: rest => t.binders ++ bindersAll rest

end

end TypeExpr

/-- The variables that a match of a slot binds whatever it is matched against. -/
def Slot.binders : Slot → List Variable
  | .single t => t.binders
  | .spread ts | .mapped _ ts => [.tuple ts]

/-- The variables that a match of a parameter list binds whatever it is matched against. -/
def ParameterList.binders (list : ParameterList) : List Variable :=
  list.slots.flatMap Slot.binders

theorem TypeExpr.bindersAll_eq_flatMap (ts : List TypeExpr) :
    bindersAll ts = (ts.map Slot.ofType).flatMap Slot.binders := by
  induction ts with
  | nil => rfl
  | cons t ts ih => cases t <;> simp [bindersAll, ih, Slot.ofType, Slot.binders]

/-! ### Matching binds the binders -/

section growth

/-- Nothing is asked of a match but that its binding grows. -/
def growth : MatchInvariant where
  actual _ := True
  formal _ _ := True
  kept _ := True
  actual_parts _ _ := trivial
  formal_parts _ _ := trivial
  formal_ctor _ := trivial
  formal_expansion _ _ _ _ _ := trivial
  formal_later _ _ := trivial
  bindScalar _ _ _ _ := trivial
  bindTuple _ _ _ _ _ := trivial

variable {place : Nat → Segment} {b b' : Binding}

theorem le_of_unify {f a : TypeExpr} (h : (unify f a b).value? = some b') : b ≤ b' :=
  ((growth.keeps_of_unify trivial trivial trivial).of_ok (value?_eq_some_iff.1 h)).1

theorem le_of_matchSlot {slot : Slot} {run : Run}
    (h : (matchSlot unify place slot run b).value? = some b') : b ≤ b' :=
  ((growth.keeps_of_matchSlot growth.keepsOn_unify (fun _ _ => trivial) trivial trivial).of_ok
    (value?_eq_some_iff.1 h)).1

theorem le_of_matchList {slots : List Slot} {arguments : List TypeExpr}
    (h : (matchList unify place slots arguments b).value? = some b') : b ≤ b' :=
  ((growth.keeps_of_matchList growth.keepsOn_unify (fun _ _ => trivial) (fun _ _ => trivial)
    trivial).of_ok (value?_eq_some_iff.1 h)).1

/-- A move leaves a part of the slots and of the arguments, and the binding grows. -/
theorem keepsSoFar_of_takeSlot {slots : List Slot} {arguments : List TypeExpr} {w : Window}
    (hw : growth.KeepsSoFar slots arguments b w) :
    (takeSlot unify place w).Meets (growth.KeepsSoFar slots arguments b) Failure.IsClash :=
  growth.keeps_of_takeSlot growth.keepsOn_unify (fun _ _ => trivial) (fun _ _ => trivial) hw

theorem keepsSoFar_self (w : Window) : growth.KeepsSoFar w.slots w.run.types w.binding w :=
  ⟨.refl trivial, fun _ hs => hs, fun _ ht => ht⟩

theorem le_of_rowValue {w : Window} (h : rowValue place w = some b') : w.binding ≤ b' := by
  have htaken : (takeSlots unify place w.slots.length w).Meets (w.binding ≤ ·.binding)
      fun _ => True :=
    (meets_takeSlots (fun _ => keepsSoFar_of_takeSlot) (keepsSoFar_self w)).mono
      (fun _ hw' => hw'.1.keeps.1) fun _ _ => trivial
  obtain ⟨w', hw', hend⟩ := Option.bind_eq_some_iff.1 h
  have hle : w.binding ≤ w'.binding := htaken.of_ok (value?_eq_some_iff.1 hw')
  split at hend
  · cases hend
    exact hle
  · cases hend

theorem le_of_assignTuple {ts : TupleVar} {contents : List TypeExpr}
    (h : (assignTuple ts contents b).value? = some b') : b ≤ b' := by
  have hslot : (matchSlot unify .arg (.spread ts) ⟨0, contents⟩ b).value? = some b' := by
    rw [value?_matchSlot_spread, h]
  exact le_of_matchSlot hslot

theorem le_of_matchPairs {pairs : List (TypeExpr × TypeExpr)}
    (h : matchPairs pairs b = some b') : b ≤ b' := by
  induction pairs generalizing b with
  | nil =>
    obtain rfl : b = b' := Option.some.inj h
    exact b.le_refl
  | cons pair rest ih =>
    obtain ⟨b₁, hb₁, h⟩ := Option.bind_eq_some_iff.1 h
    exact Binding.le_trans (le_of_unify hb₁) (ih h)

end growth

section binds

variable {place : Nat → Segment} {slots : List Slot} {arguments : List TypeExpr}
  {b : Binding}

/-- What the match of each slot brings about, whichever run the slot takes, holds of all slots of a
row in the end. -/
theorem meets_matchList_forall {Q : Slot → Binding → Prop}
    (hlater : ∀ slot b c, b ≤ c → Q slot b → Q slot c)
    (hslot : ∀ slot ∈ slots, ∀ run b, (∀ t ∈ run.types, t ∈ arguments) →
      (slot.takesRun = false → run.length = 1) →
      (matchSlot unify place slot run b).Meets (Q slot) fun _ => True) :
    (matchList unify place slots arguments b).Meets (fun b' => ∀ slot ∈ slots, Q slot b')
      fun _ => True := by
  let I (w : Window) : Prop := (∀ slot ∈ slots, slot ∈ w.slots ∨ Q slot w.binding) ∧
    (∀ slot ∈ w.slots, slot ∈ slots) ∧ ∀ t ∈ w.run.types, t ∈ arguments
  refine meets_matchList (I := I) (fun _ => trivial)
    (fun _ => ⟨fun _ h => .inl h, fun _ h => h, fun _ h => h⟩) ?_ ?_ (fun _ _ _ _ => trivial)
  · intro w hw
    obtain ⟨hdone, hsub, hargs⟩ := hw
    have take {slot : Slot} {rest : List Slot} {run rest' : Run} (side : Side)
        (hmem : ∀ s, s ∈ w.slots ↔ s = slot ∨ s ∈ rest) (hrun : ∀ t ∈ run.types, t ∈ w.run.types)
        (hrest : ∀ t ∈ rest'.types, t ∈ w.run.types)
        (hone : slot.takesRun = false → run.length = 1) :
        (matchSlot unify place slot run w.binding).Meets
          (fun b' => I ⟨side, rest, rest', b'⟩) fun _ => True := by
      have hgrows : (matchSlot unify place slot run w.binding).Meets (w.binding ≤ ·)
          fun _ => True := meets_iff.2 ⟨fun _ h => le_of_matchSlot (value?_eq_some_iff.2 h),
            fun _ _ => trivial⟩
      have hmatch := hslot slot (hsub slot ((hmem slot).2 (.inl rfl))) run w.binding
        (fun t ht => hargs t (hrun t ht)) hone
      refine (hgrows.and hmatch).mono ?_ fun _ _ => trivial
      rintro b' ⟨hle, hQ⟩
      refine ⟨?_, fun s hs => hsub s ((hmem s).2 (.inr hs)), fun t ht => hargs t (hrest t ht)⟩
      intro s hs
      rcases hdone s hs with hs | hs
      · rcases (hmem s).1 hs with rfl | hs
        · exact .inr hQ
        · exact .inl hs
      · exact .inr (hlater s _ _ hle hs)
    refine meets_takeSlot (fun _ => ⟨hdone, hsub, hargs⟩) (fun _ _ _ _ => trivial)
      ?front ?back ?stuck
    case front =>
      intro slot rest hm hlong
      refine take .front (by simp [(nextMove_eq_front hm).1]) (fun t => List.mem_of_mem_take)
        (fun t => List.mem_of_mem_drop) fun h => ?_
      rw [Run.length_first hlong, Slot.width_of_takesRun h]
    case back =>
      intro rest slot hm hlong
      refine take .back (by simp [(nextMove_eq_back hm).1, or_comm]) (fun t => List.mem_of_mem_drop)
        (fun t => List.mem_of_mem_take) fun h => ?_
      rw [Run.length_after, Nat.sub_sub_self hlong, Slot.width_of_takesRun h]
    case stuck =>
      intro slot rest hm
      have hopen := (nextMove_eq_stuck hm).2.1
      refine meets_evenShare (fun _ => trivial) (fun _ _ => trivial) (fun _ _ => trivial)
        fun _ _ _ => ?_
      refine take .front (by simp [(nextMove_eq_stuck hm).1]) (fun t => List.mem_of_mem_take)
        (fun t => List.mem_of_mem_drop) fun h => ?_
      rw [Slot.takesRun_of_isOpen (by simpa using hopen)] at h
      cases h
  · intro w hw hnil _ slot hslot
    have := hw.1 slot hslot
    simpa [hnil] using this

theorem Binding.Binds.of_le {c : Binding} {x : Variable} (h : b.Binds x) (hle : b ≤ c) :
    c.Binds x := by
  cases x with
  | scalar v => exact h.imp fun _ h => Binding.scalar?_of_le hle h
  | tuple ts => exact h.imp fun _ h => Binding.tuple?_of_le hle h

theorem binds_of_assignTuple (ts : TupleVar) (contents : List TypeExpr) :
    (assignTuple ts contents b).Meets (·.Binds (.tuple ts)) fun _ => True := by
  refine meets_assignTuple ?_ (fun h => ⟨contents, h⟩) fun _ _ _ => trivial
  intro h
  exact ⟨contents, by simp [Binding.tuple?_bindTuple]⟩

/-- A slot binds its binders if the type of a single slot does. -/
theorem binds_of_matchSlot {slot : Slot} {run : Run}
    (ht : ∀ t ∈ slot.inner?, ∀ a b, (unify t a b).Meets (fun b' => ∀ x ∈ t.binders, b'.Binds x)
      fun _ => True) (hone : slot.takesRun = false → run.length = 1) :
    (matchSlot unify place slot run b).Meets (fun b' => ∀ x ∈ slot.binders, b'.Binds x)
      fun _ => True := by
  cases slot with
  | single t =>
    obtain ⟨a, ha⟩ := List.length_eq_one_iff.1 (hone rfl)
    rw [matchSlot, ha, unifyEach, meets_bind, meets_under]
    refine (ht t rfl a b).imp ?_
    intro b' hb'
    rw [unifyEach]
    · exact hb'
    · simp
  | spread ts =>
    rw [matchSlot, meets_under]
    exact (binds_of_assignTuple ts run.types).imp fun b' h => List.forall_mem_singleton.2 h
  | mapped ctor ts =>
    cases hts : b.tuple? ts with
    | some contents =>
      refine meets_iff.2 ⟨fun b' hb' => ?_, fun _ _ => trivial⟩
      have hle := le_of_matchSlot (value?_eq_some_iff.2 hb')
      have hbinds : b.Binds (.tuple ts) := ⟨contents, hts⟩
      exact List.forall_mem_singleton.2 (hbinds.of_le hle)
    | none =>
      rw [matchSlot, hts, meets_bind, meets_log, meets_bind]
      refine meets_iff.2 ⟨fun b' _ => ?_, fun _ _ => trivial⟩
      exact (binds_of_assignTuple ts _).imp fun b' h => List.forall_mem_singleton.2 h

theorem binds_of_matchList (ht : ∀ slot ∈ slots, ∀ t ∈ slot.inner?, ∀ a b,
      (unify t a b).Meets (fun b' => ∀ x ∈ t.binders, b'.Binds x) fun _ => True) :
    (matchList unify place slots arguments b).Meets
      (fun b' => ∀ x ∈ slots.flatMap Slot.binders, b'.Binds x) fun _ => True := by
  refine (meets_matchList_forall (Q := fun slot b' => ∀ x ∈ slot.binders, b'.Binds x)
    (fun _ _ _ hle h x hx => (h x hx).of_le hle)
    (fun slot hslot run b _ hone => binds_of_matchSlot (ht slot hslot) hone)).imp ?_
  intro b' h x hx
  obtain ⟨slot, hslot, hx⟩ := List.mem_flatMap.1 hx
  exact h slot hslot x hx

/-- A match binds the binders of its formal type. -/
theorem binds_of_unify (f a : TypeExpr) (b : Binding) :
    (unify f a b).Meets (fun b' => ∀ x ∈ f.binders, b'.Binds x) fun _ => True := by
  -- What the first of two matches has bound is still bound after the second.
  have both {x : Attempt Binding} {g : Binding → Attempt Binding} {xs ys : List Variable}
      (hx : x.Meets (fun b' => ∀ y ∈ xs, b'.Binds y) fun _ => True)
      (hle : ∀ b₁ b₂, (g b₁).value? = some b₂ → b₁ ≤ b₂)
      (hg : ∀ b₁, (g b₁).Meets (fun b' => ∀ y ∈ ys, b'.Binds y) fun _ => True) :
      x.Meets (fun b₁ => (g b₁).Meets (fun b' => ∀ y ∈ xs ++ ys, b'.Binds y) fun _ => True)
        fun _ => True := by
    refine hx.imp ?_
    intro b₁ h₁
    refine meets_iff.2 ⟨fun b₂ h₂ => ?_, fun _ _ => trivial⟩
    have hgrown := hle b₁ b₂ (value?_eq_some_iff.2 h₂)
    exact List.forall_mem_append.2
      ⟨fun y hy => (h₁ y hy).of_le hgrown, fun y hy => (hg b₁).of_ok h₂ y hy⟩
  have row {place : Nat → Segment} {ts arguments : List TypeExpr} {b : Binding}
      (ih : ∀ s ∈ ts.map Slot.ofType, ∀ t ∈ s.inner?, ∀ a b,
        (unify t a b).Meets (fun b' => ∀ x ∈ t.binders, b'.Binds x) fun _ => True) :
      (matchList unify place (ts.map Slot.ofType) arguments b).Meets
        (fun b' => ∀ x ∈ TypeExpr.bindersAll ts, b'.Binds x) fun _ => True := by
    rw [TypeExpr.bindersAll_eq_flatMap]
    exact binds_of_matchList ih
  induction f using TypeExpr.inductSlots generalizing a b with
  | named | spread | spreadMap =>
    exact meets_iff.2 ⟨fun _ _ => by simp [TypeExpr.binders], fun _ _ => trivial⟩
  | var v =>
    rw [meets_unify_var]
    refine meets_assignScalar ?_ ?_ fun _ _ _ => trivial
    · intro h
      exact List.forall_mem_singleton.2 ⟨a, by simp [Binding.scalar?_bindScalar]⟩
    · intro h
      exact List.forall_mem_singleton.2 ⟨a, h⟩
  | packed ts =>
    refine meets_unify_of_packed ?_ trivial
    intro elements _
    exact @row .element [.spread ts] elements b (by simp [Slot.ofType, Slot.inner?])
  | apply head args hhead hargs =>
    refine meets_unify_of_apply ?unwrapped ?applied trivial
    case unwrapped =>
      rintro us rfl _
      exact row hargs
    case applied =>
      intro head' args' _
      exact both (hhead _ _) (fun _ _ => le_of_matchList) fun _ => row hargs
  | union members hmembers =>
    refine meets_unify_of_union ?_ trivial
    intro members' _
    exact row hmembers
  | arrow params result hparams hresult =>
    refine meets_unify_of_arrow ?_ trivial
    intro params' result' _
    exact both (row hparams) (fun _ _ => le_of_unify) fun _ => hresult _ _

end binds

/-! ### Variables of filled types -/

section within

open TypeExpr

variable {x : Variable} {name : String} {v : TypeVar} {ts : TupleVar} {ctor head result : TypeExpr}
  {types : List TypeExpr} {X : Variable → Prop} {b : Binding}

@[simp] theorem not_mentions_named : ¬(named name).Mentions x := by
  cases x <;> simp [mentions_iff, nodes, Owns, ownScalar?, ownTuple?]

@[simp] theorem mentions_var : (var v).Mentions x ↔ x = .scalar v := by
  cases x <;> simp [mentions_iff, nodes, Owns, ownScalar?, ownTuple?, eq_comm]

@[simp] theorem mentions_packed : (packed ts).Mentions x ↔ x = .tuple ts := by
  cases x <;> simp [mentions_iff, nodes, Owns, ownScalar?, ownTuple?, eq_comm]

@[simp] theorem mentions_spread : (spread ts).Mentions x ↔ x = .tuple ts := by
  cases x <;> simp [mentions_iff, nodes, Owns, ownScalar?, ownTuple?, eq_comm]

@[simp] theorem mentions_spreadMap :
    (spreadMap ctor ts).Mentions x ↔ x = .tuple ts ∨ ctor.Mentions x := by
  cases x <;> simp [mentions_iff, nodes, Owns, ownScalar?, ownTuple?, eq_comm]

/-- Only variables for which `X` holds are mentioned. -/
def TypeExpr.Within (X : Variable → Prop) (t : TypeExpr) : Prop := ∀ x, t.Mentions x → X x

theorem within_apply (hhead : head.Within X) (htypes : ∀ t ∈ types, t.Within X) :
    (apply head types).Within X := by
  intro x hx
  rcases mentions_apply.1 hx with hx | ⟨t, ht, hx⟩
  · exact hhead x hx
  · exact htypes t ht x hx

theorem within_tuple (h : ∀ t ∈ types, t.Within X) : (tuple types).Within X :=
  within_apply (fun _ hx => absurd hx not_mentions_named) h

/-- What a slot is filled to mentions what is left of its own variables and what comes in with the
values of the others. -/
theorem within_fill_slot (hb : b.Assigns (TypeExpr.Within X)) {slot : Slot}
    (ht : ∀ t ∈ slot.inner?, (∀ x, t.Mentions x → ¬b.Binds x → X x) → (t.fill b).Within X)
    (hslot : ∀ x, slot.toType.Mentions x → ¬b.Binds x → X x) :
    ∀ t ∈ slot.fill b, t.Within X := by
  cases slot with
  | single t => exact List.forall_mem_singleton.2 (ht t rfl hslot)
  | spread ts =>
    cases hts : b.tuple? ts with
    | none =>
      have hopen : ¬b.Binds (.tuple ts) := by simp [Binding.Binds, hts]
      simp only [Slot.fill, hts, Option.getD_none, List.forall_mem_singleton]
      exact fun x hx => hslot x hx (mentions_spread.1 hx ▸ hopen)
    | some contents => simpa [Slot.fill, hts] using hb.tuples ts contents hts
  | mapped ctor ts =>
    have hctor : (ctor.fill b).Within X :=
      ht ctor rfl fun x hx => hslot x (mentions_spreadMap.2 (.inr hx))
    cases hts : b.tuple? ts with
    | none =>
      have hopen : ¬b.Binds (.tuple ts) := by simp [Binding.Binds, hts]
      simp only [Slot.fill, hts, Option.map_none, Option.getD_none, List.forall_mem_singleton]
      intro x hx
      rcases mentions_spreadMap.1 hx with rfl | hx
      · exact hslot _ (mentions_spreadMap.2 (.inl rfl)) hopen
      · exact hctor x hx
    | some contents =>
      simp only [Slot.fill, hts, Option.map_some, Option.getD_some, mapOver, List.forall_mem_map]
      intro t ht
      exact within_apply hctor (List.forall_mem_singleton.2 (hb.tuples ts contents hts t ht))

theorem within_fill (hb : b.Assigns (TypeExpr.Within X)) {t : TypeExpr}
    (ht : ∀ x, t.Mentions x → ¬b.Binds x → X x) :
    (t.fill b).Within X := by
  have row {types : List TypeExpr}
      (ih : ∀ s ∈ types.map Slot.ofType, ∀ t ∈ s.inner?,
        (∀ x, t.Mentions x → ¬b.Binds x → X x) → (t.fill b).Within X)
      (htypes : ∀ t ∈ types, ∀ x, t.Mentions x → ¬b.Binds x → X x) :
      ∀ t ∈ fillAll b types, t.Within X := by
    intro t ht
    rw [fillAll_eq_flatMap, List.mem_flatMap] at ht
    obtain ⟨slot, hslot, ht⟩ := ht
    refine within_fill_slot hb (ih slot hslot) ?_ t ht
    obtain ⟨u, hu, rfl⟩ := List.mem_map.1 hslot
    rw [Slot.toType_ofType]
    exact htypes u hu
  induction t using inductSlots with
  | named name => exact fun _ hx => absurd hx not_mentions_named
  | var v =>
    cases hv : b.scalar? v with
    | none =>
      have hopen : ¬b.Binds (.scalar v) := by simp [Binding.Binds, hv]
      rw [fill, hv, Option.getD_none]
      exact fun x hx => ht x hx (mentions_var.1 hx ▸ hopen)
    | some t => simpa [fill, hv] using hb.scalars v t hv
  | packed ts =>
    cases hts : b.tuple? ts with
    | none =>
      have hopen : ¬b.Binds (.tuple ts) := by simp [Binding.Binds, hts]
      rw [fill, hts, Option.map_none, Option.getD_none]
      exact fun x hx => ht x hx (mentions_packed.1 hx ▸ hopen)
    | some contents =>
      rw [fill, hts, Option.map_some, Option.getD_some]
      exact within_tuple (hb.tuples ts contents hts)
  | spread ts =>
    have hslot : ∀ t ∈ (Slot.spread ts).fill b, t.Within X :=
      within_fill_slot hb (by simp [Slot.inner?]) ht
    cases hts : b.tuple? ts with
    | none => simpa [Slot.fill, fill, hts] using hslot
    | some contents => simpa [fill, hts] using within_tuple (hb.tuples ts contents hts)
  | spreadMap ctor ts ih =>
    have hslot : ∀ t ∈ (Slot.mapped ctor ts).fill b, t.Within X :=
      within_fill_slot hb (by simpa [Slot.inner?] using ih) ht
    cases hts : b.tuple? ts with
    | none => simpa [Slot.fill, fill, hts] using hslot
    | some contents =>
      simp only [Slot.fill, hts, Option.map_some, Option.getD_some] at hslot
      rw [fill, hts, Option.map_some, Option.getD_some]
      exact within_tuple hslot
  | apply head args hhead hargs =>
    refine within_apply (hhead fun x hx => ht x (mentions_apply.2 (.inl hx))) ?_
    exact row hargs fun t h x hx => ht x (mentions_apply.2 (.inr ⟨t, h, hx⟩))
  | union members hmembers =>
    have hrow := row hmembers fun t h x hx => ht x (mentions_union.2 ⟨t, h, hx⟩)
    intro x hx
    rw [fill, mentions_union] at hx
    obtain ⟨t, h, hx⟩ := hx
    exact hrow t h x hx
  | arrow params result hparams hresult =>
    have hrow := row hparams fun t h x hx => ht x (mentions_arrow.2 (.inl ⟨t, h, hx⟩))
    intro x hx
    rw [fill, mentions_arrow] at hx
    rcases hx with ⟨t, h, hx⟩ | hx
    · exact hrow t h x hx
    · exact hresult (fun x hx => ht x (mentions_arrow.2 (.inr hx))) x hx

end within

/-! ### References in scope and others -/

section replacing

variable {scope : Scope} {expand : Alias → List TypeExpr → Attempt TypeExpr} {name : String}
  {a : Alias} {t head ctor : TypeExpr}

/-- A type is the name of an alias, or it is no name in scope. -/
theorem named_in_scope_or (scope : Scope) (t : TypeExpr) :
    (∃ name a, t = .named name ∧ scope.find? name = some a) ∨
      ∀ name, t = .named name → scope.find? name = none := by
  cases t with
  | named name =>
    cases hfind : scope.find? name with
    | none => exact .inr fun _ heq => by cases heq; exact hfind
    | some a => exact .inl ⟨name, a, rfl, hfind⟩
  | _ => exact .inr nofun

theorem expandReferences_eq (depth : Nat) (t : TypeExpr) : expandReferences scope depth t =
    t.replaceReferences (scope.replace (instantiate scope depth [])) := rfl

theorem replaceReferences_named (h : scope.find? name = some a) :
    (TypeExpr.named name).replaceReferences (scope.replace expand) = expand a [] := by
  rw [TypeExpr.replaceReferences, Scope.replace, h, Option.map_some, Option.getD_some]

theorem replaceReferences_apply_named (h : scope.find? name = some a) (args : List TypeExpr) :
    (TypeExpr.apply (.named name) args).replaceReferences (scope.replace expand) =
      TypeExpr.replaceAll (scope.replace expand) args >>= expand a := by
  rw [TypeExpr.replaceReferences]
  simp only [Scope.replace, h, Option.map_some, Option.getD_some]

theorem replaceReferences_apply (h : ∀ name, head = .named name → scope.find? name = none)
    (args : List TypeExpr) :
    (TypeExpr.apply head args).replaceReferences (scope.replace expand) = do
      let args ← TypeExpr.replaceAll (scope.replace expand) args
      let head ← head.replaceReferences (scope.replace expand)
      return .apply head args := by
  cases head with
  | named name =>
    simp only [TypeExpr.replaceReferences, Scope.replace, h name rfl, Option.map_none,
      Option.getD_none, pure_bind]
  | _ => rw [TypeExpr.replaceReferences]; simp

theorem replaceReferences_spreadMap (h : ∀ name, ctor = .named name → scope.find? name = none)
    (ts : TupleVar) :
    (TypeExpr.spreadMap ctor ts).replaceReferences (scope.replace expand) = do
      let ctor ← ctor.replaceReferences (scope.replace expand)
      return .spreadMap ctor ts := by
  by_cases hnamed : ∃ name, ctor = .named name
  · obtain ⟨name, rfl⟩ := hnamed
    simp only [TypeExpr.replaceReferences, Scope.replace, h name rfl, Option.map_none,
      Option.getD_none, pure_bind]
  · rw [TypeExpr.replaceReferences]
    exact fun name heq => hnamed ⟨name, heq⟩

end replacing

/-! ### Variables of expansions -/

/-- The variables that the body of an alias mentions are binders of its parameter list. -/
def Alias.BindsBody (a : Alias) : Prop := ∀ x, a.body.Mentions x → x ∈ a.formal.binders

instance (a : Alias) : Decidable a.BindsBody :=
  decidable_of_iff ((∀ v ∈ a.body.scalarMentions, .scalar v ∈ a.formal.binders) ∧
      ∀ ts ∈ a.body.tupleMentions, .tuple ts ∈ a.formal.binders) (by
    constructor
    · rintro ⟨hscalars, htuples⟩ x hx
      cases x with
      | scalar v => exact hscalars v hx
      | tuple ts => exact htuples ts hx
    · intro h
      exact ⟨fun v hv => h (.scalar v) hv, fun ts hts => h (.tuple ts) hts⟩)

/-- Every alias binds the variables of its body. -/
def Scope.BindsBodies (scope : Scope) : Prop :=
  ∀ name a, scope.find? name = some a → a.BindsBody

instance (d : Declarations) : Decidable d.scope.BindsBodies :=
  decidable_of_iff (∀ p ∈ d.aliases.toList, p.2.BindsBody) (by
    simp only [Prod.forall, Std.ExtTreeMap.mem_toList_iff_getElem?_eq_some]
    rfl)

section hygiene

variable {scope : Scope} {X : Variable → Prop} {a : Alias} {args : List TypeExpr}

theorem TypeExpr.Within.part {t p : TypeExpr} (h : t.Within X) (hp : p ∈ t.parts) : p.Within X :=
  fun x hx => h x (mentions_of_mem_parts hp hx)

/-- A match binds types that mention variables of the actual side only. -/
def withinInvariant (X : Variable → Prop) : MatchInvariant where
  actual := TypeExpr.Within X
  formal _ _ := True
  kept := Binding.Assigns (TypeExpr.Within X)
  actual_parts := TypeExpr.Within.part
  formal_parts _ _ := trivial
  formal_ctor _ := trivial
  formal_expansion _ _ _ _ _ := trivial
  formal_later _ _ := trivial
  bindScalar {_ v _} hb _ ht _ := hb.bindScalar ht v
  bindTuple {_ _ ts _} hb _ _ hcontents _ := hb.bindTuple hcontents ts

/-- What binds the parameters of an alias matches the arguments against them. -/
theorem result_bindArguments {b : Binding} (h : (a.bindArguments args).result = .ok b) :
    a.formal.tupleVars.length ≤ 1 ∧
      (matchList unify .param a.formal.slots args .empty).value? = some b := by
  rw [Alias.bindArguments] at h
  split at h
  · simp at h
  · obtain ⟨_, hsingle, hmatch⟩ := result_bind_eq_ok_iff.1 h
    change a.checkSingleTuple = .ok _ at hsingle
    unfold Alias.checkSingleTuple at hsingle
    split at hsingle
    · cases hsingle
    · refine ⟨by omega, value?_eq_some ?_⟩
      rwa [matchParameters, matchAnchored, solveAnchors, pure_bind] at hmatch

/-- The parameters of an alias are bound, and to types that mention variables of the arguments
only. -/
theorem within_of_bindArguments {b : Binding} (h : (a.bindArguments args).result = .ok b)
    (hargs : ∀ t ∈ args, t.Within X) :
    b.Assigns (TypeExpr.Within X) ∧ ∀ x ∈ a.formal.binders, b.Binds x := by
  have hmatch := value?_eq_some_iff.1 (result_bindArguments h).2
  constructor
  · exact (((withinInvariant X).keeps_of_matchList (withinInvariant X).keepsOn_unify hargs
      (fun _ _ => trivial) Binding.assigns_empty).of_ok hmatch).2
  · exact (binds_of_matchList fun _ _ t _ a b => binds_of_unify t a b).of_ok hmatch

/-- Replacing references brings in no variables if expanding them does not. -/
theorem within_of_replaceReferences {expand : Alias → List TypeExpr → Attempt TypeExpr}
    (hexpand : ∀ name a, scope.find? name = some a → ∀ args, (∀ t ∈ args, t.Within X) →
      (expand a args).Meets (TypeExpr.Within X) fun _ => True) {t : TypeExpr} (ht : t.Within X) :
    (t.replaceReferences (scope.replace expand)).Meets (TypeExpr.Within X) fun _ => True := by
  induction t using TypeExpr.induct with
  | named name =>
    rcases named_in_scope_or scope (.named name) with ⟨_, a, heq, hfind⟩ | hfind
    · cases heq
      rw [replaceReferences_named hfind]
      exact hexpand name a hfind [] (by simp)
    · rw [TypeExpr.replaceReferences, Scope.replace, hfind name rfl]
      exact ht
  | var | packed | spread =>
    rw [TypeExpr.replaceReferences]
    exact ht
  | spreadMap ctor ts ih =>
    rcases named_in_scope_or scope ctor with ⟨name, -, rfl, -⟩ | hctor
    · rw [TypeExpr.replaceReferences]
      exact ht
    · rw [replaceReferences_spreadMap hctor, meets_bind]
      refine (ih fun x hx => ht x (mentions_spreadMap.2 (.inr hx))).imp ?_
      intro ctor' hctor' x hx
      rcases mentions_spreadMap.1 hx with rfl | hx
      · exact ht _ (mentions_spreadMap.2 (.inl rfl))
      · exact hctor' x hx
  | apply head args hhead hargs =>
    have hargs := (meets_replaceAll fun t h => hargs t h fun x hx =>
      ht x (TypeExpr.mentions_apply.2 (.inr ⟨t, h, hx⟩))).imp fun _ => forall_of_forall₂
    rcases named_in_scope_or scope head with ⟨name, a, rfl, hfind⟩ | hfind
    · rw [replaceReferences_apply_named hfind, meets_bind]
      exact hargs.imp fun args' h => hexpand name a hfind args' h
    · rw [replaceReferences_apply hfind, meets_bind]
      refine hargs.imp ?_
      intro args' hargs'
      rw [meets_bind]
      refine (hhead fun x hx => ht x (TypeExpr.mentions_apply.2 (.inl hx))).imp ?_
      exact fun head' hhead' => within_apply hhead' hargs'
  | union members hmembers =>
    rw [TypeExpr.replaceReferences, meets_bind]
    refine (meets_replaceAll fun t h => hmembers t h fun x hx =>
      ht x (TypeExpr.mentions_union.2 ⟨t, h, hx⟩)).imp ?_
    intro members' hmembers' x hx
    obtain ⟨t, h, hx⟩ := TypeExpr.mentions_union.1 hx
    exact forall_of_forall₂ hmembers' t h x hx
  | arrow params result hparams hresult =>
    rw [TypeExpr.replaceReferences, meets_bind]
    refine (meets_replaceAll fun t h => hparams t h fun x hx =>
      ht x (TypeExpr.mentions_arrow.2 (.inl ⟨t, h, hx⟩))).imp ?_
    intro params' hparams'
    rw [meets_bind]
    refine (hresult fun x hx => ht x (TypeExpr.mentions_arrow.2 (.inr hx))).imp ?_
    intro result' hresult' x hx
    rcases TypeExpr.mentions_arrow.1 hx with ⟨t, h, hx⟩ | hx
    · exact forall_of_forall₂ hparams' t h x hx
    · exact hresult' x hx

/-- An expansion mentions variables of the arguments only. -/
theorem within_of_instantiate (hbodies : scope.BindsBodies) {budget : Nat} {stack : List String}
    (ha : a.BindsBody) (hargs : ∀ t ∈ args, t.Within X) :
    (instantiate scope budget stack a args).Meets (TypeExpr.Within X) fun _ => True := by
  refine meets_iff.2 ⟨fun t ht => ?_, fun _ _ => trivial⟩
  induction budget generalizing stack a args t with
  | zero =>
    obtain ⟨_, _, hlimit, -⟩ := exists_of_instantiate (yields_true_iff.2 ht)
    cases hlimit
  | succ budget ih =>
    obtain ⟨_, b, hlimit, hb, -, ht⟩ := exists_of_instantiate (yields_true_iff.2 ht)
    cases hlimit
    obtain ⟨hwithin, hbinds⟩ := within_of_bindArguments hb.1 hargs
    have hbody : (a.body.fill b).Within X :=
      within_fill hwithin fun x hx hopen => absurd (hbinds x (ha x hx)) hopen
    refine (within_of_replaceReferences ?_ hbody).of_ok ht.1
    intro name a' hfind args' hargs'
    exact meets_iff.2 ⟨fun _ hx => ih (hbodies name a' hfind) hargs' _ hx, fun _ _ => trivial⟩

theorem within_of_expandReferences (hbodies : scope.BindsBodies) {depth : Nat} {t : TypeExpr}
    (ht : t.Within X) :
    (expandReferences scope depth t).Meets (TypeExpr.Within X) fun _ => True :=
  within_of_replaceReferences
    (fun name a hfind _ hargs => within_of_instantiate hbodies (hbodies name a hfind) hargs) ht

end hygiene

end Polyadic
