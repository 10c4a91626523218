import Polyadic.Proofs.DisjointUnion
import Polyadic.Proofs.Lengths
import Polyadic.Proofs.Values

/-! # Matching a list whose variables are filled in

Anchors bind variables before a list is matched.  Filling their values in beforehand comes to the
same: the list with the values filled in matches the same ground arguments, and what it binds are
the variables that the anchors have left (`matchAnchored_instantiated`).

Both matches make their moves in step (`inStep_rowValue`).  A slot whose tuple variable the
anchors have bound is a known run of single slots in the other row.  These are taken off one by one,
from the back in the opposite order, which makes no difference (`matchPairs_fill_reverse`).  Every
other slot keeps its place and is open in both rows or in none of them. -/

namespace Polyadic

open Attempt

namespace Binding

/-- A match has come to the ground binding `b` where the match with `b₀` filled in has come to
`c`. -/
structure Parallel (b₀ b c : Binding) : Prop where
  ground : b.IsGround
  union : b.IsDisjointUnion b₀ c

namespace Parallel

variable {b b₀ c : Binding}

theorem ground_left (h : Parallel b₀ b c) : b₀.IsGround := h.ground.of_le h.union.left_le

theorem ground_right (h : Parallel b₀ b c) : c.IsGround := h.ground.of_le h.union.right_le

end Parallel

/-- Both matches fail, or they come to parallel bindings. -/
abbrev InStep (b₀ : Binding) : Option Binding → Option Binding → Prop := Option.Rel (Parallel b₀)

section steps

variable {b b₀ c : Binding}

theorem InStep.bind {x y : Option Binding} {f g : Binding → Option Binding} (h : InStep b₀ x y)
    (hfg : ∀ b c, Parallel b₀ b c → InStep b₀ (f b) (g c)) :
    InStep b₀ (x.bind f) (y.bind g) := by
  cases h with
  | some h => exact hfg _ _ h
  | none => exact .none

theorem InStep.ite {p : Prop} [Decidable p] {x y x' y' : Option Binding}
    (h : p → InStep b₀ x y) (h' : ¬p → InStep b₀ x' y') :
    InStep b₀ (if p then x else x') (if p then y else y') := by
  by_cases hp : p
  · simpa only [if_pos hp] using h hp
  · simpa only [if_neg hp] using h' hp

theorem Parallel.inStep_ite (h : Parallel b₀ b c) (p : Prop) [Decidable p] :
    InStep b₀ (if p then some b else none) (if p then some c else none) :=
  InStep.ite (fun _ => .some h) fun _ => .none

theorem Parallel.inStep_assignScalar {v : TypeVar} {t : TypeExpr} (h : Parallel b₀ b c)
    (ht : t.IsGround) (hv : b₀.scalar? v = none) :
    InStep b₀ (assignScalar v t b).value? (assignScalar v t c).value? := by
  have hsame := h.union.scalar?_right hv
  cases hc : c.scalar? v with
  | none =>
    rw [value?_assignScalar_fresh hc, value?_assignScalar_fresh (hsame.trans hc)]
    exact .some ⟨h.ground.bindScalar ht v, h.union.bindScalar hv t⟩
  | some previous =>
    rw [value?_assignScalar_known hc, value?_assignScalar_known (hsame.trans hc)]
    exact h.inStep_ite _

theorem Parallel.inStep_assignTuple {ts : TupleVar} {contents : List TypeExpr} (h : Parallel b₀ b c)
    (hcontents : ∀ t ∈ contents, t.IsGround) (hts : b₀.tuple? ts = none) :
    InStep b₀ (assignTuple ts contents b).value? (assignTuple ts contents c).value? := by
  have hsame := h.union.tuple?_right hts
  cases hc : c.tuple? ts with
  | none =>
    rw [value?_assignTuple_fresh hc, value?_assignTuple_fresh (hsame.trans hc)]
    exact .some ⟨h.ground.bindTuple hcontents ts, h.union.bindTuple hts contents⟩
  | some previous =>
    rw [value?_assignTuple_known hc, value?_assignTuple_known (hsame.trans hc)]
    exact h.inStep_ite _

end steps

end Binding

open Binding

/-! ### Slots with a binding filled in -/

namespace Slot

variable {b b₀ c : Binding} {slot : Slot}

/-- The slots that a slot becomes when a binding is filled in. -/
def instantiate (b : Binding) (slot : Slot) : List Slot := (slot.fill b).map ofType

/-- The slot with a binding filled in in its constructor. -/
def fillCtor (b : Binding) : Slot → Slot
  | .single t => .single t
  | .spread ts => .spread ts
  | .mapped ctor ts => .mapped (ctor.fill b) ts

theorem tuple?_fillCtor (b : Binding) (slot : Slot) :
    (slot.fillCtor b).tuple? = slot.tuple? := by cases slot <;> rfl

theorem instantiate_of_isOpen (h : slot.isOpen b = true) :
    slot.instantiate b = [slot.fillCtor b] := by
  cases slot with
  | single t => cases h
  | spread ts | mapped ctor ts =>
    obtain ⟨us, hus, hb⟩ := isOpen_iff.1 h
    cases hus
    simp [instantiate, fill, hb, fillCtor, ofType]

theorem instantiate_of_known (hb : b.IsGround) (hplaced : slot.WellPlaced)
    (h : slot.isOpen b = false) : slot.instantiate b = (slot.fill b).map single := by
  refine List.map_congr_left fun t ht => ofType_eq_single ?_
  cases slot with
  | single u =>
    obtain rfl := List.mem_singleton.1 ht
    exact TypeExpr.isSpliced_fill hb hplaced.1
  | spread ts =>
    obtain ⟨contents, hts⟩ := exists_of_known rfl h
    have hmem : t ∈ contents := by simpa [fill, hts] using ht
    exact (hb.tuples ts contents hts t hmem).isSpliced
  | mapped ctor ts =>
    obtain ⟨contents, hts⟩ := exists_of_known rfl h
    have hmem : t ∈ TypeExpr.mapOver (ctor.fill b) contents := by simpa [fill, hts] using ht
    obtain ⟨x, -, rfl⟩ := List.mem_map.1 hmem
    rfl

/-- An open slot is as long in one match as in the other. -/
theorem length?_fillCtor (hu : b.IsDisjointUnion b₀ c) (h : slot.isOpen b₀ = true) :
    (slot.fillCtor b₀).length? c = slot.length? b := by
  cases slot with
  | single t => cases h
  | spread ts | mapped ctor ts =>
    obtain ⟨us, hus, hb⟩ := isOpen_iff.1 h
    cases hus
    simp [length?, fillCtor, hu.tuple?_right hb]

theorem isOpen_fillCtor (hu : b.IsDisjointUnion b₀ c) (h : slot.isOpen b₀ = true) :
    (slot.fillCtor b₀).isOpen c = slot.isOpen b := by rw [isOpen, length?_fillCtor hu h, isOpen]

theorem width_fillCtor (hu : b.IsDisjointUnion b₀ c) (h : slot.isOpen b₀ = true) :
    (slot.fillCtor b₀).width c = slot.width b := by rw [width, length?_fillCtor hu h, width]

theorem isOpen_of_le (hle : b₀ ≤ b) (h : slot.isOpen b = true) : slot.isOpen b₀ = true := by
  obtain ⟨ts, hts, hb⟩ := isOpen_iff.1 h
  refine isOpen_iff.2 ⟨ts, hts, ?_⟩
  cases hb₀ : b₀.tuple? ts with
  | none => rfl
  | some contents => simp [tuple?_of_le hle hb₀] at hb

theorem width_of_known (hle : b₀ ≤ b) (h : slot.isOpen b₀ = false) :
    slot.width b = (slot.fill b₀).length := by
  cases slot with
  | single t => rfl
  | spread ts | mapped ctor ts =>
    obtain ⟨contents, hts⟩ := exists_of_known rfl h
    rw [width_of_bound rfl (tuple?_of_le hle hts)]
    simp [fill, hts]

end Slot

/-! ### Lengths -/

section lengths

variable {b b₀ c : Binding} {slots : List Slot}

theorem requiredLength_instantiate (h : Parallel b₀ b c) (hplaced : ∀ s ∈ slots, s.WellPlaced) :
    requiredLength c (slots.flatMap (Slot.instantiate b₀)) = requiredLength b slots := by
  induction slots with
  | nil => rfl
  | cons slot rest ih =>
    rw [List.flatMap_cons, requiredLength_append, ih fun s hs => hplaced s (by simp [hs]),
      requiredLength, Nat.add_right_cancel_iff]
    cases hopen : slot.isOpen b₀ with
    | true =>
      rw [Slot.instantiate_of_isOpen hopen, requiredLength, requiredLength,
        Slot.width_fillCtor h.union hopen, Nat.add_zero]
    | false =>
      rw [Slot.instantiate_of_known h.ground_left (hplaced slot (by simp)) hopen,
        requiredLength_singles, Slot.width_of_known h.union.left_le hopen]

/-- The open slots are the same, but for their constructors. -/
theorem filter_isOpen_instantiate (h : Parallel b₀ b c) (hplaced : ∀ s ∈ slots, s.WellPlaced) :
    (slots.flatMap (Slot.instantiate b₀)).filter (Slot.isOpen c) =
      (slots.filter (Slot.isOpen b)).map (Slot.fillCtor b₀) := by
  induction slots with
  | nil => rfl
  | cons slot rest ih =>
    rw [List.flatMap_cons, List.filter_append, ih fun s hs => hplaced s (by simp [hs])]
    cases hopen : slot.isOpen b₀ with
    | true =>
      rw [Slot.instantiate_of_isOpen hopen]
      cases hb : slot.isOpen b <;> simp [Slot.isOpen_fillCtor h.union hopen, hb]
    | false =>
      have hb : ¬slot.isOpen b = true := fun hb => by
        simp [Slot.isOpen_of_le h.union.left_le hb] at hopen
      rw [Slot.instantiate_of_known h.ground_left (hplaced slot (by simp)) hopen,
        filter_isOpen_singles, List.filter_cons_of_neg hb, List.nil_append]

theorem openCount_instantiate (h : Parallel b₀ b c) (hplaced : ∀ s ∈ slots, s.WellPlaced) :
    openCount c (slots.flatMap (Slot.instantiate b₀)) = openCount b slots := by
  rw [openCount, openCount, List.countP_eq_length_filter, List.countP_eq_length_filter,
    filter_isOpen_instantiate h hplaced, List.length_map]

theorem openTuples_instantiate (h : Parallel b₀ b c) (hplaced : ∀ s ∈ slots, s.WellPlaced) :
    openTuples c (slots.flatMap (Slot.instantiate b₀)) = openTuples b slots := by
  have htuple : Slot.tuple? ∘ Slot.fillCtor b₀ = Slot.tuple? := funext (Slot.tuple?_fillCtor b₀)
  rw [openTuples, openTuples, filter_isOpen_instantiate h hplaced, List.filterMap_map, htuple]

theorem listArity_instantiate (h : Parallel b₀ b c) (hplaced : ∀ s ∈ slots, s.WellPlaced) :
    listArity c (slots.flatMap (Slot.instantiate b₀)) = listArity b slots := by
  rw [listArity, listArity, openCount_instantiate h hplaced, requiredLength_instantiate h hplaced]

theorem value?_evenShare_instantiate (h : Parallel b₀ b c)
    (hplaced : ∀ s ∈ slots, s.WellPlaced) (run : Run) :
    (evenShare (slots.flatMap (Slot.instantiate b₀)) run c).value? =
      (evenShare slots run b).value? := by
  rw [value?_evenShare, value?_evenShare, openTuples_instantiate h hplaced,
    openCount_instantiate h hplaced, requiredLength_instantiate h hplaced]

end lengths

/-! ### One slot -/

section order

variable {b c : Binding} {ctor head : TypeExpr} {xs ys types : List TypeExpr}

theorem matchPairs_mapOver_congr (hxs : ∀ x ∈ xs, x.IsGround) (hys : ∀ y ∈ ys, y.IsGround)
    (hlength : xs.length = ys.length) :
    matchPairs ((TypeExpr.mapOver ctor xs).zip (TypeExpr.mapOver head xs)) b =
      matchPairs ((TypeExpr.mapOver ctor ys).zip (TypeExpr.mapOver head ys)) b := by
  induction xs generalizing ys b with
  | nil =>
    obtain rfl := List.eq_nil_of_length_eq_zero hlength.symm
    rfl
  | cons x xs ih =>
    obtain _ | ⟨y, ys⟩ := ys
    · cases hlength
    · simp only [TypeExpr.mapOver, List.map_cons, List.zip_cons_cons, matchPairs,
        value?_unify_unary (hxs x (by simp)), value?_unify_unary (hys y (by simp))]
      refine congrArg _ (funext fun b => ?_)
      exact ih (fun z hz => hxs z (by simp [hz])) (fun z hz => hys z (by simp [hz]))
        (by simpa using hlength)

/-- What a constructor applied to ground types has been matched against has the same operands, and
one constructor throughout. -/
theorem exists_eq_mapOver (hb : b.IsGround) (hxs : ∀ x ∈ xs, x.IsGround)
    (htypes : ∀ t ∈ types, t.IsGround) (hlength : xs.length = types.length)
    (h : matchPairs ((TypeExpr.mapOver ctor xs).zip types) b = some c) :
    ∃ head, types = TypeExpr.mapOver head xs := by
  have hformals : (TypeExpr.mapOver ctor xs).length = types.length := by simpa using hlength
  rw [← @value?_unifyEach .arg 0, value?_eq_some_iff] at h
  have hsolved := (solved_of_unifyEach solvesOn_unify htypes hb hformals).of_ok h
  have hfill := hsolved.fills c c.le_refl
  rw [Slot.flatMap_fill_single, TypeExpr.map_fill_mapOver hxs] at hfill
  exact ⟨ctor.fill c, hfill.symm⟩

theorem matchPairs_mapOver_reverse (hb : b.IsGround) (hxs : ∀ x ∈ xs, x.IsGround)
    (htypes : ∀ t ∈ types, t.IsGround) (hlength : xs.length = types.length) :
    matchPairs ((TypeExpr.mapOver ctor xs.reverse).zip types.reverse) b =
      matchPairs ((TypeExpr.mapOver ctor xs).zip types) b := by
  have reverse {head : TypeExpr} (heq : types = TypeExpr.mapOver head xs) :
      matchPairs ((TypeExpr.mapOver ctor xs.reverse).zip types.reverse) b =
        matchPairs ((TypeExpr.mapOver ctor xs).zip types) b := by
    rw [heq, TypeExpr.mapOver.eq_def head, ← List.map_reverse]
    exact matchPairs_mapOver_congr (by simpa using hxs) hxs (by simp)
  ext c
  constructor
  · intro h
    obtain ⟨head, heq⟩ := exists_eq_mapOver hb (by simpa using hxs) (by simpa using htypes)
      (by simpa using hlength) h
    rw [TypeExpr.mapOver, List.map_reverse, List.reverse_inj] at heq
    rwa [← reverse heq]
  · intro h
    obtain ⟨head, heq⟩ := exists_eq_mapOver hb hxs htypes hlength h
    rwa [reverse heq]

/-- What a known slot is filled to may be matched in either order. -/
theorem matchPairs_fill_reverse {b₀ : Binding} {slot : Slot} (hb : b.IsGround)
    (hb₀ : b₀.IsGround) (hknown : slot.isOpen b₀ = false) (htypes : ∀ t ∈ types, t.IsGround)
    (hlength : (slot.fill b₀).length = types.length) :
    matchPairs ((slot.fill b₀).reverse.zip types.reverse) b =
      matchPairs ((slot.fill b₀).zip types) b := by
  cases slot with
  | single t =>
    obtain ⟨a, rfl⟩ := List.length_eq_one_iff.1 hlength.symm
    rfl
  | spread ts =>
    obtain ⟨contents, hts⟩ := Slot.exists_of_known rfl hknown
    have hcontents := hb₀.tuples ts contents hts
    simp only [Slot.fill, hts, Option.getD_some] at hlength ⊢
    rw [matchPairs_ground hcontents htypes hlength, matchPairs_ground (by simpa using hcontents)
      (by simpa using htypes) (by simpa using hlength)]
    simp
  | mapped ctor ts =>
    obtain ⟨contents, hts⟩ := Slot.exists_of_known rfl hknown
    simp only [Slot.fill, hts, Option.map_some, Option.getD_some, TypeExpr.length_mapOver]
      at hlength ⊢
    rw [TypeExpr.mapOver, ← List.map_reverse]
    exact matchPairs_mapOver_reverse hb (hb₀.tuples ts contents hts) htypes hlength

end order

section slots

variable {b₀ b c : Binding} {place : Nat → Segment}

/-- Matching types keeps in step, on a list of types and on everything at most as heavy. -/
def InStepOn (b₀ : Binding) (arguments : List TypeExpr) : Prop :=
  ∀ x ∈ arguments, ∀ f a b c, a.weight ≤ x.weight → a.IsGround → f.WellPlaced → Parallel b₀ b c →
    InStep b₀ (unify f a b).value? (unify (f.fill b₀) a c).value?

theorem InStepOn.mono {as bs : List TypeExpr} (h : InStepOn b₀ bs) (hs : ∀ a ∈ as, a ∈ bs) :
    InStepOn b₀ as := fun x hx => h x (hs x hx)

theorem inStep_matchPairs {formals actuals : List TypeExpr} (hu : InStepOn b₀ actuals)
    (hactuals : ∀ a ∈ actuals, a.IsGround) (hformals : ∀ f ∈ formals, f.WellPlaced)
    (h : Parallel b₀ b c) :
    InStep b₀ (matchPairs (formals.zip actuals) b)
      (matchPairs ((formals.map (TypeExpr.fill b₀)).zip actuals) c) := by
  induction formals generalizing actuals b c with
  | nil => exact .some h
  | cons f fs ih =>
    cases actuals with
    | nil => exact .some h
    | cons a as =>
      refine InStep.bind (hu a (by simp) f a b c (Nat.le_refl _) (hactuals a (by simp))
        (hformals f (by simp)) h) ?_
      intro b' c' h'
      exact ih (hu.mono (by simp +contextual)) (fun x hx => hactuals x (by simp [hx]))
        (fun x hx => hformals x (by simp [hx])) h'

theorem inStep_stripEach {ctor : TypeExpr} {ts : TupleVar} {actuals : List TypeExpr} {i : Nat}
    (hu : InStepOn b₀ actuals) (hactuals : ∀ a ∈ actuals, a.IsGround) (hctor : ctor.WellPlaced)
    (h : Parallel b₀ b c) :
    InStep b₀ (stripEach unify place ctor ts i actuals b).value?
      (stripEach unify place (ctor.fill b₀) ts i actuals c).value? := by
  induction actuals generalizing i b c with
  | nil => exact .some h
  | cons a as ih =>
    rw [stripEach, stripEach, value?_bind, value?_bind, value?_under, value?_under]
    refine InStep.bind ?_ ?_
    · cases ha : a.unary? with
      | none => exact .none
      | some parts =>
        obtain ⟨head, operand⟩ := parts
        have hweight := TypeExpr.weight_lt_of_unary ha
        have hhead : head.IsGround := ((hactuals a (by simp)).unary ha).1
        simpa using hu a (by simp) ctor head b c (Nat.le_of_lt hweight) hhead hctor h
    · intro b' c' h'
      exact ih (hu.mono (by simp +contextual)) (fun x hx => hactuals x (by simp [hx])) h'

/-- A bound sequence is expanded, with the constructor filled in or not. -/
theorem inStep_mapped {ctor : TypeExpr} {contents : List TypeExpr} {run : Run}
    (hu : InStepOn b₀ run.types) (hrun : ∀ t ∈ run.types, t.IsGround) (hctor : ctor.WellPlaced)
    (hcontents : ∀ t ∈ contents, t.IsGround) (h : Parallel b₀ b c) :
    InStep b₀ (matchPairs ((TypeExpr.mapOver ctor contents).zip run.types) b)
      (matchPairs ((TypeExpr.mapOver (ctor.fill b₀) contents).zip run.types) c) := by
  rw [← TypeExpr.map_fill_mapOver hcontents]
  exact inStep_matchPairs hu hrun (TypeExpr.wellPlaced_mapOver hctor hcontents) h

/-- A slot whose length `b₀` tells is matched as the types that it is filled to. -/
theorem inStep_matchSlot_known {slot : Slot} {run : Run} (hu : InStepOn b₀ run.types)
    (hrun : ∀ t ∈ run.types, t.IsGround) (hplaced : slot.WellPlaced)
    (hknown : slot.isOpen b₀ = false) (hlength : (slot.fill b₀).length = run.types.length)
    (h : Parallel b₀ b c) :
    InStep b₀ (matchSlot unify place slot run b).value?
      (matchPairs ((slot.fill b₀).zip run.types) c) := by
  cases slot with
  | single t =>
    rw [value?_matchSlot_single]
    exact inStep_matchPairs hu hrun (List.forall_mem_singleton.2 hplaced) h
  | spread ts =>
    obtain ⟨contents, hts⟩ := Slot.exists_of_known rfl hknown
    simp only [Slot.fill, hts, Option.getD_some] at hlength ⊢
    rw [value?_matchSlot_spread, value?_assignTuple_known (h.union.tuple?_left hts),
      matchPairs_ground (h.ground_left.tuples ts contents hts) hrun hlength]
    exact h.inStep_ite _
  | mapped ctor ts =>
    obtain ⟨contents, hts⟩ := Slot.exists_of_known rfl hknown
    simp only [Slot.fill, hts, Option.map_some, Option.getD_some]
    rw [value?_matchSlot_known (h.union.tuple?_left hts)]
    exact inStep_mapped hu hrun hplaced (h.ground_left.tuples ts contents hts) h

/-- A slot whose length `b₀` leaves open is matched as the slot that it becomes. -/
theorem inStep_matchSlot_open {slot : Slot} {run : Run} (hu : InStepOn b₀ run.types)
    (hrun : ∀ t ∈ run.types, t.IsGround) (hplaced : slot.WellPlaced)
    (hopen : slot.isOpen b₀ = true) (h : Parallel b₀ b c) :
    InStep b₀ (matchSlot unify place slot run b).value?
      (matchSlot unify place (slot.fillCtor b₀) run c).value? := by
  obtain ⟨us, hus, hb₀⟩ := Slot.isOpen_iff.1 hopen
  cases slot with
  | single t => cases hus
  | spread ts =>
    cases hus
    rw [Slot.fillCtor, value?_matchSlot_spread, value?_matchSlot_spread]
    exact h.inStep_assignTuple hrun hb₀
  | mapped ctor ts =>
    cases hus
    have hsame := h.union.tuple?_right hb₀
    cases hts : c.tuple? us with
    | some contents =>
      rw [Slot.fillCtor, value?_matchSlot_known hts, value?_matchSlot_known (hsame.trans hts)]
      exact inStep_mapped hu hrun hplaced (h.ground_right.tuples us contents hts) h
    | none =>
      rw [Slot.fillCtor, value?_matchSlot_open hts, value?_matchSlot_open (hsame.trans hts)]
      refine InStep.bind (inStep_stripEach hu hrun hplaced h) ?_
      intro b' c' h'
      exact h'.inStep_assignTuple (isGround_operands hrun) hb₀

end slots

/-! ### Rows of slots -/

section ends

variable {b b₀ c : Binding} {slots : List Slot}

theorem head_instantiate (hu : b.IsDisjointUnion b₀ c)
    (h : ∀ s ∈ slots.head?, (!s.isOpen b) = false) :
    ∀ s ∈ (slots.flatMap (Slot.instantiate b₀)).head?, (!s.isOpen c) = false := by
  cases slots with
  | nil => simp
  | cons slot rest =>
    have hopen : slot.isOpen b = true := by simpa using h
    have hopen₀ := Slot.isOpen_of_le hu.left_le hopen
    simp [Slot.instantiate_of_isOpen hopen₀, Slot.isOpen_fillCtor hu hopen₀, hopen]

theorem getLast_instantiate (hu : b.IsDisjointUnion b₀ c)
    (h : ∀ s ∈ slots.getLast?, (!s.isOpen b) = false) :
    ∀ s ∈ (slots.flatMap (Slot.instantiate b₀)).getLast?, (!s.isOpen c) = false := by
  obtain rfl | ⟨init, slot, rfl⟩ := slots.eq_nil_or_concat
  · simp
  · have hopen : slot.isOpen b = true := by simpa using h
    have hopen₀ := Slot.isOpen_of_le hu.left_le hopen
    simp [Slot.instantiate_of_isOpen hopen₀, Slot.isOpen_fillCtor hu hopen₀, hopen]

end ends

section rows

variable {b b₀ c : Binding} {place : Nat → Segment} {slot : Slot} {rest rest' : List Slot}
  {run : Run}

theorem forall_mem_first (hrun : ∀ t ∈ run.types, t.IsGround) (n : Nat) :
    ∀ t ∈ (run.first n).types, t.IsGround := fun t ht => hrun t (List.mem_of_mem_take ht)

theorem forall_mem_after (hrun : ∀ t ∈ run.types, t.IsGround) (n : Nat) :
    ∀ t ∈ (run.after n).types, t.IsGround := fun t ht => hrun t (List.mem_of_mem_drop ht)

theorem InStepOn.first (hu : InStepOn b₀ run.types) (n : Nat) :
    InStepOn b₀ (run.first n).types := hu.mono fun _ => List.mem_of_mem_take

theorem InStepOn.after (hu : InStepOn b₀ run.types) (n : Nat) :
    InStepOn b₀ (run.after n).types := hu.mono fun _ => List.mem_of_mem_drop

/-- A known slot at the front is taken, in the other row the slots that it becomes. -/
theorem inStep_front (hu : InStepOn b₀ run.types) (hrun : ∀ t ∈ run.types, t.IsGround)
    (hplaced : slot.WellPlaced) (hknown : slot.isOpen b = false) (h : Parallel b₀ b c)
    (ih : ∀ b' c', Parallel b₀ b' c' → InStep b₀
      (rowValue place ⟨.front, rest, run.after (slot.width b), b'⟩)
      (rowValue place ⟨.front, rest', run.after (slot.width b), c'⟩)) :
    InStep b₀
      (if run.length < slot.width b then none
        else (matchSlot unify place slot (run.first (slot.width b)) b).value?.bind
          fun b' => rowValue place ⟨.front, rest, run.after (slot.width b), b'⟩)
      (rowValue place ⟨.front, slot.instantiate b₀ ++ rest', run, c⟩) := by
  cases hopen : slot.isOpen b₀ with
  | true =>
    have hwidth := Slot.width_fillCtor h.union hopen
    have hknown' : (slot.fillCtor b₀).isOpen c = false := by
      rw [Slot.isOpen_fillCtor h.union hopen, hknown]
    rw [Slot.instantiate_of_isOpen hopen, List.singleton_append,
      rowValue_front_of_known hknown', hwidth]
    refine InStep.ite (fun _ => .none) fun _ => InStep.bind ?_ ih
    exact inStep_matchSlot_open (hu.first _) (forall_mem_first hrun _) hplaced hopen h
  | false =>
    have hwidth := Slot.width_of_known h.union.left_le hopen
    rw [Slot.instantiate_of_known h.ground_left hplaced hopen, rowValue_singles_front, ← hwidth]
    refine InStep.ite (fun _ => .none) fun hlong => InStep.bind ?_ ih
    have hlength : (run.first (slot.width b)).length = slot.width b :=
      Run.length_first (Nat.le_of_not_lt hlong)
    exact inStep_matchSlot_known (hu.first _) (forall_mem_first hrun _) hplaced hopen
      (hwidth.symm.trans hlength.symm) h

/-- A known slot at the back is taken, in the other row the slots that it becomes. -/
theorem inStep_back (hu : InStepOn b₀ run.types) (hrun : ∀ t ∈ run.types, t.IsGround)
    (hplaced : slot.WellPlaced) (hknown : slot.isOpen b = false) (h : Parallel b₀ b c)
    (ih : ∀ b' c', Parallel b₀ b' c' → InStep b₀
      (rowValue place ⟨.back, rest, run.first (run.length - slot.width b), b'⟩)
      (rowValue place ⟨.back, rest', run.first (run.length - slot.width b), c'⟩)) :
    InStep b₀
      (if run.length < slot.width b then none
        else (matchSlot unify place slot (run.after (run.length - slot.width b)) b).value?.bind
          fun b' => rowValue place ⟨.back, rest, run.first (run.length - slot.width b), b'⟩)
      (rowValue place ⟨.back, rest' ++ slot.instantiate b₀, run, c⟩) := by
  cases hopen : slot.isOpen b₀ with
  | true =>
    have hwidth := Slot.width_fillCtor h.union hopen
    have hknown' : (slot.fillCtor b₀).isOpen c = false := by
      rw [Slot.isOpen_fillCtor h.union hopen, hknown]
    rw [Slot.instantiate_of_isOpen hopen, rowValue_back_of_known hknown', hwidth]
    refine InStep.ite (fun _ => .none) fun _ => InStep.bind ?_ ih
    exact inStep_matchSlot_open (hu.after _) (forall_mem_after hrun _) hplaced hopen h
  | false =>
    have hwidth := Slot.width_of_known h.union.left_le hopen
    have hslots : slot.instantiate b₀ = ((slot.fill b₀).reverse.map .single).reverse := by
      rw [Slot.instantiate_of_known h.ground_left hplaced hopen, List.map_reverse,
        List.reverse_reverse]
    rw [hslots, rowValue_singles_back, List.length_reverse, ← hwidth]
    refine InStep.ite (fun _ => .none) fun hlong => InStep.bind ?_ ih
    have hground := forall_mem_after hrun (run.length - slot.width b)
    have hlength :
        (slot.fill b₀).length = (run.after (run.length - slot.width b)).types.length := by
      rw [← hwidth, ← Run.length, Run.length_after]
      omega
    rw [matchPairs_fill_reverse h.ground_right h.ground_left hopen hground hlength]
    exact inStep_matchSlot_known (hu.after _) hground hplaced hopen hlength h

/-- With `b₀` filled in, a row is worked off in step. -/
theorem inStep_rowValue {side : Side} {slots : List Slot} (hu : InStepOn b₀ run.types)
    (hrun : ∀ t ∈ run.types, t.IsGround) (hplaced : ∀ s ∈ slots, s.WellPlaced)
    (h : Parallel b₀ b c) :
    InStep b₀ (rowValue place ⟨side, slots, run, b⟩)
      (rowValue place ⟨side, slots.flatMap (Slot.instantiate b₀), run, c⟩) := by
  induction hn : slots.length generalizing side slots run b c with
  | zero =>
    obtain rfl := List.eq_nil_of_length_eq_zero hn
    exact h.inStep_ite _
  | succ n ih =>
    cases hm : nextMove (fun s => !s.isOpen b) side slots with
    | done => simp [nextMove_eq_done hm] at hn
    | front slot rest =>
      -- The other row is taken from the front as well: that is where the last move was made, or
      -- else the slot at the back is open in both rows.
      have hside : rowValue place ⟨side, slots.flatMap (Slot.instantiate b₀), run, c⟩ =
          rowValue place ⟨.front, slots.flatMap (Slot.instantiate b₀), run, c⟩ := by
        obtain rfl | hlast := side_of_nextMove_front hm
        · rfl
        · exact rowValue_eq_of_nextMove
            (nextMove_eq_of_unknown (.inr (getLast_instantiate h.union hlast)) side .front)
      rw [rowValue_front hm, hside]
      obtain ⟨rfl, hknown⟩ := nextMove_eq_front hm
      refine inStep_front hu hrun (hplaced slot (by simp)) (by simpa using hknown) h ?_
      intro b' c' h'
      exact ih (hu.after _) (forall_mem_after hrun _) (fun s hs => hplaced s (by simp [hs])) h'
        (by simpa using hn)
    | back rest slot =>
      have hside : rowValue place ⟨side, slots.flatMap (Slot.instantiate b₀), run, c⟩ =
          rowValue place ⟨.back, slots.flatMap (Slot.instantiate b₀), run, c⟩ := by
        obtain rfl | hfirst := side_of_nextMove_back hm
        · rfl
        · exact rowValue_eq_of_nextMove
            (nextMove_eq_of_unknown (.inl (head_instantiate h.union hfirst)) side .back)
      rw [rowValue_back hm, hside]
      obtain ⟨rfl, hknown⟩ := nextMove_eq_back hm
      rw [List.flatMap_append, List.flatMap_singleton]
      refine inStep_back hu hrun (hplaced slot (by simp)) (by simpa using hknown) h ?_
      intro b' c' h'
      exact ih (hu.first _) (forall_mem_first hrun _) (fun s hs => hplaced s (by simp [hs])) h'
        (by simpa using hn)
    | stuck slot rest =>
      rw [rowValue_stuck hm, ← value?_evenShare_instantiate h hplaced]
      obtain ⟨rfl, hopen, hlast⟩ := nextMove_eq_stuck hm
      have hopen : slot.isOpen b = true := by simpa using hopen
      have hopen₀ := Slot.isOpen_of_le h.union.left_le hopen
      have hlast' := getLast_instantiate h.union hlast
      rw [List.flatMap_cons, Slot.instantiate_of_isOpen hopen₀, List.singleton_append] at hlast' ⊢
      rw [rowValue_of_open (by rw [Slot.isOpen_fillCtor h.union hopen₀, hopen]) hlast']
      cases (evenShare _ run c).value? with
      | none => exact .none
      | some width =>
        refine InStep.bind (inStep_matchSlot_open (hu.first width) (forall_mem_first hrun width)
          (hplaced slot (by simp)) hopen₀ h) ?_
        intro b' c' h'
        exact ih (hu.after _) (forall_mem_after hrun _) (fun s hs => hplaced s (by simp [hs])) h'
          (by simpa using hn)

theorem inStep_matchList {slots : List Slot} {arguments : List TypeExpr}
    (hu : InStepOn b₀ arguments) (harguments : ∀ t ∈ arguments, t.IsGround)
    (hplaced : ∀ s ∈ slots, s.WellPlaced) (h : Parallel b₀ b c) :
    InStep b₀ (matchList unify place slots arguments b).value?
      (matchList unify place (slots.flatMap (Slot.instantiate b₀)) arguments c).value? := by
  rw [value?_matchList, value?_matchList, listArity_instantiate h hplaced]
  exact InStep.ite (fun _ => inStep_rowValue hu harguments hplaced h) fun _ => .none

end rows

/-! ### Two types -/

section types

variable {b b₀ c : Binding}

theorem TypeExpr.map_ofType_fillAll (types : List TypeExpr) :
    (fillAll b₀ types).map Slot.ofType =
      (types.map Slot.ofType).flatMap (Slot.instantiate b₀) := by
  rw [fillAll_eq_flatMap, List.map_flatMap]
  rfl

/-- The wrapped form of a tuple variable is matched like a list of its spread form, also when its
value is filled in. -/
theorem value?_unify_fill_packed (hb₀ : b₀.IsGround) (ts : TupleVar) {a : TypeExpr}
    (ha : a.IsGround) :
    (unify ((TypeExpr.packed ts).fill b₀) a c).value? = a.tupleElements?.bind fun elements =>
      (matchList unify .element ((TypeExpr.fillAll b₀ [.spread ts]).map Slot.ofType)
        elements c).value? := by
  cases hts : b₀.tuple? ts with
  | none =>
    simp only [TypeExpr.fill, TypeExpr.fillAll, hts, Option.map_none, Option.getD_none,
      value?_unify_packed]
    rfl
  | some xs =>
    have hxs := hb₀.tuples ts xs hts
    simp only [TypeExpr.fill, TypeExpr.fillAll, hts, Option.map_some, Option.getD_some,
      List.append_nil]
    rw [value?_unify_ground (by simpa [TypeExpr.tuple] using hxs) ha]
    cases helements : a.tupleElements? with
    | none =>
      rw [if_neg fun heq => by simp [← heq] at helements]
      rfl
    | some elements =>
      obtain ⟨rfl, hground⟩ := ha.tupleElements helements
      rw [Option.bind_some, value?_matchList_eq_ite hxs fun x hx t ht =>
        value?_unify_ground (hxs x hx) (hground t ht)]
      simp [TypeExpr.tuple]

/-- With `b₀` filled in, a type is matched in step. -/
theorem inStep_unify {f a : TypeExpr} (ha : a.IsGround) (hf : f.WellPlaced)
    (h : Parallel b₀ b c) :
    InStep b₀ (unify f a b).value? (unify (f.fill b₀) a c).value? := by
  induction hn : a.weight using Nat.strongRecOn generalizing f a b c with
  | ind n ih =>
    have row (place : Nat → Segment) {types arguments : List TypeExpr} {b c : Binding}
        (hl : ∀ x ∈ arguments, x.weight < n) (harguments : ∀ x ∈ arguments, x.IsGround)
        (hplaced : ∀ s ∈ types.map Slot.ofType, s.WellPlaced) (h : Parallel b₀ b c) :
        InStep b₀
          (matchList unify place (types.map Slot.ofType) arguments b).value?
          (matchList unify place ((TypeExpr.fillAll b₀ types).map Slot.ofType)
            arguments c).value? := by
      have hlighter : InStepOn b₀ arguments := by
        intro x hx f a b c hle ha hf h
        exact ih a.weight (Nat.lt_of_le_of_lt hle (hl x hx)) ha hf h rfl
      rw [TypeExpr.map_ofType_fillAll]
      exact inStep_matchList hlighter harguments hplaced h
    subst hn
    cases f with
    | named name =>
      rw [TypeExpr.fill, value?_unify_named, value?_unify_named]
      exact h.inStep_ite _
    | var v =>
      rw [value?_unify_var]
      cases hv : b₀.scalar? v with
      | none =>
        simp only [TypeExpr.fill, hv, Option.getD_none, value?_unify_var]
        exact h.inStep_assignScalar ha hv
      | some t =>
        simp only [TypeExpr.fill, hv, Option.getD_some]
        rw [value?_assignScalar_known (h.union.scalar?_left hv),
          value?_unify_ground (h.ground_left.scalars v t hv) ha]
        exact h.inStep_ite _
    | packed ts =>
      rw [value?_unify_packed, value?_unify_fill_packed h.ground_left ts ha]
      cases helements : a.tupleElements? with
      | none => exact .none
      | some elements =>
        have hspread : ∀ s ∈ [TypeExpr.spread ts].map Slot.ofType, s.WellPlaced :=
          List.forall_mem_singleton.2 trivial
        exact row .element (fun x => TypeExpr.weight_lt_of_mem_tupleElements helements)
          (ha.tupleElements helements).2 hspread h
    | spread | spreadMap => simp at hf
    | apply head args =>
      rw [TypeExpr.wellPlaced_apply] at hf
      cases a with
      | apply head' args' =>
        rw [TypeExpr.isGround_apply] at ha
        rw [TypeExpr.fill, value?_unify_apply, value?_unify_apply]
        refine InStep.bind (ih _ TypeExpr.weight_head_lt ha.1 hf.1 h rfl) ?_
        intro b' c' h'
        exact row .arg (fun x => TypeExpr.weight_lt_apply) ha.2 hf.2 h'
      | packed => simp at ha
      | _ => simp [TypeExpr.fill, unify_eq, unifyStep]
    | union members =>
      rw [TypeExpr.wellPlaced_union] at hf
      cases a with
      | union members' =>
        rw [TypeExpr.isGround_union] at ha
        rw [TypeExpr.fill, value?_unify_union, value?_unify_union]
        exact row .member (fun x => TypeExpr.weight_lt_union) ha hf h
      | _ => simp [TypeExpr.fill, unify_eq, unifyStep]
    | arrow params result =>
      rw [TypeExpr.wellPlaced_arrow] at hf
      cases a with
      | arrow params' result' =>
        rw [TypeExpr.isGround_arrow] at ha
        rw [TypeExpr.fill, value?_unify_arrow, value?_unify_arrow]
        refine InStep.bind (row .callableParam (fun x => TypeExpr.weight_lt_arrow) ha.1 hf.1 h) ?_
        intro b' c' h'
        exact ih _ TypeExpr.weight_result_lt ha.2 hf.2 h' rfl
      | _ => simp [TypeExpr.fill, unify_eq, unifyStep]

end types

/-! ### Lists behind anchors -/

section lists

variable {b₀ : Binding} {anchors : List Anchor}

/-- A list behind anchors is matched from what the anchors bind. -/
theorem value?_matchAnchored (hsolve : (matchAnchored ⟨[]⟩ [] anchors).result = .ok b₀)
    (list : ParameterList) (arguments : List TypeExpr) :
    (matchAnchored list arguments anchors).value? =
      (matchList unify .param list.slots arguments b₀).value? := by
  rw [matchAnchored, result_bind_eq_ok_iff] at hsolve
  obtain ⟨b, hb, hnil⟩ := hsolve
  cases hnil
  rw [matchAnchored, value?_bind, value?_eq_some hb]
  rfl

theorem slots_ofTypes_of_substAll {place : Nat → Segment} {list : ParameterList}
    {types : List TypeExpr} (hplaced : list.WellPlaced)
    (h : TypeExpr.substAll b₀ place 0 list.toTypes = .ok types) :
    (ParameterList.ofTypes types).slots = list.slots.flatMap (Slot.instantiate b₀) := by
  have hslots : list.toTypes.map Slot.ofType = list.slots := by
    rw [ParameterList.toTypes, List.map_map]
    refine (List.map_congr_left fun s hs => ?_).trans (List.map_id _)
    cases s with
    | single t => exact Slot.ofType_eq_single (hplaced _ hs).1
    | spread | mapped => rfl
  have htypes : types = TypeExpr.fillAll b₀ list.toTypes :=
    TypeExpr.fillAll_of_substAll (fun _ _ _ _ _ => TypeExpr.fill_of_subst) h
  rw [htypes, ParameterList.ofTypes, TypeExpr.map_ofType_fillAll, hslots]

end lists

/-- A well placed list behind ground anchors matches the ground arguments that it matches when the
values bound by the anchors are filled in beforehand.  Then the anchors bind one part of the
variables, and the list without anchors the other. -/
theorem matchAnchored_instantiated {list : ParameterList} {anchors : List Anchor} {b₀ : Binding}
    {place : Nat → Segment} {types arguments : List TypeExpr} (hplaced : list.WellPlaced)
    (hanchors : ∀ a ∈ anchors, a.actual.IsGround)
    (hsolve : (matchAnchored ⟨[]⟩ [] anchors).result = .ok b₀)
    (hsubst : TypeExpr.substAll b₀ place 0 list.toTypes = .ok types)
    (hground : ∀ t ∈ arguments, t.IsGround) :
    ((∃ b, (matchAnchored list arguments anchors).result = .ok b) ↔
      ∃ b₁, (matchParameters (.ofTypes types) arguments).result = .ok b₁) ∧
    ∀ b b₁, (matchAnchored list arguments anchors).result = .ok b →
      (matchParameters (.ofTypes types) arguments).result = .ok b₁ → b.IsDisjointUnion b₀ b₁ := by
  have hb₀ : b₀.IsGround := isGround_of_matchAnchored (by simp) hanchors hsolve
  have hmatch : InStep b₀ (matchAnchored list arguments anchors).value?
      (matchParameters (.ofTypes types) arguments).value? := by
    rw [value?_matchAnchored hsolve, matchParameters, value?_matchAnchored rfl,
      slots_ofTypes_of_substAll hplaced hsubst]
    exact inStep_matchList (fun x hx f a b c _ ha hf h => inStep_unify ha hf h) hground hplaced
      ⟨hb₀, .empty b₀⟩
  simp only [← value?_eq_some_iff]
  generalize (matchAnchored list arguments anchors).value? = x,
    (matchParameters (.ofTypes types) arguments).value? = y at hmatch ⊢
  cases hmatch with
  | some h => simpa using h.union
  | none => simp

/-- The list `(*Ts1, *Map[list, Ts0])` behind an anchor for `Ts0`, and the list
`(*Ts1, list[int], list[str])`. -/
theorem matchAnchored_instantiated_map :
    ((∃ b, (matchAnchored ⟨[.spread ⟨1⟩, .mapped (.named "list") ⟨0⟩]⟩
          [.named "bool", .apply (.named "list") [.named "int"],
            .apply (.named "list") [.named "str"]]
          [⟨.packed ⟨0⟩, .tuple [.named "int", .named "str"]⟩]).result = .ok b) ↔
        ∃ b₁, (matchParameters (.ofTypes [.spread ⟨1⟩, .apply (.named "list") [.named "int"],
            .apply (.named "list") [.named "str"]])
          [.named "bool", .apply (.named "list") [.named "int"],
            .apply (.named "list") [.named "str"]]).result = .ok b₁) ∧
      ((Binding.empty.bindTuple ⟨0⟩ [.named "int", .named "str"]).bindTuple ⟨1⟩
          [.named "bool"]).IsDisjointUnion
        (Binding.empty.bindTuple ⟨0⟩ [.named "int", .named "str"])
        (Binding.empty.bindTuple ⟨1⟩ [.named "bool"]) := by
  have h := @matchAnchored_instantiated ⟨[.spread ⟨1⟩, .mapped (.named "list") ⟨0⟩]⟩
    [⟨.packed ⟨0⟩, .tuple [.named "int", .named "str"]⟩]
    (Binding.empty.bindTuple ⟨0⟩ [.named "int", .named "str"]) .param
    [.spread ⟨1⟩, .apply (.named "list") [.named "int"], .apply (.named "list") [.named "str"]]
    [.named "bool", .apply (.named "list") [.named "int"], .apply (.named "list") [.named "str"]]
    (by decide) (by decide) rfl rfl (by decide)
  exact ⟨h.1, h.2 _ _ rfl rfl⟩

end Polyadic
