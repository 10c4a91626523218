import Polyadic.Matching.Call
import Polyadic.Proofs.Extension
import Polyadic.Proofs.Filling
import Polyadic.Proofs.Lengths
import Polyadic.Proofs.Rules

/-! # A solution is found unless the split is ambiguous

Let `s` be a ground binding that covers the formal types.  Matched against what `s` fills them to,
they leave a binding below `s`, or the match stops at an ambiguous split (`complete_of_unify`,
`complete_of_matchList`).  All a match does on the way is forced by `s`: a slot that is known takes
the run that `s` fills it to, whichever end it is taken from, and what is left for the one open
tuple variable is a multiple of its length in `s` (`length_fill_row`). -/

namespace Polyadic

open Attempt

/-- The failure is a split that is not determined. -/
def Failure.IsAmbiguous (e : Failure) : Prop := ∃ ts, e.cause = .ambiguousSplit ts

@[simp] theorem Failure.isAmbiguous_under {e : Failure} {segment : Segment} :
    (e.under segment).IsAmbiguous ↔ e.IsAmbiguous := Iff.rfl

variable {s b : Binding}

/-! ### Lengths -/

/-- A slot can be matched against what `s` fills it to. -/
def Slot.IsCovered (s : Binding) (slot : Slot) : Prop := slot.WellPlaced ∧ s.Covers slot.toType

theorem Slot.length_fill (s : Binding) (slot : Slot) :
    (slot.fill s).length = slot.lengthIn s.lengthOf := by
  cases slot with
  | single t => rfl
  | spread ts | mapped ctor ts =>
    cases hts : s.tuple? ts <;> simp [fill, lengthIn, tuple?, Binding.lengthOf, hts]

theorem length_fill_row (s : Binding) (slots : List Slot) :
    (slots.flatMap (Slot.fill s)).length = rowLength s.lengthOf slots := by
  induction slots with
  | nil => rfl
  | cons slot rest ih =>
    rw [List.flatMap_cons, List.length_append, rowLength_cons, slot.length_fill s, ih]

/-! ### One slot -/

section slots

/-- Matching with `u` is complete, on a list of types and on everything at most as heavy. -/
def CompletesOn (s : Binding) (u : Unifier) (arguments : List TypeExpr) : Prop :=
  ∀ x ∈ arguments, ∀ f b, (f.fill s).weight ≤ x.weight → f.WellPlaced → s.Covers f → b ≤ s →
    (u f (f.fill s) b).Meets (· ≤ s) Failure.IsAmbiguous

variable {u : Unifier} {place : Nat → Segment} {i : Nat}

theorem CompletesOn.mono {as bs : List TypeExpr} (h : CompletesOn s u bs)
    (hs : ∀ a ∈ as, a ∈ bs) : CompletesOn s u as := fun x hx => h x (hs x hx)

theorem complete_of_unifyEach {formals : List TypeExpr}
    (hu : CompletesOn s u (formals.map (TypeExpr.fill s)))
    (hplaced : ∀ f ∈ formals, f.WellPlaced) (hcov : ∀ f ∈ formals, s.Covers f) (hle : b ≤ s) :
    (unifyEach u place i formals (formals.map (TypeExpr.fill s)) b).Meets (· ≤ s)
      Failure.IsAmbiguous := by
  refine meets_unifyEach (I := fun fs as b => as = fs.map (TypeExpr.fill s) ∧ b ≤ s ∧
    ∀ f ∈ fs, f ∈ formals) ?_ (fun fs as b h _ => h.2.1) ⟨rfl, hle, fun f hf => hf⟩
  intro j f fs a as b h
  obtain ⟨heq, hle, hmem⟩ := h
  rw [List.map_cons, List.cons.injEq] at heq
  obtain ⟨rfl, rfl⟩ := heq
  have hf : f ∈ formals := hmem f (by simp)
  exact (hu _ (List.mem_map_of_mem hf) f b (Nat.le_refl _) (hplaced f hf) (hcov f hf) hle).mono
    (fun b' hle' => ⟨rfl, hle', fun g hg => hmem g (by simp [hg])⟩) fun _ he => by simpa using he

theorem complete_of_stripEach {ctor : TypeExpr} {ts : TupleVar} {contents : List TypeExpr}
    (hu : CompletesOn s u (TypeExpr.mapOver (ctor.fill s) contents)) (hplaced : ctor.WellPlaced)
    (hcov : s.Covers ctor) (hle : b ≤ s) :
    (stripEach u place ctor ts i (TypeExpr.mapOver (ctor.fill s) contents) b).Meets (· ≤ s)
      Failure.IsAmbiguous := by
  refine meets_stripEach (I := fun as b => b ≤ s ∧ ∀ a ∈ as,
    a ∈ TypeExpr.mapOver (ctor.fill s) contents) ?_ ?_ (fun b h => h.1) ⟨hle, fun a ha => ha⟩
  · intro j a as b head operand h ha
    obtain ⟨hle, hmem⟩ := h
    have hmapped := hmem a (by simp)
    obtain ⟨t, -, ht⟩ := List.mem_map.1 hmapped
    have hhead : head = ctor.fill s := by
      rw [ha] at ht
      cases ht
      rfl
    have hweight : (ctor.fill s).weight ≤ a.weight := by
      rw [← hhead]
      exact Nat.le_of_lt (TypeExpr.weight_lt_of_unary (TypeExpr.unary?_eq_some_iff.2 ha))
    rw [hhead]
    exact (hu a hmapped ctor b hweight hplaced hcov hle).mono
      (fun b' hle' => ⟨hle', fun x hx => hmem x (by simp [hx])⟩) fun _ he => by simpa using he
  · intro j a as b h ha
    obtain ⟨t, -, ht⟩ := List.mem_map.1 (h.2 a (by simp))
    simp [← ht, TypeExpr.unary?] at ha

theorem complete_of_assignTuple {ts : TupleVar} {contents : List TypeExpr} (hle : b ≤ s)
    (hts : s.tuple? ts = some contents) :
    (assignTuple ts contents b).Meets (· ≤ s) Failure.IsAmbiguous := by
  refine meets_assignTuple (fun _ => Binding.bindTuple_le hle hts) (fun _ => hle) ?_
  intro previous hb hne
  rw [Binding.tuple?_of_le hle hb, Option.some.injEq] at hts
  exact absurd hts hne

/-- A constructor is matched against what it is filled to, on each of some ground operands. -/
theorem complete_of_mapped_known {ctor : TypeExpr} {contents : List TypeExpr}
    (hu : CompletesOn s u (TypeExpr.mapOver (ctor.fill s) contents)) (hplaced : ctor.WellPlaced)
    (hcov : s.Covers ctor) (hground : ∀ t ∈ contents, t.IsGround) (hle : b ≤ s) :
    (unifyEach u place i (TypeExpr.mapOver ctor contents)
      (TypeExpr.mapOver (ctor.fill s) contents) b).Meets (· ≤ s) Failure.IsAmbiguous := by
  rw [← TypeExpr.map_fill_mapOver hground] at hu ⊢
  refine complete_of_unifyEach hu (TypeExpr.wellPlaced_mapOver hplaced hground) ?_ hle
  intro f hf
  obtain ⟨t, ht, rfl⟩ := List.mem_map.1 hf
  have hoperand : s.Covers t := (hground t ht).covered s
  simpa using And.intro hcov hoperand

/-- A slot is matched against the run that it is filled to. -/
theorem complete_of_matchSlot (hs : s.IsGround) {slot : Slot} {run : Run}
    (hrun : run.types = slot.fill s) (hu : CompletesOn s u run.types) (hcov : slot.IsCovered s)
    (hle : b ≤ s) : (matchSlot u place slot run b).Meets (· ≤ s) Failure.IsAmbiguous := by
  rw [hrun] at hu
  obtain ⟨hplaced, hcovers⟩ := hcov
  cases slot with
  | single formal =>
    rw [matchSlot, hrun]
    have hplaced : ∀ f ∈ [formal], f.WellPlaced := List.forall_mem_singleton.2 hplaced
    have hcovers : ∀ f ∈ [formal], s.Covers f := List.forall_mem_singleton.2 hcovers
    exact complete_of_unifyEach hu hplaced hcovers hle
  | spread ts =>
    obtain ⟨contents, hts⟩ := Binding.covers_spread.1 hcovers
    have hfill : run.types = contents := by simpa [Slot.fill, hts] using hrun
    rw [matchSlot, meets_under, hfill]
    exact complete_of_assignTuple hle hts
  | mapped ctor ts =>
    obtain ⟨⟨contents, hts⟩, hctor⟩ := Binding.covers_spreadMap.1 hcovers
    have hfill : run.types = TypeExpr.mapOver (ctor.fill s) contents := by
      simpa [Slot.fill, hts] using hrun
    rw [← hrun, hfill] at hu
    rw [matchSlot]
    split
    · -- A bound sequence is that of `s`, so the expanded slot is filled to the same run.
      rename_i contents' hbound
      have heq : contents' = contents := by
        rw [Binding.tuple?_of_le hle hbound, Option.some.injEq] at hts
        exact hts
      rw [meets_bind, meets_log, hfill, heq]
      exact complete_of_mapped_known hu hplaced hctor (hs.tuples ts contents hts) hle
    · have hoperands : run.types.filterMap (fun t => t.unary?.map Prod.snd) = contents := by
        rw [hfill, TypeExpr.mapOver, List.filterMap_map]
        exact List.filterMap_some
      rw [meets_bind, meets_log, meets_bind, hoperands, hfill]
      exact (complete_of_stripEach hu hplaced hctor hle).imp
        fun b' hle' => complete_of_assignTuple hle' hts

end slots

/-! ### Rows of slots -/

section rows

variable {u : Unifier} {place : Nat → Segment} {slots : List Slot}

/-- The binding of a window is below `s`, and its run is what its slots are filled to. -/
structure Fits (s : Binding) (slots : List Slot) (w : Window) : Prop where
  le : w.binding ≤ s
  run : w.run.types = w.slots.flatMap (Slot.fill s)
  subset : ∀ slot ∈ w.slots, slot ∈ slots

namespace Fits

variable {w : Window}

theorem length_run (h : Fits s slots w) : w.run.length = rowLength s.lengthOf w.slots := by
  rw [Run.length, h.run, length_fill_row]

/-- The first slot of a window takes its run and leaves that of the others. -/
theorem takeFront (h : Fits s slots w) {slot : Slot} {rest : List Slot}
    (hslots : w.slots = slot :: rest) {n : Nat} (hn : (slot.fill s).length = n) :
    (w.run.first n).types = slot.fill s ∧
      ∀ b', b' ≤ s → Fits s slots ⟨.front, rest, w.run.after n, b'⟩ := by
  have hrun := h.run
  rw [hslots, List.flatMap_cons] at hrun
  refine ⟨?_, fun b' hle => ⟨hle, ?_, fun x hx => h.subset x (by simp [hslots, hx])⟩⟩
  · rw [Run.first, hrun, ← hn, List.take_left]
  · rw [Run.after, hrun, ← hn, List.drop_left]

/-- The last slot of a window takes its run and leaves that of the others. -/
theorem takeBack (h : Fits s slots w) {slot : Slot} {rest : List Slot}
    (hslots : w.slots = rest ++ [slot]) {n : Nat} (hn : (slot.fill s).length = n) :
    (w.run.after (w.run.length - n)).types = slot.fill s ∧
      ∀ b', b' ≤ s → Fits s slots ⟨.back, rest, w.run.first (w.run.length - n), b'⟩ := by
  have hrun := h.run
  rw [hslots, List.flatMap_append, List.flatMap_singleton] at hrun
  have hlength : w.run.length - n = (rest.flatMap (Slot.fill s)).length := by
    rw [Run.length, hrun, List.length_append, hn]
    omega
  rw [hlength]
  refine ⟨?_, fun b' hle => ⟨hle, ?_, fun x hx => h.subset x (by simp [hslots, hx])⟩⟩
  · rw [Run.after, hrun, List.drop_left]
  · rw [Run.first, hrun, List.take_left]

end Fits

/-- Each move takes the run that its slot is filled to. -/
theorem complete_of_takeSlot (hs : s.IsGround)
    (hu : CompletesOn s u (slots.flatMap (Slot.fill s))) (hcov : ∀ x ∈ slots, x.IsCovered s)
    {w : Window} (hw : Fits s slots w) :
    (takeSlot u place w).Meets (Fits s slots) Failure.IsAmbiguous := by
  have solve {slot : Slot} {run : Run} (hslot : slot ∈ w.slots)
      (hrun : run.types = slot.fill s) :
      (matchSlot u place slot run w.binding).Meets (· ≤ s) Failure.IsAmbiguous := by
    refine complete_of_matchSlot hs hrun (hu.mono ?_) (hcov slot (hw.subset slot hslot)) hw.le
    intro t ht
    rw [hrun] at ht
    exact List.mem_flatMap.2 ⟨slot, hw.subset slot hslot, ht⟩
  have hL := (measures_lengthOf s).of_le hw.le
  have known {slot : Slot} (h : (!slot.isOpen w.binding) = true) :
      (slot.fill s).length = slot.width w.binding := by
    rw [Slot.length_fill, Slot.lengthIn_of_known hL (by simpa using h)]
  refine meets_takeSlot (fun _ => hw) ?short ?front ?back ?stuck
  case short =>
    intro slot hslot hknown hshort
    obtain ⟨before, after, heq⟩ := List.mem_iff_append.1 hslot
    have hwidth := Slot.lengthIn_of_known hL hknown
    rw [hw.length_run, heq, rowLength_append, rowLength_cons] at hshort
    omega
  case front =>
    intro slot rest hm hlong
    obtain ⟨hslots, hknown⟩ := nextMove_eq_front hm
    obtain ⟨hrun, hrest⟩ := hw.takeFront hslots (known hknown)
    exact (solve (by simp [hslots]) hrun).imp hrest
  case back =>
    intro rest slot hm hlong
    obtain ⟨hslots, hknown⟩ := nextMove_eq_back hm
    obtain ⟨hrun, hrest⟩ := hw.takeBack hslots (known hknown)
    exact (solve (by simp [hslots]) hrun).imp hrest
  case stuck =>
    intro slot rest hm
    obtain ⟨hslots, hopen, -⟩ := nextMove_eq_stuck hm
    have hopen : slot.isOpen w.binding = true := by simpa using hopen
    have hslot : slot ∈ w.slots := by simp [hslots]
    have hcount : 0 < openCount w.binding w.slots := List.countP_pos_iff.2 ⟨slot, hslot, hopen⟩
    have share (hone : (openTuples w.binding w.slots).length ≤ 1) :
        w.run.length - requiredLength w.binding w.slots =
          openCount w.binding w.slots * (slot.fill s).length := by
      rw [hw.length_run, Slot.length_fill]
      exact share_eq_lengthIn hL hone hslot hopen
    refine meets_evenShare (fun _ => ⟨_, rfl⟩) ?short ?uneven ?share
    case short =>
      intro _ hshort
      have hrequired := requiredLength_le_rowLength hL w.slots
      rw [hw.length_run] at hshort
      omega
    case uneven =>
      intro hone hmod
      rw [share hone, Nat.mul_mod_right] at hmod
      exact absurd rfl hmod
    case share =>
      intro hone _ _
      rw [share hone, Nat.mul_div_cancel_left _ hcount]
      obtain ⟨hrun, hrest⟩ := hw.takeFront hslots rfl
      exact (solve hslot hrun).imp hrest

theorem complete_of_matchList (hs : s.IsGround)
    (hu : CompletesOn s u (slots.flatMap (Slot.fill s))) (hcov : ∀ x ∈ slots, x.IsCovered s)
    (hle : b ≤ s) :
    (matchList u place slots (slots.flatMap (Slot.fill s)) b).Meets (· ≤ s)
      Failure.IsAmbiguous := by
  refine meets_matchList ?_ (fun _ => ⟨hle, rfl, fun x hx => hx⟩)
    (fun w hw => complete_of_takeSlot hs hu hcov hw) (fun w hw _ _ => hw.le) ?_
  · intro hunfit
    rw [length_fill_row] at hunfit
    exact absurd (admits_rowLength ((measures_lengthOf s).of_le hle) slots) hunfit
  · intro w hw hslots hrun
    have hnil : w.run.types = [] := by
      rw [hw.run, hslots]
      rfl
    exact absurd hnil hrun

end rows

/-! ### Two types -/

section types

theorem isCovered_ofType {ts : List TypeExpr} (hplaced : ∀ x ∈ ts.map Slot.ofType, x.WellPlaced)
    (hcov : ∀ t ∈ ts, s.Covers t) : ∀ x ∈ ts.map Slot.ofType, x.IsCovered s := by
  intro x hx
  obtain ⟨t, ht, rfl⟩ := List.mem_map.1 hx
  exact ⟨hplaced _ hx, by simpa using hcov t ht⟩

/-- A well placed type is matched against what it is filled to. -/
theorem complete_of_unify (hs : s.IsGround) {f : TypeExpr} (hplaced : f.WellPlaced)
    (hcov : s.Covers f) (hle : b ≤ s) :
    (unify f (f.fill s) b).Meets (· ≤ s) Failure.IsAmbiguous := by
  induction hn : (f.fill s).weight using Nat.strongRecOn generalizing f b with
  | ind n ih =>
    subst hn
    have row {place : Nat → Segment} (ts : List TypeExpr) {b : Binding}
        (hl : ∀ x ∈ TypeExpr.fillAll s ts, x.weight < (f.fill s).weight)
        (hplaced : ∀ x ∈ ts.map Slot.ofType, x.WellPlaced) (hcov : ∀ t ∈ ts, s.Covers t)
        (hle : b ≤ s) :
        (matchList unify place (ts.map Slot.ofType) (TypeExpr.fillAll s ts) b).Meets (· ≤ s)
          Failure.IsAmbiguous := by
      rw [TypeExpr.fillAll_eq_flatMap] at hl ⊢
      have hlighter : CompletesOn s unify ((ts.map Slot.ofType).flatMap (Slot.fill s)) := by
        intro x hx g c hweight hplaced hcov hle
        have hlt := Nat.lt_of_le_of_lt hweight (hl x hx)
        exact ih _ hlt hplaced hcov hle rfl
      exact complete_of_matchList hs hlighter (isCovered_ofType hplaced hcov) hle
    cases f with
    | named name => simpa [TypeExpr.fill] using hle
    | var v =>
      obtain ⟨t, ht⟩ := Binding.covers_var.1 hcov
      simp only [TypeExpr.fill, ht, Option.getD_some, meets_unify_var]
      refine meets_assignScalar (fun _ => Binding.bindScalar_le hle ht) (fun _ => hle) ?_
      intro previous hb hne
      rw [Binding.scalar?_of_le hle hb, Option.some.injEq] at ht
      exact absurd ht hne
    | packed ts =>
      obtain ⟨xs, hxs⟩ := Binding.covers_packed.1 hcov
      have hfill : (TypeExpr.packed ts).fill s = .tuple xs := by simp [TypeExpr.fill, hxs]
      have hspread : TypeExpr.fillAll s [.spread ts] = xs := by simp [TypeExpr.fillAll, hxs]
      rw [hfill, meets_unify_packed (TypeExpr.tupleElements?_tuple xs), ← hspread]
      refine row [.spread ts] ?_ (by simp [Slot.ofType, Slot.WellPlaced]) (by simpa using hcov) hle
      intro x hx
      rw [hspread] at hx
      rw [hfill]
      exact TypeExpr.weight_lt_of_mem_tupleElements (TypeExpr.tupleElements?_tuple xs) hx
    | spread ts => simp at hplaced
    | spreadMap ctor ts => simp at hplaced
    | apply head args =>
      rw [TypeExpr.wellPlaced_apply] at hplaced
      rw [Binding.covers_apply] at hcov
      rw [TypeExpr.fill] at ih row ⊢
      rw [meets_unify_apply]
      refine (ih _ TypeExpr.weight_head_lt hplaced.1 hcov.1 hle rfl).mono ?_
        fun _ he => by simpa using he
      intro b' hle'
      exact row args (fun x => TypeExpr.weight_lt_apply) hplaced.2 hcov.2 hle'
    | union members =>
      rw [TypeExpr.wellPlaced_union] at hplaced
      rw [Binding.covers_union] at hcov
      rw [TypeExpr.fill] at row ⊢
      rw [meets_unify_union]
      exact row members (fun x => TypeExpr.weight_lt_union) hplaced hcov hle
    | arrow params result =>
      rw [TypeExpr.wellPlaced_arrow] at hplaced
      rw [Binding.covers_arrow] at hcov
      rw [TypeExpr.fill] at ih row ⊢
      rw [meets_unify_arrow]
      refine (row params (fun x => TypeExpr.weight_lt_arrow) hplaced.1 hcov.1 hle).imp ?_
      intro b' hle'
      exact (ih _ TypeExpr.weight_result_lt hplaced.2 hcov.2 hle' rfl).mono (fun _ h => h)
        fun _ he => by simpa using he

end types

/-! ### Anchors and lists -/

/-- An ambiguous split inside an anchor stays one. -/
theorem isAmbiguous_anchorCause {bound : List TupleVar} {e : Failure} (h : e.IsAmbiguous) :
    Failure.IsAmbiguous ⟨anchorCause bound e.cause, e.path⟩ := by
  obtain ⟨ts, hts⟩ := h
  exact ⟨ts, by rw [hts]; rfl⟩

theorem complete_of_solveAnchors (hs : s.IsGround) {i : Nat} {anchors : List Anchor}
    (h : ∀ a ∈ anchors, a.formal.WellPlaced ∧ s.Covers a.formal ∧ a.actual = a.formal.fill s)
    (hle : b ≤ s) : (solveAnchors i anchors b).Meets (· ≤ s) Failure.IsAmbiguous := by
  induction anchors generalizing i b with
  | nil => exact hle
  | cons anchor rest ih =>
    obtain ⟨hplaced, hcov, hactual⟩ := h anchor (by simp)
    rw [solveAnchors, meets_bind, meets_under, solveAnchor, meets_bind, meets_log, meets_recast,
      hactual]
    refine (complete_of_unify hs hplaced hcov hle).mono ?_ ?_
    · intro b' hle'
      exact ih (fun a ha => h a (by simp [ha])) hle'
    · intro e he
      rw [Failure.isAmbiguous_under]
      exact isAmbiguous_anchorCause he

/-- Types that are what a ground binding makes of a list and of its anchors are matched, with no
more than that binding, unless the match stops at an ambiguous split. -/
theorem matchAnchored_complete {types arguments : List TypeExpr} {anchors : List Anchor}
    (hs : s.IsGround) (hplaced : (ParameterList.ofTypes types).WellPlaced)
    (hanchors : ∀ a ∈ anchors, a.formal.WellPlaced) (hcov : ∀ t ∈ types, s.Covers t)
    (hcovAnchors : ∀ a ∈ anchors, s.Covers a.formal)
    (hsubst : (TypeExpr.tuple types).subst s = .ok (.tuple arguments))
    (hsubstAnchors : ∀ a ∈ anchors, a.formal.subst s = .ok a.actual) :
    (∃ b, (matchAnchored (.ofTypes types) arguments anchors).result = .ok b ∧ b ≤ s) ∨
      ∃ e ts, (matchAnchored (.ofTypes types) arguments anchors).result = .error e ∧
        e.cause = .ambiguousSplit ts := by
  have harguments : arguments = (types.map Slot.ofType).flatMap (Slot.fill s) := by
    have hfill := TypeExpr.fill_of_subst hsubst
    rw [TypeExpr.tuple, TypeExpr.tuple, TypeExpr.fill, TypeExpr.apply.injEq,
      TypeExpr.fillAll_eq_flatMap] at hfill
    exact hfill.2
  have hmatch : (matchAnchored (.ofTypes types) arguments anchors).Meets (· ≤ s)
      Failure.IsAmbiguous := by
    have hall : ∀ a ∈ anchors,
        a.formal.WellPlaced ∧ s.Covers a.formal ∧ a.actual = a.formal.fill s := by
      intro a ha
      exact ⟨hanchors a ha, hcovAnchors a ha, TypeExpr.fill_of_subst (hsubstAnchors a ha)⟩
    rw [matchAnchored, meets_bind, harguments]
    refine (complete_of_solveAnchors hs hall (Binding.empty_le s)).imp ?_
    intro b hle
    exact complete_of_matchList hs
      (fun x hx f b _ hplaced hcov hle => complete_of_unify hs hplaced hcov hle)
      (isCovered_ofType hplaced hcov) hle
  cases hresult : (matchAnchored (.ofTypes types) arguments anchors).result with
  | ok b => exact .inl ⟨b, rfl, hmatch.of_ok hresult⟩
  | error e =>
    obtain ⟨ts, hts⟩ := hmatch.of_error hresult
    exact .inr ⟨e, ts, rfl, hts⟩

/-- The list `(T0, *Map[list, Ts0], *Ts1)` behind the anchor `Ts0`, with what a binding makes of
them. -/
theorem matchAnchored_complete_map :
    let s := ((Binding.empty.bindScalar ⟨0⟩ (.named "str")).bindTuple ⟨0⟩ [.named "int"]).bindTuple
      ⟨1⟩ [.named "bool"]
    let matched := (matchAnchored (.ofTypes [.var ⟨0⟩, .spreadMap (.named "list") ⟨0⟩, .spread ⟨1⟩])
      [.named "str", .apply (.named "list") [.named "int"], .named "bool"]
      [⟨.packed ⟨0⟩, .tuple [.named "int"]⟩]).result
    (∃ b, matched = .ok b ∧ b ≤ s) ∨ ∃ e ts, matched = .error e ∧ e.cause = .ambiguousSplit ts :=
  matchAnchored_complete
    (((Binding.isGround_empty.bindScalar (by simp) _).bindTuple (by simp) _).bindTuple (by simp) _)
    (by decide) (by decide) (by decide) (by decide) rfl (by simp [TypeExpr.subst]; rfl)

end Polyadic
