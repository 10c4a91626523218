import Polyadic.Proofs.Completeness
import Polyadic.Proofs.Lockstep
import Polyadic.Proofs.Soundness
import Polyadic.Proofs.Values

/-! # Anchors that leave one tuple variable open

A list is filled with sequences for its tuple variables, and all of these but one are anchored by
wrapped tuples.  Then the list is split as it was filled (`matchAnchored_all_but_one`): what the
sequences make of the list is matched, if the split is not ambiguous, and with one variable open it
never is (`error_notMem_replayFrom`). -/

namespace Polyadic

open Attempt

/-! ### Sequences for tuple variables -/

/-- What a slot takes where every tuple variable has a sequence. -/
def Slot.segment (s : TupleVar → List TypeExpr) : Slot → List TypeExpr
  | .single t => [t]
  | .spread ts => s ts
  | .mapped ctor ts => TypeExpr.mapOver ctor (s ts)

namespace Binding

/-- Assigns their sequences to some tuple variables, one after another. -/
def bindTuples (s : TupleVar → List TypeExpr) (tuples : List TupleVar) (b : Binding) : Binding :=
  tuples.foldl (fun b ts => b.bindTuple ts (s ts)) b

variable {s : TupleVar → List TypeExpr} {tuples : List TupleVar} {b : Binding}

@[simp] theorem scalar?_bindTuples (v : TypeVar) :
    (b.bindTuples s tuples).scalar? v = b.scalar? v := by
  induction tuples generalizing b with
  | nil => rfl
  | cons ts tuples ih => rw [bindTuples, List.foldl_cons, ← bindTuples, ih, scalar?_bindTuple]

theorem tuple?_bindTuples (ts : TupleVar) :
    (b.bindTuples s tuples).tuple? ts = if ts ∈ tuples then some (s ts) else b.tuple? ts := by
  induction tuples generalizing b with
  | nil => simp [bindTuples]
  | cons us tuples ih =>
    rw [bindTuples, List.foldl_cons, ← bindTuples, ih, tuple?_bindTuple]
    by_cases hmem : ts ∈ tuples
    · simp [hmem]
    · by_cases heq : us = ts
      · simp [heq]
      · simp [hmem, heq, Ne.symm heq]

theorem isGround_bindTuples (h : ∀ ts ∈ tuples, ∀ t ∈ s ts, t.IsGround) :
    (empty.bindTuples s tuples).IsGround := by
  refine ⟨fun v t hv => by simp at hv, ?_⟩
  intro ts contents hts
  rw [tuple?_bindTuples] at hts
  split at hts
  · rename_i hmem
    cases hts
    exact h ts hmem
  · simp at hts

theorem bindTuples_le {us : List TupleVar} (h : ∀ ts ∈ tuples, ts ∈ us) :
    empty.bindTuples s tuples ≤ empty.bindTuples s us := by
  refine ⟨fun v t hv => by simp at hv, ?_⟩
  intro ts contents hts
  rw [tuple?_bindTuples] at hts ⊢
  split at hts
  · rename_i hmem
    rwa [if_pos (h ts hmem)]
  · simp at hts

end Binding

/-! ### A slot that is left alone -/

section alone

variable {place : Nat → Segment} {slot : Slot} {b : Binding}

/-- An open slot that is left alone takes all that is left. -/
theorem rowValue_alone (h : slot.isOpen b = true) (side : Side) (run : Run) :
    rowValue place ⟨side, [slot], run, b⟩ = (matchSlot unify place slot run b).value? := by
  obtain ⟨ts, hslot, -⟩ := Slot.isOpen_iff.1 h
  have htuples : openTuples b [slot] = [ts] := by
    simp [openTuples, h, hslot, List.eraseDups_cons]
  have hcount : openCount b [slot] = 1 := by simp [openCount, h]
  have hrequired : requiredLength b [slot] = 0 := by
    simp [requiredLength, Slot.width_of_isOpen h]
  have hshare : (evenShare [slot] run b).value? = some run.length := by
    rw [value?_evenShare, htuples, hcount, hrequired]
    simp [Nat.mod_one]
  have hfirst : run.first run.length = run := by simp [Run.first, Run.length]
  have hafter : (run.after run.length).types = [] := by simp [Run.after, Run.length]
  rw [rowValue_of_open h (by simp [h]), hshare, Option.bind_some, hfirst]
  simp [hafter]

theorem value?_matchList_alone (h : slot.isOpen b = true) (arguments : List TypeExpr) :
    (matchList unify place [slot] arguments b).value? =
      (matchSlot unify place slot ⟨0, arguments⟩ b).value? := by
  have hadmits : (listArity b [slot]).Admits arguments.length := by
    simp [listArity, openCount, h, requiredLength, Slot.width_of_isOpen h, Arity.Admits]
  rw [value?_matchList, if_pos hadmits, Window.whole, rowValue_alone h]

/-- A spread slot of its own takes everything. -/
theorem value?_matchList_spread {ts : TupleVar} (h : b.tuple? ts = none)
    (types : List TypeExpr) :
    (matchList unify place [.spread ts] types b).value? = some (b.bindTuple ts types) := by
  rw [value?_matchList_alone (Slot.isOpen_iff.2 ⟨ts, rfl, h⟩), value?_matchSlot_spread,
    value?_assignTuple_fresh h]

end alone

/-! ### Wrapped anchors -/

section anchors

variable {s : TupleVar → List TypeExpr} {b : Binding}

/-- A wrapped anchor binds its tuple variable to the elements. -/
theorem value?_solveAnchor_packed {ts : TupleVar} (h : b.tuple? ts = none)
    (types : List TypeExpr) :
    (solveAnchor (.packed ts) (.tuple types) b).value? = some (b.bindTuple ts types) := by
  simp [solveAnchor, value?_unify_packed, value?_matchList_spread h]

/-- The anchors that wrap tuple variables, with their sequences. -/
def wrappedAnchors (s : TupleVar → List TypeExpr) (tuples : List TupleVar) : List Anchor :=
  tuples.map fun ts => ⟨.packed ts, .tuple (s ts)⟩

theorem value?_solveAnchors_wrapped {tuples : List TupleVar} {i : Nat} (hdistinct : tuples.Nodup)
    (hfresh : ∀ ts ∈ tuples, b.tuple? ts = none) :
    (solveAnchors i (wrappedAnchors s tuples) b).value? = some (b.bindTuples s tuples) := by
  induction tuples generalizing i b with
  | nil => rfl
  | cons ts tuples ih =>
    rw [List.nodup_cons] at hdistinct
    have hrest : ∀ us ∈ tuples, (b.bindTuple ts (s ts)).tuple? us = none := by
      intro us hus
      rw [Binding.tuple?_bindTuple, if_neg (by rintro rfl; exact hdistinct.1 hus)]
      exact hfresh us (by simp [hus])
    rw [wrappedAnchors, List.map_cons, ← wrappedAnchors, solveAnchors, value?_bind, value?_under,
      value?_solveAnchor_packed (hfresh ts (by simp)), Option.bind_some, ih hdistinct.2 hrest]
    rfl

end anchors

/-! ### One open variable is never ambiguous -/

section replays

variable {slots : List Slot} {K : Shape}

/-- A slot whose types mention no tuple variable is never stuck. -/
theorem error_notMem_replay {slot : Slot} (h : ∀ t ∈ slot.inner?, t.tupleMentions = [])
    (tuples : List TupleVar) : .error tuples ∉ slot.replay K := by
  cases slot with
  | single t => simp [Slot.replay, TypeExpr.replay_of_tupleMentions (h t rfl)]
  | spread ts =>
    rw [Slot.replay, Shape.settle]
    split <;> simp
  | mapped ctor ts =>
    have hctor := fun K => TypeExpr.replay_of_tupleMentions (K := K) (h ctor rfl)
    rw [Slot.replay, Shape.settleMapped]
    split
    · simp
    · simp [hctor]
    · rename_i hK
      simp [hctor, andThen_ok, hK]

theorem length_unsettledTuples_le_one {u : TupleVar} (h : ∀ ts ∈ unsettledTuples K slots, ts = u) :
    (unsettledTuples K slots).length ≤ 1 := by
  simp only [unsettledTuples, List.mem_eraseDups] at h ⊢
  cases hlist : (slots.filterMap Slot.tuple?).filter fun ts => (K ts).isNone with
  | nil => simp
  | cons ts rest =>
    rw [hlist] at h
    have hrest : rest.filter (fun us => !us == ts) = [] := by
      simp only [List.filter_eq_nil_iff]
      intro us hus
      simp [h us (by simp [hus]), h ts (by simp)]
    simp [List.eraseDups_cons, hrest]

/-- A row with one open tuple variable is never stuck. -/
theorem error_notMem_replayFrom {side : Side} {u : TupleVar}
    (hinner : ∀ s ∈ slots, ∀ t ∈ s.inner?, t.tupleMentions = [])
    (hopen : ∀ ts ∈ unsettledTuples K slots, ts = u) (tuples : List TupleVar) :
    .error tuples ∉ replayFrom side slots K := by
  induction hn : slots.length generalizing side slots K with
  | zero =>
    obtain rfl := List.eq_nil_of_length_eq_zero hn
    simp
  | succ n ih =>
    have hne : slots ≠ [] := List.ne_nil_of_length_eq_add_one hn
    obtain ⟨hseveral, -⟩ | ⟨slot, rest, side', hmem, hlength, hmove⟩ :=
      replayFrom_of_ne_nil side K hne
    · have hone := length_unsettledTuples_le_one hopen
      omega
    · rw [hmove, error_mem_andThen]
      rintro (herror | ⟨K', hK', herror⟩)
      · exact error_notMem_replay (hinner slot ((hmem slot).2 (.inl rfl))) tuples herror
      · have hle : K ≤ K' := Slot.le_of_mem_replay (fun t _ _ _ => TypeExpr.le_of_mem_replay) hK'
        refine ih (fun s hs => hinner s ((hmem s).2 (.inr hs))) ?_ (by omega) herror
        intro ts hts
        obtain ⟨hnone, s, hs, hts⟩ := mem_unsettledTuples.1 hts
        refine hopen ts (mem_unsettledTuples.2 ⟨?_, s, (hmem s).2 (.inr hs), hts⟩)
        cases hK : K ts with
        | none => rfl
        | some blank => simp [hle ts blank hK] at hnone

end replays

/-! ### The split -/

section split

variable {slots : List Slot} {slot : Slot} {s : TupleVar → List TypeExpr}

/-- The binding that assigns their sequences to the tuple variables of a list. -/
def Binding.sequences (s : TupleVar → List TypeExpr) (slots : List Slot) : Binding :=
  empty.bindTuples s (slots.filterMap Slot.tuple?)

theorem tuple?_sequences (hslot : slot ∈ slots) {ts : TupleVar} (hts : slot.tuple? = some ts) :
    (Binding.sequences s slots).tuple? ts = some (s ts) := by
  rw [Binding.sequences, Binding.tuple?_bindTuples,
    if_pos (List.mem_filterMap.2 ⟨slot, hslot, hts⟩)]

/-- What the sequences make of a slot is what their binding fills it to. -/
theorem segment_eq_fill (hslot : slot ∈ slots) (hinner : ∀ t ∈ slot.inner?, t.IsGround) :
    slot.segment s = slot.fill (Binding.sequences s slots) := by
  cases slot with
  | single t => simp [Slot.segment, Slot.fill, (hinner t rfl).fill]
  | spread ts =>
    have hts : (Binding.sequences s slots).tuple? ts = some (s ts) := tuple?_sequences hslot rfl
    simp [Slot.segment, Slot.fill, hts]
  | mapped ctor ts =>
    have hts : (Binding.sequences s slots).tuple? ts = some (s ts) := tuple?_sequences hslot rfl
    simp [Slot.segment, Slot.fill, hts, (hinner ctor rfl).fill]

theorem isGround_segment (hinner : ∀ t ∈ slot.inner?, t.IsGround)
    (hs : ∀ ts, slot.tuple? = some ts → ∀ t ∈ s ts, t.IsGround) :
    ∀ t ∈ slot.segment s, t.IsGround := by
  cases slot with
  | single t => simpa [Slot.segment] using hinner t rfl
  | spread ts => exact hs ts rfl
  | mapped ctor ts =>
    intro t ht
    obtain ⟨x, hx, rfl⟩ := List.mem_map.1 ht
    rw [TypeExpr.isGround_apply]
    exact ⟨hinner ctor rfl, by simpa using hs ts rfl x hx⟩

theorem isCovered_sequences (hslot : slot ∈ slots) (hinner : ∀ t ∈ slot.inner?, t.IsGround) :
    slot.IsCovered (Binding.sequences s slots) := by
  cases slot with
  | single t => exact ⟨(hinner t rfl).wellPlaced, (hinner t rfl).covered _⟩
  | spread ts =>
    have hts : (Binding.sequences s slots).tuple? ts = some (s ts) := tuple?_sequences hslot rfl
    exact ⟨trivial, by simp [Slot.toType, hts]⟩
  | mapped ctor ts =>
    have hts : (Binding.sequences s slots).tuple? ts = some (s ts) := tuple?_sequences hslot rfl
    exact ⟨(hinner ctor rfl).wellPlaced, by simp [Slot.toType, hts, (hinner ctor rfl).covered]⟩

/-- A list that fills ground arguments has its tuple variables bound. -/
theorem Solved.tuple?_ne_none {arguments : List TypeExpr} {b b' : Binding}
    (h : Solved slots arguments b b') (hground : ∀ t ∈ arguments, t.IsGround)
    (hslot : slot ∈ slots) {ts : TupleVar} (hts : slot.tuple? = some ts) : b'.tuple? ts ≠ none := by
  intro hnone
  have hfill : ∀ t ∈ slot.fill b', t.IsGround := by
    intro t ht
    rw [← h.fills b' b'.le_refl] at hground
    exact hground t (List.mem_flatMap.2 ⟨slot, hslot, ht⟩)
  cases slot with
  | single t => cases hts
  | spread us | mapped ctor us =>
    cases hts
    simp [Slot.fill, hnone] at hfill

/-- Below the sequences of a list, only their binding binds every tuple variable of the list. -/
theorem eq_sequences {b : Binding} (hle : b ≤ Binding.sequences s slots)
    (hbound : ∀ slot ∈ slots, ∀ ts, slot.tuple? = some ts → b.tuple? ts ≠ none) :
    b = Binding.sequences s slots := by
  refine Binding.ext_lookup ?_ ?_
  · intro v
    cases hv : b.scalar? v with
    | none => simp [Binding.sequences]
    | some t => rw [Binding.scalar?_of_le hle hv]
  · intro ts
    cases hts : b.tuple? ts with
    | some contents => rw [Binding.tuple?_of_le hle hts]
    | none =>
      rw [Binding.sequences, Binding.tuple?_bindTuples, if_neg, Binding.tuple?_empty]
      intro hmem
      obtain ⟨slot, hslot, hslotTs⟩ := List.mem_filterMap.1 hmem
      exact hbound slot hslot ts hslotTs hts

/-- With wrapped anchors for all tuple variables of a list but one, the list is never stuck. -/
theorem error_notMem_replayFrom_anchored (hinner : ∀ slot ∈ slots, ∀ t ∈ slot.inner?, t.IsGround)
    {u : TupleVar} {others : List TupleVar}
    (hothers : ∀ ts ∈ slots.filterMap Slot.tuple?, ts ≠ u → ts ∈ others) (tuples : List TupleVar) :
    .error tuples ∉ replayFrom .front slots (Binding.empty.bindTuples s others).shape := by
  refine error_notMem_replayFrom (u := u)
    (fun slot hslot t ht => (hinner slot hslot t ht).tupleMentions) ?_ tuples
  intro ts hts
  obtain ⟨hnone, slot, hslot, hslotTs⟩ := mem_unsettledTuples.1 hts
  refine Decidable.byContradiction fun hne => ?_
  have hmem : ts ∈ others := hothers ts (List.mem_filterMap.2 ⟨slot, hslot, hslotTs⟩) hne
  simp [Binding.shape, Binding.tuple?_bindTuples, hmem] at hnone

/-- Anchors that wrap all tuple variables of a list but one determine how the list is split: what
ground sequences make of the list is split into just these sequences. -/
theorem matchAnchored_all_but_one (hinner : ∀ slot ∈ slots, ∀ t ∈ slot.inner?, t.IsGround)
    (hs : ∀ ts ∈ slots.filterMap Slot.tuple?, ∀ t ∈ s ts, t.IsGround) {u : TupleVar}
    {others : List TupleVar} (hdistinct : others.Nodup)
    (hothers : ∀ ts, ts ∈ others ↔ ts ∈ slots.filterMap Slot.tuple? ∧ ts ≠ u) :
    (matchAnchored ⟨slots⟩ (slots.flatMap (Slot.segment s)) (wrappedAnchors s others)).result =
      .ok (Binding.sequences s slots) := by
  let b₀ := Binding.empty.bindTuples s others
  let arguments := slots.flatMap (Slot.segment s)
  have hanchors : (solveAnchors 0 (wrappedAnchors s others) .empty).result = .ok b₀ := by
    rw [← value?_eq_some_iff, value?_solveAnchors_wrapped hdistinct (by simp)]
  have hfinal : (Binding.sequences s slots).IsGround := Binding.isGround_bindTuples hs
  have hle : b₀ ≤ Binding.sequences s slots :=
    Binding.bindTuples_le fun ts hts => ((hothers ts).1 hts).1
  have hb₀ : b₀.IsGround :=
    Binding.isGround_bindTuples fun ts hts => hs ts ((hothers ts).1 hts).1
  have hfill : arguments = slots.flatMap (Slot.fill (Binding.sequences s slots)) := by
    simp only [arguments, List.flatMap_def]
    rw [List.map_congr_left fun slot hslot => segment_eq_fill hslot (hinner slot hslot)]
  have hground : ∀ t ∈ arguments, t.IsGround := by
    intro t ht
    obtain ⟨slot, hslot, ht⟩ := List.mem_flatMap.1 ht
    refine isGround_segment (hinner slot hslot) ?_ t ht
    exact fun ts hts => hs ts (List.mem_filterMap.2 ⟨slot, hslot, hts⟩)
  -- The match ends below the sequences or is ambiguous, it fills the list if it ends, and with one
  -- variable open it is not ambiguous.
  have hcomplete : (matchList unify .param slots arguments b₀).Meets
      (· ≤ Binding.sequences s slots) Failure.IsAmbiguous := by
    rw [hfill]
    exact complete_of_matchList hfinal
      (fun _ _ _ _ _ hplaced hcov hle => complete_of_unify hfinal hplaced hcov hle)
      (fun slot hslot => isCovered_sequences hslot (hinner slot hslot)) hle
  have hsolved : (matchList unify .param slots arguments b₀).Meets (Solved slots arguments b₀)
      fun _ => True := solved_of_matchList solvesOn_unify hground hb₀
  have hfollows : Follows (replayFrom .front slots b₀.shape)
      (matchList unify .param slots arguments b₀) :=
    follows_of_matchList (fun _ _ _ _ _ _ => follows_of_unify) (fun _ _ => .inl trivial)
      (fun _ => hground) fun _ => hb₀
  rw [matchAnchored, bind_of_ok hanchors]
  change (matchList unify .param slots arguments b₀).result = _
  cases hresult : (matchList unify .param slots arguments b₀).result with
  | error e =>
    obtain ⟨tuples, htuples⟩ := hcomplete.of_error hresult
    have hmem := hfollows.of_error hresult tuples htuples
    refine absurd hmem (error_notMem_replayFrom_anchored (u := u) hinner ?_ tuples)
    exact fun ts hts hne => (hothers ts).2 ⟨hts, hne⟩
  | ok b =>
    have hbound : ∀ slot ∈ slots, ∀ ts, slot.tuple? = some ts → b.tuple? ts ≠ none :=
      fun slot hslot ts hts => (hsolved.of_ok hresult).tuple?_ne_none hground hslot hts
    rw [eq_sequences (hcomplete.of_ok hresult) hbound]

/-- The list `(*Ts0, str, *Map[list, Ts1], *Ts1, *Ts0)` behind the anchor `Ts1`: the four arguments
left for `Ts0` are shared between its ends. -/
theorem matchAnchored_all_but_one_repeated :
    let slots : List Slot := [.spread ⟨0⟩, .single (.named "str"), .mapped (.named "list") ⟨1⟩,
      .spread ⟨1⟩, .spread ⟨0⟩]
    let s : TupleVar → List TypeExpr := fun ts =>
      if ts = ⟨0⟩ then [.named "int", .named "bool"] else [.named "str"]
    (matchAnchored ⟨slots⟩
      [.named "int", .named "bool", .named "str", .apply (.named "list") [.named "str"],
        .named "str", .named "int", .named "bool"]
      [⟨.packed ⟨1⟩, .tuple [.named "str"]⟩]).result = .ok (Binding.sequences s slots) := by
  intro slots s
  have hothers : ∀ ts, ts ∈ [⟨1⟩] ↔ ts ∈ slots.filterMap Slot.tuple? ∧ ts ≠ ⟨0⟩ := by
    intro ts
    by_cases hts : ts = ⟨0⟩ <;> simp [slots, Slot.tuple?, hts, eq_comm]
  have hinner : ∀ slot ∈ slots, ∀ t ∈ slot.inner?, t.IsGround := by decide
  have hs : ∀ ts ∈ slots.filterMap Slot.tuple?, ∀ t ∈ s ts, t.IsGround := by decide
  exact matchAnchored_all_but_one hinner hs (by decide) hothers

end split

end Polyadic
