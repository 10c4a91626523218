import Polyadic.Proofs.Completeness
import Polyadic.Proofs.Lockstep

/-! # Every outcome of a replay is that of a match

For each outcome of a replay there are ground arguments with which the match ends in it
(`canRealize`, `exists_arguments_of_mem_replay`).  They are built along the replay: a fresh scalar
variable is given a sample type, and a fresh tuple variable no type at all or one sample.  All
bindings on the way are plain in this sense, so that they are told by their shapes. -/

namespace Polyadic

open Attempt

/-! ### Plain bindings -/

namespace TypeExpr

/-- A type to call with where any type will do. -/
def sample : TypeExpr := .named "object"

/-- A sequence to call with where a shape allows for it. -/
def samples : Bool → List TypeExpr
  | true => []
  | false => [sample]

theorem isGround_sample : sample.IsGround := isGround_named

theorem isGround_samples {blank : Bool} : ∀ t ∈ samples blank, t.IsGround := by
  cases blank <;> simp [samples, isGround_sample]

end TypeExpr

open TypeExpr (sample samples)

namespace Binding

variable {b : Binding}

/-- Scalar variables are bound to the sample, and tuple variables to no type or one sample. -/
structure IsPlain (b : Binding) : Prop where
  scalars : ∀ v t, b.scalar? v = some t → t = sample
  tuples : ∀ ts blank, b.shape ts = some blank → b.tuple? ts = some (samples blank)

theorem isPlain_empty : empty.IsPlain :=
  ⟨fun v t h => by simp at h, fun ts blank h => by simp [shape] at h⟩

theorem IsPlain.bindScalar (h : b.IsPlain) (v : TypeVar) : (b.bindScalar v sample).IsPlain := by
  refine ⟨?_, h.tuples⟩
  intro w t hw
  rw [scalar?_bindScalar] at hw
  split at hw
  · cases hw
    rfl
  · exact h.scalars w t hw

theorem isEmpty_samples (blank : Bool) : (samples blank).isEmpty = blank := by cases blank <;> rfl

theorem IsPlain.bindTuple (h : b.IsPlain) (ts : TupleVar) (blank : Bool) :
    (b.bindTuple ts (samples blank)).IsPlain := by
  refine ⟨h.scalars, ?_⟩
  intro us blank' hus
  rw [shape_bindTuple, Shape.note, isEmpty_samples] at hus
  rw [tuple?_bindTuple]
  split at hus
  · cases hus
    rw [if_pos ‹_›]
  · rw [if_neg ‹_›]
    exact h.tuples us blank' hus

end Binding

/-! ### Realizing -/

/-- A match ends in an outcome, with a plain binding if it goes through. -/
def Realizes (o : Outcome) (x : Attempt Binding) : Prop :=
  x.Meets (fun b => b.IsPlain ∧ o = .ok b.shape)
    fun e => ∃ ts, e.cause = .ambiguousSplit ts ∧ o = .error ts

section realizing

variable {o : Outcome} {b : Binding} {x : Attempt Binding} {ts : TupleVar} {K : Shape}
  {tuples : List TupleVar}

theorem realizes_pure (hb : b.IsPlain) : Realizes (.ok b.shape) (pure b) := ⟨hb, rfl⟩

/-- A match that is stuck is so whatever would follow. -/
theorem Realizes.stuck (h : Realizes (.error tuples) x) (post : Binding → Prop) :
    x.Meets post fun e => ∃ ts, e.cause = .ambiguousSplit ts ∧
      (.error tuples : Outcome) = .error ts :=
  h.imp fun b hb => by cases hb.2

/-- A match that goes through is followed by a match from a plain binding of its shape. -/
theorem Realizes.next (h : Realizes (.ok K) x) {post : Binding → Prop} {exc : Failure → Prop}
    (hpost : ∀ b, x.result = .ok b → b.IsPlain → b.shape = K → post b) : x.Meets post exc := by
  refine meets_iff.2 ⟨?_, ?_⟩
  · intro b hb
    obtain ⟨hplain, hshape⟩ := h.of_ok hb
    exact hpost b hb hplain (Except.ok.inj hshape).symm
  · intro e he
    obtain ⟨ts, -, hts⟩ := h.of_error he
    cases hts

theorem Realizes.exists_ok (h : Realizes (.ok K) x) :
    ∃ b, x.result = .ok b ∧ b.IsPlain ∧ b.shape = K := by
  cases hx : x.result with
  | ok b =>
    obtain ⟨hplain, hshape⟩ := h.of_ok hx
    exact ⟨b, rfl, hplain, (Except.ok.inj hshape).symm⟩
  | error e =>
    obtain ⟨ts, -, hts⟩ := h.of_error hx
    cases hts

theorem Realizes.exists_error (h : Realizes (.error tuples) x) :
    ∃ e, x.result = .error e ∧ e.cause = .ambiguousSplit tuples := by
  cases hx : x.result with
  | ok b => cases (h.of_ok hx).2
  | error e =>
    obtain ⟨ts, hcause, hts⟩ := h.of_error hx
    cases hts
    exact ⟨e, rfl, hcause⟩

theorem realizes_assignTuple_of_none (hb : b.IsPlain) (h : b.shape ts = none) (blank : Bool) :
    Realizes (.ok (b.shape.note ts blank)) (assignTuple ts (samples blank) b) := by
  have hopen : b.tuple? ts = none := by simpa [Binding.shape] using h
  refine meets_assignTuple (fun _ => ⟨hb.bindTuple ts blank, ?_⟩) ?_ ?_
  · rw [shape_bindTuple, Binding.isEmpty_samples]
  · intro h
    simp [hopen] at h
  · intro previous h _
    simp [hopen] at h

theorem realizes_assignTuple_of_some (hb : b.IsPlain) {blank : Bool}
    (h : b.shape ts = some blank) : Realizes (.ok b.shape) (assignTuple ts (samples blank) b) := by
  have htuple := hb.tuples ts blank h
  refine meets_assignTuple ?_ (fun _ => ⟨hb, rfl⟩) ?_
  · intro h
    simp [htuple] at h
  · intro previous h hne
    rw [htuple, Option.some.injEq] at h
    exact absurd h.symm hne

/-- Every outcome of settling a tuple variable can be realized. -/
theorem exists_samples_of_mem_settle (ho : o ∈ K.settle ts) :
    ∃ blank K', o = .ok K' ∧ K' ts = some blank ∧ ∀ b : Binding, b.IsPlain → b.shape = K →
      Realizes o (assignTuple ts (samples blank) b) := by
  unfold Shape.settle at ho
  split at ho
  · rename_i blank hts
    obtain rfl : o = .ok K := by simpa using ho
    refine ⟨blank, K, rfl, hts, ?_⟩
    intro b hb hshape
    subst hshape
    exact realizes_assignTuple_of_some hb hts
  · rename_i hts
    obtain ⟨blank, rfl⟩ : ∃ blank, o = .ok (K.note ts blank) := by
      rcases List.mem_cons.1 ho with rfl | ho
      · exact ⟨true, rfl⟩
      · exact ⟨false, by simpa using ho⟩
    refine ⟨blank, K.note ts blank, rfl, Shape.note_self K ts blank, ?_⟩
    intro b hb hshape
    subst hshape
    exact realizes_assignTuple_of_none hb hts blank

end realizing

/-! ### Lengths told by a shape -/

/-- The lengths of the sequences of plain bindings; one where nothing is bound. -/
def Shape.lengths (K : Shape) (ts : TupleVar) : Nat :=
  match K ts with
  | some blank => (samples blank).length
  | none => 1

section lengths

variable {K K' : Shape} {slot : Slot}

theorem lengths_of_some {ts : TupleVar} {blank : Bool} (h : K ts = some blank) :
    K.lengths ts = (samples blank).length := by rw [Shape.lengths, h]

theorem lengths_of_none {ts : TupleVar} (h : K ts = none) : K.lengths ts = 1 := by
  rw [Shape.lengths, h]

theorem measures_lengths {b : Binding} (hb : b.IsPlain) (hle : b.shape ≤ K) :
    Measures K.lengths b := by
  intro ts contents hts
  have hshape := hle ts _ (shape_of_some hts)
  have hplain := hb.tuples ts _ (shape_of_some hts)
  rw [hts, Option.some.injEq] at hplain
  rw [lengths_of_some hshape, hplain, Binding.isEmpty_samples]

/-- The length of a settled slot does not change. -/
theorem lengthIn_lengths_of_le (h : slot.isSettled K = true) (hle : K ≤ K') :
    slot.lengthIn K'.lengths = slot.lengthIn K.lengths := by
  cases slot with
  | single t => rfl
  | spread ts | mapped ctor ts =>
    obtain ⟨blank, hblank⟩ := Option.isSome_iff_exists.1 h
    rw [Slot.lengthIn_of_tuple rfl, Slot.lengthIn_of_tuple rfl, lengths_of_some hblank,
      lengths_of_some (hle ts blank hblank)]

end lengths

/-! ### One slot -/

/-- A shape that a replay may reach on the way to an outcome from a shape on. -/
def Outcome.Reaches (K : Shape) (o : Outcome) (K' : Shape) : Prop :=
  K ≤ K' ∧ ∀ K₁, o = .ok K₁ → K' = K₁

theorem reaches_ok {K K' : Shape} (h : K ≤ K') : Outcome.Reaches K (.ok K') K' :=
  ⟨h, fun _ hK => Except.ok.inj hK⟩

theorem reaches_error {tuples : List TupleVar} (K : Shape) :
    Outcome.Reaches K (.error tuples) K :=
  ⟨K.le_refl, fun K₁ hK => by cases hK⟩

theorem exists_reaches {K : Shape} {o : Outcome} (h : ∀ K', o = .ok K' → K ≤ K') :
    ∃ K', o.Reaches K K' := by
  cases o with
  | ok K' => exact ⟨K', reaches_ok (h K' rfl)⟩
  | error tuples => exact ⟨K, reaches_error K⟩

/-- Every outcome of a type can be realized. -/
def CanRealize (t : TypeExpr) : Prop :=
  t.WellPlaced → ∀ K, ∀ o ∈ t.replay K,
    ∃ a, a.IsGround ∧ ∀ b : Binding, b.IsPlain → b.shape = K → Realizes o (unify t a b)

section slots

variable {b : Binding} {o : Outcome} {place : Nat → Segment} {post : Binding → Prop}
  {exc : Failure → Prop}

/-- The sample meets itself, as the argument of a constructor. -/
theorem meets_matchList_sample (hpost : post b) :
    (matchList unify place [.single sample] [sample] b).Meets post exc := by
  have hresult : (matchList unify place [.single sample] [sample] b).result = .ok b := rfl
  simpa [Meets, hresult] using hpost

/-- A slot that maps a constructor over one known sample is matched as the constructor is. -/
theorem meets_unifyEach_sample {ctor head : TypeExpr} {i : Nat}
    (h : (unify ctor head b).Meets post exc)
    (hexc : ∀ e segments, exc e → exc ⟨e.cause, segments⟩) :
    (unifyEach unify place i (TypeExpr.mapOver ctor [sample]) [.apply head [sample]] b).Meets
      post exc := by
  rw [TypeExpr.mapOver, List.map_singleton, unifyEach, meets_bind, meets_under, meets_unify_apply]
  refine h.mono (fun b' hb' => meets_matchList_sample ?_) fun e he => hexc e _ he
  rw [unifyEach]
  · exact hb'
  · simp

/-- A slot that maps a constructor over an unknown sample is matched as the constructor is. -/
theorem meets_stripEach_sample {ctor head : TypeExpr} {ts : TupleVar} {i : Nat}
    (h : (unify ctor head b).Meets post exc)
    (hexc : ∀ e segments, exc e → exc ⟨e.cause, segments⟩) :
    (stripEach unify place ctor ts i [.apply head [sample]] b).Meets post exc := by
  rw [stripEach, meets_bind, meets_under]
  exact meets_under.2 (h.mono (fun b' hb' => hb') fun e he => hexc e _ he)

/-- A run with which the match of a slot ends in an outcome.  Its length is told by a shape that may
be reached on the way. -/
def HasRun (K : Shape) (slot : Slot) (o : Outcome) : Prop :=
  ∃ types K', (∀ a ∈ types, a.IsGround) ∧ o.Reaches K K' ∧
    types.length = slot.lengthIn K'.lengths ∧ ∀ b : Binding, b.IsPlain → b.shape = K →
      ∀ place start, Realizes o (matchSlot unify place slot ⟨start, types⟩ b)

variable {K K₁ K' : Shape} {ctor formal head : TypeExpr} {ts : TupleVar} {slot : Slot}

theorem exists_reaches_of_mem_replay (ho : o ∈ formal.replay K) : ∃ K', o.Reaches K K' := by
  refine exists_reaches ?_
  intro K' hK'
  subst hK'
  exact TypeExpr.le_of_mem_replay ho

theorem hasRun_single (ih : CanRealize formal) (hplaced : formal.WellPlaced)
    (ho : o ∈ formal.replay K) : HasRun K (.single formal) o := by
  obtain ⟨a, ha, hrealize⟩ := ih hplaced K o ho
  obtain ⟨K', hK'⟩ := exists_reaches_of_mem_replay ho
  refine ⟨[a], K', by simpa using ha, hK', rfl, ?_⟩
  intro b hb hshape place start
  rw [matchSlot, unifyEach, Realizes, meets_bind, meets_under]
  refine (hrealize b hb hshape).imp ?_
  intro b' hb'
  rw [unifyEach]
  · exact hb'
  · simp

theorem hasRun_spread (ho : o ∈ K.settle ts) : HasRun K (.spread ts) o := by
  obtain ⟨blank, K', rfl, hts, hrealize⟩ := exists_samples_of_mem_settle ho
  refine ⟨samples blank, K', TypeExpr.isGround_samples, reaches_ok (le_of_mem_settle ho), ?_, ?_⟩
  · rw [Slot.lengthIn_of_tuple rfl, lengths_of_some hts]
  · intro b hb hshape place start
    rw [matchSlot, Realizes, meets_under]
    exact hrealize b hb hshape

/-- A mapped slot takes an empty run if its tuple variable is, or becomes, empty. -/
theorem hasRun_mapped_nil (hle : K ≤ K') (hts : K' ts = some true)
    (hmatch : ∀ b : Binding, b.IsPlain → b.shape = K → ∀ place start,
      Realizes (.ok K') (matchSlot unify place (.mapped ctor ts) ⟨start, []⟩ b)) :
    HasRun K (.mapped ctor ts) (.ok K') := by
  refine ⟨[], K', by simp, reaches_ok hle, ?_, hmatch⟩
  rw [Slot.lengthIn_of_tuple rfl, lengths_of_some hts]
  rfl

/-- Else it takes one type, which is made of a type for the constructor. -/
theorem hasRun_mapped_apply (hhead : head.IsGround) (hK' : o.Reaches K K')
    (hlength : K'.lengths ts = 1)
    (hmatch : ∀ b : Binding, b.IsPlain → b.shape = K → ∀ place start, Realizes o
      (matchSlot unify place (.mapped ctor ts) ⟨start, [.apply head [sample]]⟩ b)) :
    HasRun K (.mapped ctor ts) o :=
  ⟨[.apply head [sample]], K', by simpa using ⟨hhead, TypeExpr.isGround_sample⟩, hK',
    hlength.symm, hmatch⟩

theorem hasRun_mapped_empty (hts : K ts = some true) : HasRun K (.mapped ctor ts) (.ok K) := by
  refine hasRun_mapped_nil K.le_refl hts ?_
  intro b hb hshape place start
  subst hshape
  rw [matchSlot, hb.tuples ts true hts]
  exact meets_bind.2 (meets_log.2 (realizes_pure hb))

theorem hasRun_mapped_known (ih : CanRealize ctor) (hplaced : ctor.WellPlaced)
    (hts : K ts = some false) (ho : o ∈ ctor.replay K) : HasRun K (.mapped ctor ts) o := by
  obtain ⟨head, hhead, hrealize⟩ := ih hplaced K o ho
  obtain ⟨K', hK'⟩ := exists_reaches_of_mem_replay ho
  refine hasRun_mapped_apply hhead hK' (lengths_of_some (hK'.1 ts false hts)) ?_
  intro b hb hshape place start
  have hmatch := hrealize b hb hshape
  subst hshape
  rw [matchSlot, hb.tuples ts false hts]
  refine meets_bind.2 (meets_log.2 ?_)
  exact meets_unifyEach_sample hmatch fun _ _ he => he

theorem tuple?_of_shape_none (hts : K ts = none) (hshape : b.shape = K) : b.tuple? ts = none := by
  simpa [← hshape, Binding.shape] using hts

theorem hasRun_mapped_note (hts : K ts = none) :
    HasRun K (.mapped ctor ts) (.ok (K.note ts true)) := by
  refine hasRun_mapped_nil (Shape.le_note hts true) (Shape.note_self K ts true) ?_
  intro b hb hshape place start
  rw [matchSlot, tuple?_of_shape_none hts hshape]
  subst hshape
  refine meets_bind.2 (meets_log.2 (meets_bind.2 (meets_pure.2 ?_)))
  exact realizes_assignTuple_of_none hb hts true

theorem hasRun_mapped_stuck {tuples : List TupleVar} (ih : CanRealize ctor)
    (hplaced : ctor.WellPlaced) (hts : K ts = none) (ho : .error tuples ∈ ctor.replay K) :
    HasRun K (.mapped ctor ts) (.error tuples) := by
  obtain ⟨head, hhead, hrealize⟩ := ih hplaced K _ ho
  refine hasRun_mapped_apply hhead (reaches_error K) (lengths_of_none hts) ?_
  intro b hb hshape place start
  have hmatch := hrealize b hb hshape
  rw [matchSlot, tuple?_of_shape_none hts hshape]
  refine meets_bind.2 (meets_log.2 (meets_bind.2 ?_))
  exact meets_stripEach_sample (hmatch.stuck _) fun _ _ he => he

/-- The constructor of an open slot is matched before the tuple variable is bound, which may have
been bound by then. -/
theorem hasRun_mapped_open (ih : CanRealize ctor) (hplaced : ctor.WellPlaced) (hts : K ts = none)
    (hK₁ : .ok K₁ ∈ ctor.replay K) (hle : K₁ ≤ K') (hts' : K' ts = some false)
    (hassign : ∀ b : Binding, b.IsPlain → b.shape = K₁ →
      Realizes (.ok K') (assignTuple ts (samples false) b)) :
    HasRun K (.mapped ctor ts) (.ok K') := by
  obtain ⟨head, hhead, hrealize⟩ := ih hplaced K _ hK₁
  have hle : K ≤ K' := Shape.le_trans (TypeExpr.le_of_mem_replay hK₁) hle
  refine hasRun_mapped_apply hhead (reaches_ok hle) (lengths_of_some hts') ?_
  intro b hb hshape place start
  have hmatch := hrealize b hb hshape
  rw [matchSlot, tuple?_of_shape_none hts hshape]
  refine meets_bind.2 (meets_log.2 (meets_bind.2 ?_))
  refine meets_stripEach_sample (hmatch.next ?_) fun _ _ he => he
  intro b' _ hb' hshape'
  exact hassign b' hb' hshape'

/-- Every outcome of a slot can be realized. -/
theorem hasRun_of_mem_replay (ih : ∀ t ∈ slot.inner?, CanRealize t) (hplaced : slot.WellPlaced)
    (ho : o ∈ slot.replay K) : HasRun K slot o := by
  cases slot with
  | single formal => exact hasRun_single (ih formal rfl) hplaced ho
  | spread ts => exact hasRun_spread ho
  | mapped ctor ts =>
    have ihCtor : CanRealize ctor := ih ctor rfl
    rw [Slot.replay, Shape.settleMapped] at ho
    split at ho
    · obtain rfl : o = .ok K := by simpa using ho
      exact hasRun_mapped_empty ‹_›
    · exact hasRun_mapped_known ihCtor hplaced ‹_› ho
    · rename_i hts
      rcases List.mem_cons.1 ho with rfl | ho
      · exact hasRun_mapped_note hts
      rcases mem_andThen.1 ho with ⟨tuples, rfl, hstuck⟩ | ⟨K₁, hK₁, ho⟩
      · exact hasRun_mapped_stuck ihCtor hplaced hts hstuck
      split at ho
      · simp at ho
      · rename_i hts'
        obtain rfl : o = .ok K₁ := by simpa using ho
        refine hasRun_mapped_open ihCtor hplaced hts hK₁ K₁.le_refl hts' ?_
        intro b hb hshape
        subst hshape
        exact realizes_assignTuple_of_some hb hts'
      · rename_i hts'
        obtain rfl : o = .ok (K₁.note ts false) := by simpa using ho
        refine hasRun_mapped_open ihCtor hplaced hts hK₁ (Shape.le_note hts' false)
          (Shape.note_self K₁ ts false) ?_
        intro b hb hshape
        subst hshape
        exact realizes_assignTuple_of_none hb hts' false

end slots

/-! ### One move -/

section moves

variable {K : Shape} {side side' : Side} {slots rest : List Slot} {slot : Slot}

/-- With the right arguments a match takes a slot and leaves the others, whatever lengths they
have. -/
def Takes (side : Side) (slots : List Slot) (K : Shape) (slot : Slot) (side' : Side)
    (rest : List Slot) : Prop :=
  ∀ L types others, types.length = slot.lengthIn L → others.length = rowLength L rest →
    ∃ arguments, (∀ a ∈ arguments, a ∈ types ∨ a ∈ others) ∧
      arguments.length = rowLength L slots ∧
      ∀ b : Binding, b.shape = K → Measures L b → ∀ place start, ∃ start₁ start₂, ∀ post exc,
        (matchSlot unify place slot ⟨start₁, types⟩ b).Meets
          (fun b' => post ⟨side', rest, ⟨start₂, others⟩, b'⟩) exc →
        (takeSlot unify place ⟨side, slots, ⟨start, arguments⟩, b⟩).Meets post exc

theorem takes_front (h : nextMove (Slot.isSettled K) side slots = .front slot rest) :
    Takes side slots K slot .front rest := by
  intro L types others htypes hothers
  obtain ⟨hslots, hknown⟩ := nextMove_eq_front h
  refine ⟨types ++ others, fun a => List.mem_append.1, by simp [hslots, htypes, hothers],
    fun b hshape hL place start => ⟨start, start + types.length, ?_⟩⟩
  intro post exc hmatch
  subst hshape
  rw [Slot.isSettled_shape] at h hknown
  have hwidth : slot.width b = types.length := by
    rw [htypes, Slot.lengthIn_of_known hL (by simpa using hknown)]
  rw [takeSlot, h]
  dsimp only
  rw [if_neg (by simp [Run.length, hwidth]), meets_bind, hwidth]
  simpa [Run.first, Run.after] using hmatch

theorem takes_back (h : nextMove (Slot.isSettled K) side slots = .back rest slot) :
    Takes side slots K slot .back rest := by
  intro L types others htypes hothers
  obtain ⟨hslots, hknown⟩ := nextMove_eq_back h
  refine ⟨others ++ types, fun a ha => (List.mem_append.1 ha).symm,
    by simp [hslots, htypes, hothers],
    fun b hshape hL place start => ⟨start + others.length, start, ?_⟩⟩
  intro post exc hmatch
  subst hshape
  rw [Slot.isSettled_shape] at h hknown
  have hwidth : slot.width b = types.length := by
    rw [htypes, Slot.lengthIn_of_known hL (by simpa using hknown)]
  rw [takeSlot, h]
  dsimp only
  rw [if_neg (by simp [Run.length, hwidth]), meets_bind, hwidth]
  simpa [Run.first, Run.after, Run.length] using hmatch

theorem takes_stuck (h : nextMove (Slot.isSettled K) side slots = .stuck slot rest)
    (hone : (unsettledTuples K slots).length ≤ 1) : Takes side slots K slot .front rest := by
  intro L types others htypes hothers
  obtain ⟨hslots, hopen, -⟩ := nextMove_eq_stuck h
  have hlength : (types ++ others).length = rowLength L slots := by simp [hslots, htypes, hothers]
  refine ⟨types ++ others, fun a => List.mem_append.1, hlength,
    fun b hshape hL place start => ⟨start, start + types.length, ?_⟩⟩
  intro post exc hmatch
  subst hshape
  rw [Slot.isSettled_shape] at h hopen
  rw [unsettledTuples_shape] at hone
  have hopen : slot.isOpen b = true := by simpa using hopen
  have hslot : slot ∈ slots := by simp [hslots]
  have hcount : 0 < openCount b slots := List.countP_pos_iff.2 ⟨slot, hslot, hopen⟩
  have hshare := share_eq_lengthIn hL hone hslot hopen
  have hrequired := requiredLength_le_rowLength hL slots
  rw [takeSlot, h]
  dsimp only
  rw [meets_bind]
  refine meets_evenShare ?ambiguous ?short ?uneven ?share
  case ambiguous =>
    intro hseveral
    omega
  case short =>
    intro _ hshort
    rw [Run.length, hlength] at hshort
    omega
  case uneven =>
    intro _ hmod
    rw [Run.length, hlength, hshare, Nat.mul_mod_right] at hmod
    exact absurd rfl hmod
  case share =>
    intro _ _ _
    rw [Run.length, hlength, hshare, Nat.mul_div_cancel_left _ hcount, ← htypes, meets_bind]
    simpa [Run.first, Run.after] using hmatch

/-- A match takes the slot that its replay takes, unless both are stuck at once. -/
theorem takes_of_ne_nil (side : Side) (K : Shape) (hne : slots ≠ []) :
    (∃ tuples, replayFrom side slots K = [.error tuples] ∧
      ∀ b : Binding, b.shape = K → ∀ place run,
        (takeSlot unify place ⟨side, slots, run, b⟩).Meets (fun _ => False)
          (·.cause = .ambiguousSplit tuples)) ∨
    ∃ slot rest side', (∀ s, s ∈ slots ↔ s = slot ∨ s ∈ rest) ∧
      slots.length = rest.length + 1 ∧
      replayFrom side slots K = andThen (slot.replay K) (replayFrom side' rest) ∧
      Takes side slots K slot side' rest := by
  cases h : nextMove (Slot.isSettled K) side slots with
  | done => exact absurd (nextMove_eq_done h) hne
  | front slot rest =>
    obtain ⟨hslots, -⟩ := nextMove_eq_front h
    exact .inr ⟨slot, rest, .front, by simp [hslots], by simp [hslots], replayFrom_front h,
      takes_front h⟩
  | back rest slot =>
    obtain ⟨hslots, -⟩ := nextMove_eq_back h
    exact .inr ⟨slot, rest, .back, by simp [hslots, or_comm], by simp [hslots], replayFrom_back h,
      takes_back h⟩
  | stuck slot rest =>
    obtain ⟨hslots, -, -⟩ := nextMove_eq_stuck h
    have hreplay := replayFrom_stuck h
    split at hreplay
    · rename_i hseveral
      refine .inl ⟨unsettledTuples K slots, hreplay, ?_⟩
      intro b hshape place run
      subst hshape
      rw [unsettledTuples_shape] at hseveral ⊢
      rw [Slot.isSettled_shape] at h
      rw [takeSlot, h]
      dsimp only
      rw [meets_bind]
      exact meets_evenShare (fun _ => rfl) (fun _ _ => by omega) (fun _ _ => by omega)
        fun _ _ _ => by omega
    · exact .inr ⟨slot, rest, .front, by simp [hslots], by simp [hslots], hreplay,
        takes_stuck h (by omega)⟩

end moves

/-! ### Rows of slots -/

section rows

variable {K : Shape} {o : Outcome} {side : Side} {slots : List Slot}

/-- A row is worked off to the end with an outcome. -/
def RealizesRow (o : Outcome) (x : Attempt Window) : Prop :=
  x.Meets (fun w => w.run.types = [] ∧ w.binding.IsPlain ∧ o = .ok w.binding.shape)
    fun e => ∃ ts, e.cause = .ambiguousSplit ts ∧ o = .error ts

/-- Samples of any number. -/
theorem exists_samples (n : Nat) : ∃ types : List TypeExpr, (∀ a ∈ types, a.IsGround) ∧
    types.length = n :=
  ⟨List.replicate n sample,
    fun a ha => by rw [List.eq_of_mem_replicate ha]; exact TypeExpr.isGround_sample,
    List.length_replicate⟩

theorem exists_arguments_of_mem_replayFrom (ih : ∀ s ∈ slots, ∀ t ∈ s.inner?, CanRealize t)
    (hplaced : ∀ s ∈ slots, s.WellPlaced) (ho : o ∈ replayFrom side slots K) :
    ∃ arguments K', (∀ a ∈ arguments, a.IsGround) ∧ o.Reaches K K' ∧
      arguments.length = rowLength K'.lengths slots ∧
      ∀ b : Binding, b.IsPlain → b.shape = K → ∀ place start, RealizesRow o
        (takeSlots unify place slots.length ⟨side, slots, ⟨start, arguments⟩, b⟩) := by
  induction hn : slots.length generalizing side slots K with
  | zero =>
    obtain rfl := List.eq_nil_of_length_eq_zero hn
    obtain rfl : o = .ok K := by simpa using ho
    refine ⟨[], K, by simp, reaches_ok K.le_refl, rfl, ?_⟩
    intro b hb hshape place start
    subst hshape
    exact ⟨rfl, hb, rfl⟩
  | succ n rec =>
    have hne : slots ≠ [] := List.ne_nil_of_length_eq_add_one hn
    obtain ⟨tuples, hreplay, hstuck⟩ | ⟨slot, rest, side', hmem, hlength, hreplay, htakes⟩ :=
      takes_of_ne_nil side K hne
    · obtain rfl : o = .error tuples := by simpa [hreplay] using ho
      obtain ⟨arguments, hground, harguments⟩ := exists_samples (rowLength K.lengths slots)
      refine ⟨arguments, K, hground, reaches_error K, harguments, ?_⟩
      intro b hb hshape place start
      exact meets_bind.2 ((hstuck b hshape place _).mono (fun _ => False.elim)
        fun e he => ⟨tuples, he, rfl⟩)
    · rw [hreplay] at ho
      have hslot : slot ∈ slots := (hmem slot).2 (.inl rfl)
      have hrest : ∀ s ∈ rest, s ∈ slots := fun s hs => (hmem s).2 (.inr hs)
      rcases mem_andThen.1 ho with ⟨tuples, rfl, hstuck⟩ | ⟨K₁, hK₁, ho⟩
      · -- The slot itself is stuck, so that the others may have any arguments.
        obtain ⟨types, K', hground, hK', htypes, hmatch⟩ :=
          hasRun_of_mem_replay (ih slot hslot) (hplaced slot hslot) hstuck
        obtain ⟨others, hgroundOthers, hothers⟩ := exists_samples (rowLength K'.lengths rest)
        obtain ⟨arguments, hsub, harguments, htake⟩ := htakes K'.lengths types others htypes hothers
        refine ⟨arguments, K', fun a ha => (hsub a ha).elim (hground a) (hgroundOthers a), hK',
          harguments, ?_⟩
        intro b hb hshape place start
        have hmeasures : Measures K'.lengths b := measures_lengths hb (hshape ▸ hK'.1)
        obtain ⟨start₁, start₂, hmove⟩ := htake b hshape hmeasures place start
        have hslotStuck := hmatch b hb hshape place start₁
        exact meets_bind.2 (hmove _ _ (hslotStuck.stuck _))
      · obtain ⟨types, K₁', hground, hK₁', htypes, hmatch⟩ :=
          hasRun_of_mem_replay (ih slot hslot) (hplaced slot hslot) hK₁
        obtain rfl : K₁' = K₁ := hK₁'.2 K₁ rfl
        obtain ⟨others, K', hgroundOthers, hK', hothers, hrow⟩ :=
          rec (fun s hs => ih s (hrest s hs)) (fun s hs => hplaced s (hrest s hs)) ho (by omega)
        -- The slot is settled from now on, so that the moves to come do not change its length.
        have hsettled : slot.isSettled K₁' = true := (Slot.replay_of_mem_replay
          (fun t _ _ _ h hle => t.replay_of_mem_replay h hle) hK₁ (Shape.le_refl K₁')).1
        rw [← lengthIn_lengths_of_le hsettled hK'.1] at htypes
        obtain ⟨arguments, hsub, harguments, htake⟩ := htakes K'.lengths types others htypes hothers
        have hle : K ≤ K' := Shape.le_trans hK₁'.1 hK'.1
        refine ⟨arguments, K', fun a ha => (hsub a ha).elim (hground a) (hgroundOthers a),
          ⟨hle, hK'.2⟩, harguments, ?_⟩
        intro b hb hshape place start
        have hmeasures : Measures K'.lengths b := measures_lengths hb (hshape ▸ hle)
        obtain ⟨start₁, start₂, hmove⟩ := htake b hshape hmeasures place start
        have hslotMatch := hmatch b hb hshape place start₁
        refine meets_bind.2 (hmove _ _ (hslotMatch.next ?_))
        intro b' _ hb' hshape'
        exact hrow b' hb' hshape' place start₂

/-- Every outcome of a row is that of a match of the whole row. -/
theorem exists_list_of_mem_replayFrom (ih : ∀ s ∈ slots, ∀ t ∈ s.inner?, CanRealize t)
    (hplaced : ∀ s ∈ slots, s.WellPlaced) (ho : o ∈ replayFrom .front slots K) :
    ∃ arguments, (∀ a ∈ arguments, a.IsGround) ∧
      ∀ b : Binding, b.IsPlain → b.shape = K → ∀ place,
        Realizes o (matchList unify place slots arguments b) := by
  obtain ⟨arguments, K', hground, hK', hlength, hrow⟩ :=
    exists_arguments_of_mem_replayFrom ih hplaced ho
  refine ⟨arguments, hground, ?_⟩
  intro b hb hshape place
  have hadmits : (listArity b slots).Admits arguments.length := by
    rw [hlength]
    exact admits_rowLength (measures_lengths hb (hshape ▸ hK'.1)) slots
  rw [matchList, if_pos hadmits]
  refine meets_bind.2 ((hrow b hb hshape place 0).imp ?_)
  intro w hw
  rw [if_pos (by simp [hw.1])]
  exact hw.2

end rows

/-! ### Types and parameter lists -/

/-- Every outcome of a well placed type is that of a match with a ground type. -/
theorem canRealize (t : TypeExpr) : CanRealize t := by
  induction t using TypeExpr.inductSlots with
  | named name =>
    intro _ K o ho
    obtain rfl : o = .ok K := by simpa [TypeExpr.replay] using ho
    refine ⟨.named name, TypeExpr.isGround_named, ?_⟩
    intro b hb hshape
    subst hshape
    exact meets_unify_named.2 ⟨hb, rfl⟩
  | var v =>
    intro _ K o ho
    obtain rfl : o = .ok K := by simpa [TypeExpr.replay] using ho
    refine ⟨sample, TypeExpr.isGround_sample, ?_⟩
    intro b hb hshape
    subst hshape
    refine meets_unify_var.2 (meets_assignScalar (fun _ => ⟨hb.bindScalar v, rfl⟩)
      (fun _ => ⟨hb, rfl⟩) ?_)
    intro previous h hne
    exact absurd (hb.scalars v previous h) hne
  | packed ts =>
    intro _ K o ho
    rw [TypeExpr.replay, show K.settle ts = (Slot.spread ts).replay K from rfl,
      ← replayFrom_singleton .front] at ho
    obtain ⟨elements, hground, hmatch⟩ :=
      exists_list_of_mem_replayFrom (by simp [Slot.inner?]) (by simp [Slot.WellPlaced]) ho
    refine ⟨.tuple elements, by simpa [TypeExpr.tuple] using hground, ?_⟩
    intro b hb hshape
    exact (meets_unify_packed (TypeExpr.tupleElements?_tuple elements)).2
      (hmatch b hb hshape .element)
  | spread ts => exact fun h => absurd h (by simp)
  | spreadMap ctor ts ih => exact fun h => absurd h (by simp)
  | apply head args hhead hargs =>
    intro hplaced K o ho
    rw [TypeExpr.wellPlaced_apply] at hplaced
    rw [TypeExpr.replay_apply] at ho
    rcases mem_andThen.1 ho with ⟨tuples, rfl, hstuck⟩ | ⟨K₁, hK₁, ho⟩
    · obtain ⟨a, ha, hmatch⟩ := hhead hplaced.1 K _ hstuck
      refine ⟨.apply a [], by simpa using ha, ?_⟩
      intro b hb hshape
      exact meets_unify_apply.2 ((hmatch b hb hshape).stuck _)
    · obtain ⟨a, ha, hmatch⟩ := hhead hplaced.1 K _ hK₁
      obtain ⟨arguments, hground, hrow⟩ := exists_list_of_mem_replayFrom hargs hplaced.2 ho
      refine ⟨.apply a arguments, by simpa using ⟨ha, hground⟩, ?_⟩
      intro b hb hshape
      exact meets_unify_apply.2 ((hmatch b hb hshape).next
        fun b' _ hb' hshape' => hrow b' hb' hshape' .arg)
  | union members hmembers =>
    intro hplaced K o ho
    rw [TypeExpr.wellPlaced_union] at hplaced
    rw [TypeExpr.replay_union] at ho
    obtain ⟨arguments, hground, hrow⟩ := exists_list_of_mem_replayFrom hmembers hplaced ho
    exact ⟨.union arguments, by simpa using hground,
      fun b hb hshape => meets_unify_union.2 (hrow b hb hshape .member)⟩
  | arrow params result hparams hresult =>
    intro hplaced K o ho
    rw [TypeExpr.wellPlaced_arrow] at hplaced
    rw [TypeExpr.replay_arrow] at ho
    rcases mem_andThen.1 ho with ⟨tuples, rfl, hstuck⟩ | ⟨K₁, hK₁, ho⟩
    · obtain ⟨arguments, hground, hrow⟩ := exists_list_of_mem_replayFrom hparams hplaced.1 hstuck
      refine ⟨.arrow arguments sample, by simpa using ⟨hground, TypeExpr.isGround_sample⟩, ?_⟩
      intro b hb hshape
      exact meets_unify_arrow.2 ((hrow b hb hshape .callableParam).stuck _)
    · obtain ⟨arguments, hground, hrow⟩ := exists_list_of_mem_replayFrom hparams hplaced.1 hK₁
      obtain ⟨a, ha, hmatch⟩ := hresult hplaced.2 K₁ _ ho
      refine ⟨.arrow arguments a, by simpa using ⟨hground, ha⟩, ?_⟩
      intro b hb hshape
      exact meets_unify_arrow.2 ((hrow b hb hshape .callableParam).next
        fun b' _ hb' hshape' => hmatch b' hb' hshape')

/-- Every outcome of a well placed list is that of a match with ground arguments. -/
theorem exists_arguments_of_mem_replay {list : ParameterList} {o : Outcome}
    (hplaced : list.WellPlaced) (ho : o ∈ list.replay) :
    ∃ arguments, (∀ a ∈ arguments, a.IsGround) ∧ Realizes o (matchParameters list arguments) := by
  obtain ⟨arguments, hground, hrow⟩ :=
    exists_list_of_mem_replayFrom (fun s _ t _ => canRealize t) hplaced ho
  refine ⟨arguments, hground, ?_⟩
  rw [matchParameters, matchAnchored, solveAnchors, Realizes, meets_bind, meets_pure]
  exact hrow .empty Binding.isPlain_empty shape_empty .param

end Polyadic
