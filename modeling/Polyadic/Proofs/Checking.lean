import Polyadic.Splitting
import Polyadic.Proofs.Filling
import Polyadic.Proofs.Replay

/-! # The check and the replay

The check of a declaration carries the tuple variables that are known, the replay of a match the
shape of its binding.  They differ where a tuple variable is shared by two parts of a type that the
check looks at separately, and where a constructor that is mapped binds something.  On types that
are confined in this respect every outcome of the replay is the verdict of the check
(`agrees_of_mem_replay`, `check_eq_error_iff`). -/

namespace Polyadic

/-! ### One move of the check -/

/-- Checks what is left of a row, with the end of the last move and the index of its first slot. -/
def checkFrom (place : Nat → Segment) (side : Side) (start : Nat) (slots : List Slot)
    (known : Known) : Except Failure Unit :=
  checkPieces place slots.length side start (slots.map fun s => ⟨s, s.checkSplits⟩) known

section moves

variable {place : Nat → Segment} {side : Side} {start : Nat} {slots rest : List Slot} {slot : Slot}
  {known : Known}

theorem checkFrom_nil : checkFrom place side start [] known = .ok () := rfl

theorem checkFrom_front (h : nextMove (Slot.isKnown known) side slots = .front slot rest) :
    checkFrom place side start slots known = (do
      within (place start) (slot.checkSplits known)
      checkFrom place .front (start + 1) rest (known ++ slot.gain)) := by
  have hslots := (nextMove_eq_front h).1
  rw [checkFrom, show slots.length = rest.length + 1 by simp [hslots], checkPieces, nextMove_map, h]
  rfl

theorem checkFrom_back (h : nextMove (Slot.isKnown known) side slots = .back rest slot) :
    checkFrom place side start slots known = (do
      within (place (start + rest.length)) (slot.checkSplits known)
      checkFrom place .back start rest (known ++ slot.gain)) := by
  have hslots := (nextMove_eq_back h).1
  rw [checkFrom, show slots.length = rest.length + 1 by simp [hslots], checkPieces, nextMove_map, h]
  simp only [Move.map, List.length_map]
  rfl

theorem checkFrom_stuck (h : nextMove (Slot.isKnown known) side slots = .stuck slot rest) :
    checkFrom place side start slots known =
      if 1 < (unknownTuples known slots).length then
        .error ⟨.ambiguousSplit (unknownTuples known slots), []⟩
      else (do
        let known := known ++ unknownTuples known slots
        within (place start) (slot.checkSplits known)
        checkFrom place .front (start + 1) rest (known ++ slot.gain)) := by
  have hslots := (nextMove_eq_stuck h).1
  rw [checkFrom, show slots.length = rest.length + 1 by simp [hslots], checkPieces, nextMove_map, h]
  simp only [Move.map, List.map_map, Function.comp_def, List.map_id']
  rfl

/-- Induction along the moves of the check. -/
@[elab_as_elim]
theorem checkFrom_induct {motive : Side → Nat → List Slot → Known → Prop}
    (nil : ∀ side start known, motive side start [] known)
    (front : ∀ side start slots known slot rest,
      nextMove (Slot.isKnown known) side slots = .front slot rest →
      motive .front (start + 1) rest (known ++ slot.gain) → motive side start slots known)
    (back : ∀ side start slots known slot rest,
      nextMove (Slot.isKnown known) side slots = .back rest slot →
      motive .back start rest (known ++ slot.gain) → motive side start slots known)
    (stuck : ∀ side start slots known slot rest,
      nextMove (Slot.isKnown known) side slots = .stuck slot rest →
      motive .front (start + 1) rest (known ++ unknownTuples known slots ++ slot.gain) →
      motive side start slots known)
    (side : Side) (start : Nat) (slots : List Slot) (known : Known) :
    motive side start slots known := by
  induction hn : slots.length generalizing side start slots known with
  | zero =>
    obtain rfl := List.eq_nil_of_length_eq_zero hn
    exact nil side start known
  | succ n ih =>
    cases hm : nextMove (Slot.isKnown known) side slots with
    | done =>
      rw [nextMove_eq_done hm] at hn
      cases hn
    | front slot rest =>
      rw [(nextMove_eq_front hm).1, List.length_cons, Nat.add_right_cancel_iff] at hn
      exact front _ _ _ _ slot rest hm (ih _ _ _ _ hn)
    | back rest slot =>
      rw [(nextMove_eq_back hm).1, List.length_append, List.length_singleton,
        Nat.add_right_cancel_iff] at hn
      exact back _ _ _ _ slot rest hm (ih _ _ _ _ hn)
    | stuck slot rest =>
      rw [(nextMove_eq_stuck hm).1, List.length_cons, Nat.add_right_cancel_iff] at hn
      exact stuck _ _ _ _ slot rest hm (ih _ _ _ _ hn)

end moves

/-! ### Confined types -/

namespace TypeExpr

/-- If a node is made of two parts, then they share no tuple variable; if it is a spliced map, then
its constructor mentions none. -/
def confines : TypeExpr → Prop
  | .spreadMap ctor _ => ctor.tupleMentions = []
  | .apply head args => ∀ ts ∈ head.tupleMentions, ts ∉ args.flatMap tupleMentions
  | .arrow params result => ∀ ts ∈ params.flatMap tupleMentions, ts ∉ result.tupleMentions
  | _ => True

instance : DecidablePred confines
  | .spreadMap ctor _ => inferInstanceAs (Decidable (ctor.tupleMentions = []))
  | .apply head args =>
    inferInstanceAs (Decidable (∀ ts ∈ head.tupleMentions, ts ∉ args.flatMap tupleMentions))
  | .arrow params result =>
    inferInstanceAs (Decidable (∀ ts ∈ params.flatMap tupleMentions, ts ∉ result.tupleMentions))
  | .named _ | .var _ | .packed _ | .spread _ | .union _ => inferInstanceAs (Decidable True)

/-- No part of a type depends on what another part binds, but for the elements of one list. -/
def Confined (t : TypeExpr) : Prop := t.Everywhere confines

instance (t : TypeExpr) : Decidable t.Confined :=
  inferInstanceAs (Decidable (t.Everywhere _))

end TypeExpr

/-- The types of all slots are confined. -/
def ParameterList.Confined (list : ParameterList) : Prop := ∀ s ∈ list.slots, s.toType.Confined

instance (list : ParameterList) : Decidable list.Confined :=
  inferInstanceAs (Decidable (∀ s ∈ list.slots, s.toType.Confined))

/-! ### Agreement -/

/-- An outcome from the shape `K` on is the verdict of a check, and the tuple variables of which
`M` holds are bound in the end. -/
def Agrees (M : TupleVar → Prop) (K : Shape) (check : Except Failure Unit) : Outcome → Prop
  | .ok K' => check = .ok () ∧ ∀ ts, (K' ts).isSome = true ↔ (K ts).isSome = true ∨ M ts
  | .error tuples => ∃ e, check = .error e ∧ e.cause = .ambiguousSplit tuples

section agreement

variable {M M' : TupleVar → Prop} {K : Shape} {check check' : Except Failure Unit} {o : Outcome}
  {outcomes : List Outcome} {next : Shape → List Outcome}

theorem Agrees.within (h : Agrees M K check o) (segment : Segment) :
    Agrees M K (within segment check) o := by
  cases o with
  | ok K' => exact ⟨within_eq_ok_iff.2 h.1, h.2⟩
  | error tuples =>
    obtain ⟨e, rfl, he⟩ := h
    exact ⟨e.under segment, rfl, he⟩

theorem Agrees.congr (h : Agrees M K check o) (hM : ∀ ts, M ts ↔ M' ts) : Agrees M' K check o := by
  cases o with
  | ok K' => exact ⟨h.1, fun ts => by rw [h.2, hM]⟩
  | error tuples => exact h

theorem agrees_andThen (h : ∀ o ∈ outcomes, Agrees M K check o)
    (hnext : ∀ K₁, .ok K₁ ∈ outcomes → ∀ o ∈ next K₁, Agrees M' K₁ check' o)
    (ho : o ∈ andThen outcomes next) :
    Agrees (fun ts => M ts ∨ M' ts) K (check >>= fun _ => check') o := by
  rcases mem_andThen.1 ho with ⟨tuples, rfl, herror⟩ | ⟨K₁, hK₁, ho⟩
  · obtain ⟨e, rfl, he⟩ := h _ herror
    exact ⟨e, rfl, he⟩
  · obtain ⟨rfl, hdom⟩ := h _ hK₁
    have hrest := hnext K₁ hK₁ o ho
    cases o with
    | ok K' =>
      refine ⟨hrest.1, ?_⟩
      intro ts
      rw [hrest.2, hdom, or_assoc]
    | error tuples => exact hrest

end agreement

/-! ### Slots -/

/-- The outcomes of a slot are the verdicts of its check, whichever tuple variables are known that
it does not mention. -/
structure SlotAgrees (s : Slot) : Prop where
  mentions : ∀ ts, ts ∈ s.toType.tupleMentions ↔ ts ∈ s.gain ∨ s.tuple? = some ts
  agrees : ∀ K known, (∀ ts ∈ s.gain, (K ts).isSome = true ↔ ts ∈ known) → ∀ o ∈ s.replay K,
    Agrees (· ∈ s.toType.tupleMentions) K (s.checkSplits known) o

/-- The outcomes of a type are the verdicts of its check. -/
def TypeAgrees (t : TypeExpr) : Prop :=
  t.WellPlaced → t.Confined → ∀ K known,
    (∀ ts ∈ t.tupleMentions, (K ts).isSome = true ↔ ts ∈ known) →
    ∀ o ∈ t.replay K, Agrees (· ∈ t.tupleMentions) K (t.checkSplits known) o

section slots

variable {K K' : Shape} {ts : TupleVar} {o : Outcome}

theorem isSome_note {blank : Bool} (us : TupleVar) :
    ((K.note ts blank) us).isSome = true ↔ (K us).isSome = true ∨ us ∈ [ts] := by
  rw [Shape.note, List.mem_singleton]
  split
  · rename_i heq
    simp [heq]
  · rename_i hne
    simp [Ne.symm hne]

theorem agrees_settle (ho : o ∈ K.settle ts) : Agrees (· ∈ [ts]) K (.ok ()) o := by
  unfold Shape.settle at ho
  split at ho
  · rename_i blank hts
    obtain rfl : o = .ok K := by simpa using ho
    refine ⟨rfl, fun us => ⟨.inl, ?_⟩⟩
    rintro (h | h)
    · exact h
    · rw [List.mem_singleton.1 h, hts]
      rfl
  · obtain ⟨blank, rfl⟩ : ∃ blank, o = .ok (K.note ts blank) := by
      rcases List.mem_cons.1 ho with rfl | ho
      · exact ⟨true, rfl⟩
      · exact ⟨false, by simpa using ho⟩
    exact ⟨rfl, isSome_note⟩

/-- A constructor that mentions no tuple variable binds none. -/
theorem replay_mapped_of_tupleMentions {ctor : TypeExpr} (h : ctor.tupleMentions = []) :
    (Slot.mapped ctor ts).replay K = K.settle ts := by
  have hctor : ctor.replay K = [.ok K] := TypeExpr.replay_of_tupleMentions h
  rw [Slot.replay, Shape.settleMapped, Shape.settle, hctor]
  cases hts : K ts with
  | none => simp [hts]
  | some blank => cases blank <;> rfl

theorem slotAgrees_of_inner {s : Slot} (h : ∀ t ∈ s.inner?, TypeAgrees t) (hplaced : s.WellPlaced)
    (hconfined : s.toType.Confined) : SlotAgrees s := by
  cases s with
  | single t =>
    exact ⟨fun ts => by simp [Slot.toType, Slot.gain, Slot.tuple?], fun K known hknown o ho =>
      h t rfl hplaced hconfined K known hknown o ho⟩
  | spread us =>
    exact ⟨fun ts => by simp [Slot.toType, Slot.gain, Slot.tuple?, eq_comm],
      fun K known _ o ho => (agrees_settle ho).congr fun ts => by simp [Slot.toType]⟩
  | mapped ctor us =>
    obtain ⟨hnil, hctor⟩ := TypeExpr.everywhere_spreadMap.1 hconfined
    have hnil : ctor.tupleMentions = [] := hnil
    refine ⟨fun ts => by simp [Slot.toType, Slot.gain, Slot.tuple?, hnil, eq_comm], ?_⟩
    intro K known _ o ho
    -- The check of the constructor is that of its only outcome.
    have hcheck : ctor.checkSplits known = .ok () := by
      have hverdict := h ctor rfl hplaced hctor K known (by simp [hnil]) (.ok K)
        (by simp [TypeExpr.replay_of_tupleMentions hnil])
      exact hverdict.1
    rw [replay_mapped_of_tupleMentions hnil] at ho
    rw [Slot.checkSplits, hcheck]
    exact (agrees_settle ho).congr fun ts => by simp [Slot.toType, hnil]

end slots

/-! ### Rows of slots -/

section rows

variable {K : Shape} {known : Known} {slots rest : List Slot} {slot : Slot} {o : Outcome}

/-- A tuple variable is mentioned by one of the slots. -/
def Mentioned (slots : List Slot) (ts : TupleVar) : Prop := ∃ s ∈ slots, ts ∈ s.toType.tupleMentions

theorem mentioned_of_tuple (hslots : ∀ s ∈ slots, SlotAgrees s) (hslot : slot ∈ slots)
    {ts : TupleVar} (h : slot.tuple? = some ts) : Mentioned slots ts :=
  ⟨slot, hslot, ((hslots slot hslot).mentions ts).2 (.inr h)⟩

/-- The check and the replay find the same slots known. -/
theorem isKnown_eq_isSettled (hslots : ∀ s ∈ slots, SlotAgrees s)
    (h : ∀ ts, Mentioned slots ts → ((K ts).isSome = true ↔ ts ∈ known)) :
    ∀ s ∈ slots, s.isKnown known = s.isSettled K := by
  intro s hs
  rw [Slot.isKnown, Slot.isSettled]
  cases hts : s.tuple? with
  | none => rfl
  | some ts =>
    have hagree := h ts (mentioned_of_tuple hslots hs hts)
    rw [Bool.eq_iff_iff]
    simp [hagree]

/-- The check and the replay find the same tuple variables open. -/
theorem unknownTuples_eq (hslots : ∀ s ∈ slots, SlotAgrees s)
    (h : ∀ ts, Mentioned slots ts → ((K ts).isSome = true ↔ ts ∈ known)) :
    unknownTuples known slots = unsettledTuples K slots := by
  rw [unknownTuples, unsettledTuples]
  congr 1
  refine List.filter_congr ?_
  intro ts hts
  obtain ⟨s, hs, hts⟩ := List.mem_filterMap.1 hts
  have hagree := h ts (mentioned_of_tuple hslots hs hts)
  rw [Bool.eq_iff_iff]
  simp [← hagree]

/-- If one tuple variable is open at most, then it is that of every slot that is not settled. -/
theorem unsettledTuples_eq_singleton (hslot : slot ∈ slots) (hopen : slot.isSettled K = false)
    (hone : (unsettledTuples K slots).length ≤ 1) :
    ∃ ts, slot.tuple? = some ts ∧ unsettledTuples K slots = [ts] := by
  obtain ⟨ts, hts, hnone⟩ : ∃ ts, slot.tuple? = some ts ∧ K ts = none := by
    cases htuple : slot.tuple? with
    | none => simp [Slot.isSettled, htuple] at hopen
    | some ts => exact ⟨ts, rfl, by simpa [Slot.isSettled, htuple] using hopen⟩
  have hmem : ts ∈ unsettledTuples K slots := mem_unsettledTuples.2 ⟨hnone, slot, hslot, hts⟩
  obtain ⟨us, hus⟩ : ∃ us, unsettledTuples K slots = [us] := by
    have hpos := List.length_pos_of_mem hmem
    exact List.length_eq_one_iff.1 (by omega)
  rw [hus, List.mem_singleton] at hmem
  exact ⟨ts, hts, by rw [hus, hmem]⟩

/-- A slot and then the others: `known'` is what is known when the slot is checked. -/
theorem agrees_of_take {place : Nat → Segment} {side : Side} {i start : Nat} {known' : Known}
    (hslots : ∀ s ∈ slots, SlotAgrees s) (hmem : ∀ s, s ∈ slots ↔ s = slot ∨ s ∈ rest)
    (hknown : ∀ ts, Mentioned slots ts →
      ((K ts).isSome = true ∨ slot.tuple? = some ts ↔ ts ∈ known'))
    (hrest : ∀ K₁, (∀ ts, Mentioned rest ts → ((K₁ ts).isSome = true ↔ ts ∈ known' ++ slot.gain)) →
      ∀ o ∈ replayFrom side rest K₁,
        Agrees (Mentioned rest) K₁ (checkFrom place side start rest (known' ++ slot.gain)) o)
    (ho : o ∈ andThen (slot.replay K) (replayFrom side rest)) :
    Agrees (Mentioned slots) K (do
      within (place i) (slot.checkSplits known')
      checkFrom place side start rest (known' ++ slot.gain)) o := by
  have hslot : slot ∈ slots := (hmem slot).2 (.inl rfl)
  obtain ⟨hmentions, hagrees⟩ := hslots slot hslot
  have hgain : ∀ ts ∈ slot.gain, (K ts).isSome = true ↔ ts ∈ known' := by
    intro ts hts
    rw [← hknown ts ⟨slot, hslot, (hmentions ts).2 (.inl hts)⟩]
    cases slot with
    | single t => simp [Slot.tuple?]
    | spread | mapped => cases hts
  refine (agrees_andThen (fun o ho => (hagrees K known' hgain o ho).within (place i))
    (fun K₁ hK₁ => hrest K₁ ?_) ho).congr ?_
  · intro ts hts
    obtain ⟨s, hs, hts⟩ := hts
    have hdom : (K₁ ts).isSome = true ↔ (K ts).isSome = true ∨ ts ∈ slot.toType.tupleMentions :=
      (hagrees K known' hgain _ hK₁).2 ts
    rw [hdom, hmentions, List.mem_append, ← hknown ts ⟨s, (hmem s).2 (.inr hs), hts⟩, or_assoc,
      or_comm (a := ts ∈ slot.gain)]
  · intro ts
    constructor
    · rintro (h | ⟨s, hs, h⟩)
      · exact ⟨slot, hslot, h⟩
      · exact ⟨s, (hmem s).2 (.inr hs), h⟩
    · rintro ⟨s, hs, h⟩
      rcases (hmem s).1 hs with rfl | hs
      · exact .inl h
      · exact .inr ⟨s, hs, h⟩

theorem agrees_of_mem_replayFrom {place : Nat → Segment} {side : Side} {start : Nat}
    (hslots : ∀ s ∈ slots, SlotAgrees s)
    (h : ∀ ts, Mentioned slots ts → ((K ts).isSome = true ↔ ts ∈ known))
    (ho : o ∈ replayFrom side slots K) :
    Agrees (Mentioned slots) K (checkFrom place side start slots known) o := by
  induction hn : slots.length generalizing side start slots K known o with
  | zero =>
    obtain rfl := List.eq_nil_of_length_eq_zero hn
    obtain rfl : o = .ok K := by simpa using ho
    exact ⟨checkFrom_nil, fun ts => by simp [Mentioned]⟩
  | succ n ih =>
    have hmove : nextMove (Slot.isKnown known) side slots =
        nextMove (Slot.isSettled K) side slots :=
      nextMove_congr (isKnown_eq_isSettled hslots h)
    -- A slot at an end is settled, so that taking it makes nothing known but what it mentions.
    have settled {slot : Slot} (hslot : slot.isSettled K = true) (ts : TupleVar)
        (hts : Mentioned slots ts) :
        (K ts).isSome = true ∨ slot.tuple? = some ts ↔ ts ∈ known := by
      rw [← h ts hts]
      refine ⟨fun hor => hor.elim id ?_, .inl⟩
      intro htuple
      simpa [Slot.isSettled, htuple] using hslot
    cases hm : nextMove (Slot.isSettled K) side slots with
    | done => simp [nextMove_eq_done hm] at hn
    | front slot rest =>
      obtain ⟨heq, hsettled⟩ := nextMove_eq_front hm
      rw [replayFrom_front hm] at ho
      rw [checkFrom_front (hmove.trans hm)]
      exact agrees_of_take hslots (by simp [heq]) (settled hsettled) (fun K₁ hK₁ o ho =>
        ih (fun s hs => hslots s (by simp [heq, hs])) hK₁ ho (by simpa [heq] using hn)) ho
    | back rest slot =>
      obtain ⟨heq, hsettled⟩ := nextMove_eq_back hm
      rw [replayFrom_back hm] at ho
      rw [checkFrom_back (hmove.trans hm)]
      exact agrees_of_take hslots (by simp [heq, or_comm]) (settled hsettled) (fun K₁ hK₁ o ho =>
        ih (fun s hs => hslots s (by simp [heq, hs])) hK₁ ho (by simpa [heq] using hn)) ho
    | stuck slot rest =>
      obtain ⟨heq, hopen, -⟩ := nextMove_eq_stuck hm
      rw [replayFrom_stuck hm] at ho
      rw [checkFrom_stuck (hmove.trans hm), unknownTuples_eq hslots h]
      split at ho
      · rename_i hseveral
        obtain rfl : o = .error (unsettledTuples K slots) := by simpa using ho
        rw [if_pos hseveral]
        exact ⟨_, rfl, rfl⟩
      · rename_i hone
        rw [if_neg hone]
        refine agrees_of_take hslots (by simp [heq]) ?_ (fun K₁ hK₁ o ho =>
          ih (fun s hs => hslots s (by simp [heq, hs])) hK₁ ho (by simpa [heq] using hn)) ho
        intro ts hts
        obtain ⟨us, hus, htuples⟩ :=
          unsettledTuples_eq_singleton (by simp [heq]) hopen (Nat.le_of_not_lt hone)
        rw [htuples, List.mem_append, ← h ts hts, hus, List.mem_singleton, Option.some.injEq,
          eq_comm (a := us)]

end rows

/-! ### Types and lists -/

section types

variable {K : Shape} {known : Known} {o : Outcome}

theorem mentioned_iff {ts : List TypeExpr} {us : TupleVar} :
    Mentioned (ts.map Slot.ofType) us ↔ us ∈ ts.flatMap TypeExpr.tupleMentions := by
  rw [List.mem_flatMap]
  constructor
  · rintro ⟨s, hs, hus⟩
    obtain ⟨t, ht, rfl⟩ := List.mem_map.1 hs
    exact ⟨t, ht, by simpa using hus⟩
  · rintro ⟨t, ht, hus⟩
    exact ⟨Slot.ofType t, List.mem_map_of_mem ht, by simpa using hus⟩

theorem slotAgrees_ofType {ts : List TypeExpr}
    (h : ∀ s ∈ ts.map Slot.ofType, ∀ t ∈ s.inner?, TypeAgrees t)
    (hplaced : ∀ s ∈ ts.map Slot.ofType, s.WellPlaced) (hconfined : ∀ t ∈ ts, t.Confined) :
    ∀ s ∈ ts.map Slot.ofType, SlotAgrees s := by
  intro s hs
  refine slotAgrees_of_inner (h s hs) (hplaced s hs) ?_
  obtain ⟨t, ht, rfl⟩ := List.mem_map.1 hs
  simpa using hconfined t ht

/-- A row that is read off a list of types agrees with its check. -/
theorem agrees_ofType {place : Nat → Segment} {ts : List TypeExpr}
    (hslots : ∀ s ∈ ts.map Slot.ofType, SlotAgrees s)
    (h : ∀ us ∈ ts.flatMap TypeExpr.tupleMentions, (K us).isSome = true ↔ us ∈ known)
    (ho : o ∈ replayFrom .front (ts.map Slot.ofType) K) :
    Agrees (· ∈ ts.flatMap TypeExpr.tupleMentions) K
      (checkSlots place (ts.map Slot.ofType) known) o :=
  (agrees_of_mem_replayFrom hslots (fun us hus => h us (mentioned_iff.1 hus)) ho).congr
    fun _ => mentioned_iff

/-- What is known of the tuple variables of one part of a type is known after another part if they
share none. -/
theorem known_of_disjoint {M M' : List TupleVar} {K₁ : Shape}
    (h : ∀ ts ∈ M', (K ts).isSome = true ↔ ts ∈ known)
    (hdom : ∀ ts, (K₁ ts).isSome = true ↔ (K ts).isSome = true ∨ ts ∈ M)
    (hdisjoint : ∀ ts ∈ M, ts ∉ M') : ∀ ts ∈ M', (K₁ ts).isSome = true ↔ ts ∈ known := by
  intro ts hts
  rw [hdom, ← h ts hts]
  exact ⟨fun hor => hor.elim id fun hM => absurd hts (hdisjoint ts hM), .inl⟩

/-- The outcomes of a well placed and confined type are the verdicts of its check. -/
theorem agrees_of_mem_replay (t : TypeExpr) : TypeAgrees t := by
  induction t using TypeExpr.inductSlots with
  | named | var =>
    intro _ _ K known _ o ho
    obtain rfl : o = .ok K := by simpa [TypeExpr.replay] using ho
    exact ⟨rfl, fun ts => by simp⟩
  | packed us =>
    intro _ _ K known _ o ho
    exact (agrees_settle ho).congr fun ts => by simp
  | spread us => exact fun h => absurd h (by simp)
  | spreadMap ctor us ih => exact fun h => absurd h (by simp)
  | apply head args hhead hargs =>
    intro hplaced hconfined K known h o ho
    rw [TypeExpr.wellPlaced_apply] at hplaced
    obtain ⟨hdisjoint, hconfHead, hconfArgs⟩ := TypeExpr.everywhere_apply.1 hconfined
    rw [TypeExpr.tupleMentions_apply] at h
    rw [TypeExpr.replay_apply] at ho
    rw [TypeExpr.checkSplits_apply]
    have hfirst := hhead hplaced.1 hconfHead K known fun ts hts => h ts (List.mem_append_left _ hts)
    refine (agrees_andThen (fun o ho => (hfirst o ho).within .ctor) ?_
      ho).congr fun ts => by rw [TypeExpr.tupleMentions_apply, List.mem_append]
    intro K₁ hK₁ o ho
    have hslots := slotAgrees_ofType hargs hplaced.2 hconfArgs
    have hargsKnown : ∀ ts ∈ args.flatMap TypeExpr.tupleMentions,
        (K ts).isSome = true ↔ ts ∈ known := fun ts hts => h ts (List.mem_append_right _ hts)
    exact agrees_ofType hslots (known_of_disjoint hargsKnown (hfirst _ hK₁).2 hdisjoint) ho
  | union members hmembers =>
    intro hplaced hconfined K known h o ho
    rw [TypeExpr.wellPlaced_union] at hplaced
    rw [TypeExpr.tupleMentions_union] at h
    rw [TypeExpr.replay_union] at ho
    rw [TypeExpr.checkSplits_union]
    have hslots := slotAgrees_ofType hmembers hplaced (TypeExpr.everywhere_union.1 hconfined).2
    exact (agrees_ofType hslots h ho).congr fun ts => by rw [TypeExpr.tupleMentions_union]
  | arrow params result hparams hresult =>
    intro hplaced hconfined K known h o ho
    rw [TypeExpr.wellPlaced_arrow] at hplaced
    obtain ⟨hdisjoint, hconfParams, hconfResult⟩ := TypeExpr.everywhere_arrow.1 hconfined
    rw [TypeExpr.tupleMentions_arrow] at h
    rw [TypeExpr.replay_arrow] at ho
    rw [TypeExpr.checkSplits_arrow]
    have hfirst : ∀ o ∈ replayFrom .front (params.map Slot.ofType) K,
        Agrees (· ∈ params.flatMap TypeExpr.tupleMentions) K
          (checkSlots .callableParam (params.map Slot.ofType) known) o := fun o ho =>
      agrees_ofType (slotAgrees_ofType hparams hplaced.1 hconfParams)
        (fun ts hts => h ts (List.mem_append_left _ hts)) ho
    refine (agrees_andThen hfirst ?_ ho).congr
      fun ts => by rw [TypeExpr.tupleMentions_arrow, List.mem_append]
    intro K₁ hK₁ o ho
    have hresultKnown : ∀ ts ∈ result.tupleMentions, (K ts).isSome = true ↔ ts ∈ known :=
      fun ts hts => h ts (List.mem_append_right _ hts)
    have hlater := known_of_disjoint hresultKnown (hfirst _ hK₁).2 hdisjoint
    exact (hresult hplaced.2 hconfResult K₁ known hlater o ho).within _

end types

section lists

variable {list : ParameterList}

theorem check_eq (list : ParameterList) : list.check [] = checkFrom .param .front 0 list.slots [] :=
  rfl

theorem agrees_of_mem_list (hplaced : list.WellPlaced) (hconfined : list.Confined) {o : Outcome}
    (ho : o ∈ list.replay) : Agrees (Mentioned list.slots) .empty (list.check []) o := by
  have hslots : ∀ s ∈ list.slots, SlotAgrees s := by
    intro s hs
    exact slotAgrees_of_inner (fun t _ => agrees_of_mem_replay t) (hplaced s hs) (hconfined s hs)
  rw [check_eq]
  exact agrees_of_mem_replayFrom hslots (fun ts _ => by simp [Shape.empty]) ho

/-- The check rejects a confined list as ambiguous exactly where a replay of it is stuck, and names
the same tuple variables. -/
theorem check_eq_error_iff (hplaced : list.WellPlaced) (hconfined : list.Confined)
    {tuples : List TupleVar} : (∃ e, list.check [] = .error e ∧ e.cause = .ambiguousSplit tuples) ↔
      .error tuples ∈ list.replay := by
  constructor
  · rintro ⟨e, he, hcause⟩
    -- There is an outcome, and the only verdict is the given one.
    obtain ⟨o, ho⟩ := List.exists_mem_of_ne_nil _ list.replay_ne_nil
    have hagrees := agrees_of_mem_list hplaced hconfined ho
    cases o with
    | ok K =>
      rw [hagrees.1] at he
      cases he
    | error tuples' =>
      obtain ⟨e', he', hcause'⟩ := hagrees
      rw [he, Except.error.injEq] at he'
      rw [← he', hcause, Cause.ambiguousSplit.injEq] at hcause'
      rw [hcause']
      exact ho
  · exact agrees_of_mem_list hplaced hconfined

end lists

end Polyadic
