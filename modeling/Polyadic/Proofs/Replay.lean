import Polyadic.ParameterList
import Polyadic.Peeling
import Polyadic.Binding
import Polyadic.Proofs.Nodes

/-! # Replaying a match without its arguments

What a match does next depends on the tuple variables that are bound, and on which of them are bound
to the empty sequence: where it is empty, a mapped slot takes no argument, and nothing inside its
constructor is bound.  This is the `Shape` of a binding.  `replay` follows a match through the
shapes that it may go through, whatever its arguments are.  Its outcomes are the shapes that a match
may end with, and the tuple variables that it may be left with in an ambiguous split.

A replay never forgets (`le_of_mem_replay`), and to repeat it changes nothing
(`replay_of_mem_replay`). -/

namespace Polyadic

/-! ### Moves on rows of other things -/

section moves

variable {α β : Type} {known known' : α → Bool} {side : Side} {slots : List α}

/-- A move of other things. -/
def Move.map (f : α → β) : Move α → Move β
  | .done => .done
  | .front slot rest => .front (f slot) (rest.map f)
  | .back rest slot => .back (rest.map f) (f slot)
  | .stuck slot rest => .stuck (f slot) (rest.map f)

theorem nextMove_map (f : α → β) (known : β → Bool) (side : Side) (slots : List α) :
    nextMove known side (slots.map f) = (nextMove (fun a => known (f a)) side slots).map f := by
  cases slots with
  | nil => rfl
  | cons a as =>
    have hlast : (f a :: as.map f).getLast (List.cons_ne_nil _ _) =
        f ((a :: as).getLast (List.cons_ne_nil a as)) :=
      List.getLast_map (f := f) (l := a :: as) (by simp)
    have hinit : (f a :: as.map f).dropLast = (a :: as).dropLast.map f := by
      rw [← List.map_cons, List.map_dropLast]
    simp only [List.map_cons, nextMove, hlast, hinit]
    cases side <;> cases known (f a) <;>
      cases known (f ((a :: as).getLast (List.cons_ne_nil a as))) <;> rfl

theorem nextMove_congr (h : ∀ a ∈ slots, known a = known' a) :
    nextMove known side slots = nextMove known' side slots := by
  cases slots with
  | nil => rfl
  | cons a as =>
    simp only [nextMove, h a (by simp), h _ (List.getLast_mem (List.cons_ne_nil a as))]

end moves

/-! ### Shapes -/

/-- Whether each tuple variable is bound, and then, whether it is bound to the empty sequence. -/
def Shape := TupleVar → Option Bool

namespace Shape

/-- Nothing is bound. -/
def empty : Shape := fun _ => none

/-- One more tuple variable is bound. -/
def note (K : Shape) (ts : TupleVar) (blank : Bool) : Shape :=
  fun us => if ts = us then some blank else K us

instance : LE Shape where
  le K K' := ∀ ts blank, K ts = some blank → K' ts = some blank

variable {K K' K'' : Shape}

theorem le_refl (K : Shape) : K ≤ K := fun _ _ h => h

theorem le_trans (h : K ≤ K') (h' : K' ≤ K'') : K ≤ K'' := fun ts blank hK =>
  h' ts blank (h ts blank hK)

theorem note_self (K : Shape) (ts : TupleVar) (blank : Bool) :
    (K.note ts blank) ts = some blank := if_pos rfl

theorem le_note {ts : TupleVar} (h : K ts = none) (blank : Bool) : K ≤ K.note ts blank := by
  intro us blank' hus
  rw [note]
  split
  · rename_i heq
    rw [← heq, h] at hus
    cases hus
  · exact hus

theorem isSome_of_le (h : K ≤ K') {ts : TupleVar} (hts : (K ts).isSome = true) :
    (K' ts).isSome = true := by
  obtain ⟨blank, hblank⟩ := Option.isSome_iff_exists.1 hts
  rw [h ts blank hblank]
  rfl

end Shape

/-- The shape of a binding. -/
def Binding.shape (b : Binding) : Shape := fun ts => (b.tuple? ts).map List.isEmpty

/-! ### Outcomes -/

/-- Where a replay may end: with a shape, or with the tuple variables of an ambiguous split. -/
abbrev Outcome := Except (List TupleVar) Shape

/-- Every outcome of the one followed by every outcome of the other. -/
def andThen (outcomes : List Outcome) (next : Shape → List Outcome) : List Outcome :=
  outcomes.flatMap fun
    | .ok K => next K
    | .error tuples => [.error tuples]

section outcomes

variable {outcomes : List Outcome} {next : Shape → List Outcome} {K K' : Shape}
  {tuples : List TupleVar}

theorem mem_andThen {o : Outcome} : o ∈ andThen outcomes next ↔
    (∃ tuples, o = .error tuples ∧ .error tuples ∈ outcomes) ∨
      ∃ K, .ok K ∈ outcomes ∧ o ∈ next K := by
  simp only [andThen, List.mem_flatMap]
  constructor
  · rintro ⟨o' | K, ho', h⟩
    · exact .inl ⟨o', by simpa using h, ho'⟩
    · exact .inr ⟨K, ho', h⟩
  · rintro (⟨tuples, rfl, h⟩ | ⟨K, hK, h⟩)
    · exact ⟨.error tuples, h, by simp⟩
    · exact ⟨.ok K, hK, h⟩

theorem ok_mem_andThen :
    .ok K ∈ andThen outcomes next ↔ ∃ K₁, .ok K₁ ∈ outcomes ∧ .ok K ∈ next K₁ := by
  simp [mem_andThen]

theorem error_mem_andThen :
    .error tuples ∈ andThen outcomes next ↔
      .error tuples ∈ outcomes ∨ ∃ K₁, .ok K₁ ∈ outcomes ∧ .error tuples ∈ next K₁ := by
  simp [mem_andThen]

@[simp] theorem andThen_ok : andThen [.ok K] next = next K := by simp [andThen]

theorem andThen_of_unchanged (h : ∀ K, next K = [.ok K]) : andThen outcomes next = outcomes := by
  obtain rfl : next = fun K => [.ok K] := funext h
  induction outcomes with
  | nil => rfl
  | cons o rest ih =>
    rw [andThen] at ih
    cases o <;> simp [andThen, ih]

theorem andThen_ne_nil (h : outcomes ≠ []) (hnext : ∀ K, next K ≠ []) :
    andThen outcomes next ≠ [] := by
  obtain ⟨o, ho⟩ := List.exists_mem_of_ne_nil _ h
  cases o with
  | ok K =>
    obtain ⟨o, ho'⟩ := List.exists_mem_of_ne_nil _ (hnext K)
    exact List.ne_nil_of_mem (mem_andThen.2 (.inr ⟨K, ho, ho'⟩))
  | error tuples => exact List.ne_nil_of_mem (error_mem_andThen.2 (.inl ho))

end outcomes

/-! ### Replaying -/

namespace Shape

/-- A tuple variable is bound: to any sequence if it has none. -/
def settle (K : Shape) (ts : TupleVar) : List Outcome :=
  match K ts with
  | some _ => [.ok K]
  | none => [.ok (K.note ts true), .ok (K.note ts false)]

/-- A slot is matched that maps over a tuple variable, with the replay of its constructor.  The
constructor is not matched if the slot takes nothing. -/
def settleMapped (K : Shape) (ts : TupleVar) (ctor : Shape → List Outcome) : List Outcome :=
  match K ts with
  | some true => [.ok K]
  | some false => ctor K
  | none => .ok (K.note ts true) :: andThen (ctor K) fun K =>
    match K ts with
    | some true => []
    | some false => [.ok K]
    | none => [.ok (K.note ts false)]

end Shape

/-- Whether the length of a slot is settled. -/
def Slot.isSettled (K : Shape) (s : Slot) : Bool := s.tuple?.all fun ts => (K ts).isSome

/-- The distinct tuple variables of slots that are not settled, by first occurrence. -/
def unsettledTuples (K : Shape) (slots : List Slot) : List TupleVar :=
  ((slots.filterMap Slot.tuple?).filter fun ts => (K ts).isNone).eraseDups

theorem mem_unsettledTuples {K : Shape} {slots : List Slot} {ts : TupleVar} :
    ts ∈ unsettledTuples K slots ↔ K ts = none ∧ ∃ s ∈ slots, s.tuple? = some ts := by
  simp only [unsettledTuples, List.mem_eraseDups, List.mem_filter, List.mem_filterMap,
    Option.isNone_iff_eq_none, and_comm]

/-- A slot together with the replay of its match. -/
structure Replayed where
  slot : Slot
  replay : Shape → List Outcome

/-- Takes `n` slots off a row. -/
def replayRow : Nat → Side → List Replayed → Shape → List Outcome
  | 0, _, _, K => [.ok K]
  | n + 1, side, row, K =>
    match nextMove (fun r => r.slot.isSettled K) side row with
    | .done => [.ok K]
    | .front r rest => andThen (r.replay K) (replayRow n .front rest)
    | .back rest r => andThen (r.replay K) (replayRow n .back rest)
    | .stuck r rest =>
      let tuples := unsettledTuples K (row.map Replayed.slot)
      if 1 < tuples.length then [.error tuples]
      else andThen (r.replay K) (replayRow n .front rest)

namespace TypeExpr

mutual

/-- The outcomes of matching a type, from a shape on. -/
def replay : TypeExpr → Shape → List Outcome
  | .packed ts, K => K.settle ts
  | .apply head args, K =>
    andThen (head.replay K) (replayRow args.length .front (replaysOf args))
  | .union members, K => replayRow members.length .front (replaysOf members) K
  | .arrow params result, K =>
    andThen (replayRow params.length .front (replaysOf params) K) result.replay
  | _, K => [.ok K]

/-- The elements of a list as slots, each with its replay. -/
def replaysOf : List TypeExpr → List Replayed
  | [] => []
  | .spread ts :: rest => ⟨.spread ts, fun K => K.settle ts⟩ :: replaysOf rest
  | .spreadMap ctor ts :: rest =>
    ⟨.mapped ctor ts, fun K => K.settleMapped ts ctor.replay⟩ :: replaysOf rest
  | t :: rest => ⟨.single t, t.replay⟩ :: replaysOf rest

end

end TypeExpr

/-- The outcomes of matching a slot. -/
def Slot.replay : Slot → Shape → List Outcome
  | .single t, K => t.replay K
  | .spread ts, K => K.settle ts
  | .mapped ctor ts, K => K.settleMapped ts ctor.replay

/-- The outcomes of matching what is left of a row, with the end of the last move. -/
def replayFrom (side : Side) (slots : List Slot) (K : Shape) : List Outcome :=
  replayRow slots.length side (slots.map fun s => ⟨s, s.replay⟩) K

/-- The outcomes of matching a parameter list. -/
def ParameterList.replay (list : ParameterList) : List Outcome :=
  replayFrom .front list.slots .empty

section equations

variable {side : Side} {slots rest : List Slot} {slot : Slot} {K : Shape}

@[simp] theorem replayFrom_nil : replayFrom side [] K = [.ok K] := rfl

theorem replayFrom_front (h : nextMove (Slot.isSettled K) side slots = .front slot rest) :
    replayFrom side slots K = andThen (slot.replay K) (replayFrom .front rest) := by
  have hslots := (nextMove_eq_front h).1
  rw [replayFrom, show slots.length = rest.length + 1 by simp [hslots], replayRow, nextMove_map, h]
  simp only [Move.map]
  rfl

theorem replayFrom_back (h : nextMove (Slot.isSettled K) side slots = .back rest slot) :
    replayFrom side slots K = andThen (slot.replay K) (replayFrom .back rest) := by
  have hslots := (nextMove_eq_back h).1
  rw [replayFrom, show slots.length = rest.length + 1 by simp [hslots], replayRow, nextMove_map, h]
  simp only [Move.map]
  rfl

theorem replayFrom_stuck (h : nextMove (Slot.isSettled K) side slots = .stuck slot rest) :
    replayFrom side slots K =
      if 1 < (unsettledTuples K slots).length then [.error (unsettledTuples K slots)]
      else andThen (slot.replay K) (replayFrom .front rest) := by
  have hslots := (nextMove_eq_stuck h).1
  rw [replayFrom, show slots.length = rest.length + 1 by simp [hslots], replayRow, nextMove_map, h]
  simp only [Move.map, List.map_map, Function.comp_def, List.map_id']
  rfl

end equations

namespace TypeExpr

theorem replaysOf_eq_map (ts : List TypeExpr) :
    replaysOf ts = (ts.map Slot.ofType).map fun s => ⟨s, s.replay⟩ := by
  induction ts with
  | nil => rfl
  | cons t ts ih => cases t <;> simp only [replaysOf, ih] <;> rfl

section

variable {K : Shape}

theorem replay_apply (head : TypeExpr) (args : List TypeExpr) :
    (apply head args).replay K =
      andThen (head.replay K) (replayFrom .front (args.map Slot.ofType)) := by
  have hrow : replayRow args.length .front (replaysOf args) =
      replayFrom .front (args.map Slot.ofType) := by
    funext K
    simp [replayFrom, replaysOf_eq_map]
  rw [replay, hrow]

theorem replay_union (members : List TypeExpr) :
    (union members).replay K = replayFrom .front (members.map Slot.ofType) K := by
  rw [replay, replaysOf_eq_map]
  simp [replayFrom]

theorem replay_arrow (params : List TypeExpr) (result : TypeExpr) :
    (arrow params result).replay K =
      andThen (replayFrom .front (params.map Slot.ofType) K) result.replay := by
  rw [replay, replaysOf_eq_map]
  simp [replayFrom]

end

end TypeExpr

/-! ### One move of a row -/

section rows

variable {side : Side} {slots : List Slot} {K K' : Shape}

/-- A replay of a row takes one of its slots first, unless it is stuck at once. -/
theorem replayFrom_of_ne_nil (side : Side) (K : Shape) (h : slots ≠ []) :
    (1 < (unsettledTuples K slots).length ∧
      replayFrom side slots K = [.error (unsettledTuples K slots)]) ∨
    ∃ slot rest side', (∀ s, s ∈ slots ↔ s = slot ∨ s ∈ rest) ∧
      slots.length = rest.length + 1 ∧
      replayFrom side slots K = andThen (slot.replay K) (replayFrom side' rest) := by
  cases hm : nextMove (Slot.isSettled K) side slots with
  | done => exact absurd (nextMove_eq_done hm) h
  | front slot rest =>
    obtain ⟨rfl, -⟩ := nextMove_eq_front hm
    exact .inr ⟨slot, rest, .front, by simp, by simp, replayFrom_front hm⟩
  | back rest slot =>
    obtain ⟨rfl, -⟩ := nextMove_eq_back hm
    exact .inr ⟨slot, rest, .back, by simp [or_comm], by simp, replayFrom_back hm⟩
  | stuck slot rest =>
    have hreplay := replayFrom_stuck hm
    obtain ⟨rfl, -, -⟩ := nextMove_eq_stuck hm
    split at hreplay
    · rename_i hseveral
      exact .inl ⟨hseveral, hreplay⟩
    · exact .inr ⟨slot, rest, .front, by simp, by simp, hreplay⟩

/-- A row of one slot is never stuck. -/
theorem replayFrom_singleton (side : Side) (slot : Slot) (K : Shape) :
    replayFrom side [slot] K = slot.replay K := by
  obtain ⟨hseveral, -⟩ | ⟨slot', rest, side', hmem, hlength, hmove⟩ :=
    replayFrom_of_ne_nil side K (List.cons_ne_nil slot [])
  · have hone : (unsettledTuples K [slot]).length ≤ 1 := by
      cases h : slot.tuple? with
      | none => simp [unsettledTuples, h]
      | some ts => cases hts : K ts <;> simp [unsettledTuples, h, hts, List.eraseDups_cons]
    omega
  · obtain rfl : rest = [] := List.eq_nil_of_length_eq_zero (by simpa using hlength.symm)
    obtain rfl : slot' = slot := by simpa using (hmem slot').2 (.inl rfl)
    rw [hmove]
    exact andThen_of_unchanged fun K => replayFrom_nil

/-- Every slot of a row has been replayed in the end, and nothing has been forgotten since. -/
theorem replayed_of_mem_replayFrom
    (hle : ∀ s ∈ slots, ∀ K K', .ok K' ∈ s.replay K → K ≤ K')
    (h : .ok K' ∈ replayFrom side slots K) :
    K ≤ K' ∧ ∀ s ∈ slots, ∃ K₁ K₂, .ok K₂ ∈ s.replay K₁ ∧ K₂ ≤ K' := by
  induction hn : slots.length generalizing side slots K with
  | zero =>
    obtain rfl := List.eq_nil_of_length_eq_zero hn
    obtain rfl : K' = K := by simpa using h
    exact ⟨K'.le_refl, by simp⟩
  | succ n ih =>
    have hne : slots ≠ [] := List.ne_nil_of_length_eq_add_one hn
    obtain ⟨-, hstuck⟩ | ⟨slot, rest, side', hmem, hlength, hmove⟩ :=
      replayFrom_of_ne_nil side K hne
    · simp [hstuck] at h
    · rw [hmove, ok_mem_andThen] at h
      obtain ⟨K₁, hslot, hrest⟩ := h
      obtain ⟨hle₁, hall⟩ := ih (fun s hs => hle s ((hmem s).2 (.inr hs))) hrest (by omega)
      refine ⟨Shape.le_trans (hle slot ((hmem slot).2 (.inl rfl)) K K₁ hslot) hle₁, ?_⟩
      intro s hs
      rcases (hmem s).1 hs with rfl | hs
      · exact ⟨K, K₁, hslot, hle₁⟩
      · exact hall s hs

/-- Nothing happens in a row whose slots are settled and have nothing to learn. -/
theorem replayFrom_of_settled (h : ∀ s ∈ slots, s.isSettled K = true ∧ s.replay K = [.ok K]) :
    replayFrom side slots K = [.ok K] := by
  induction hn : slots.length generalizing side slots with
  | zero =>
    obtain rfl := List.eq_nil_of_length_eq_zero hn
    rfl
  | succ n ih =>
    have hne : slots ≠ [] := List.ne_nil_of_length_eq_add_one hn
    obtain ⟨hseveral, -⟩ | ⟨slot, rest, side', hmem, hlength, hmove⟩ :=
      replayFrom_of_ne_nil side K hne
    · have hnil : unsettledTuples K slots = [] := by
        refine List.eq_nil_iff_forall_not_mem.2 ?_
        intro ts hts
        obtain ⟨hopen, s, hs, hts⟩ := mem_unsettledTuples.1 hts
        have := (h s hs).1
        simp [Slot.isSettled, hts, hopen] at this
      simp [hnil] at hseveral
    · rw [hmove, (h slot ((hmem slot).2 (.inl rfl))).2, andThen_ok]
      exact ih (fun s hs => h s ((hmem s).2 (.inr hs))) (by omega)

theorem replayFrom_ne_nil (h : ∀ s ∈ slots, ∀ K, s.replay K ≠ []) (K : Shape) :
    replayFrom side slots K ≠ [] := by
  induction hn : slots.length generalizing side slots K with
  | zero =>
    obtain rfl := List.eq_nil_of_length_eq_zero hn
    simp
  | succ n ih =>
    have hne : slots ≠ [] := List.ne_nil_of_length_eq_add_one hn
    obtain ⟨-, hstuck⟩ | ⟨slot, rest, side', hmem, hlength, hmove⟩ :=
      replayFrom_of_ne_nil side K hne
    · simp [hstuck]
    · rw [hmove]
      exact andThen_ne_nil (h slot ((hmem slot).2 (.inl rfl)) K)
        fun K => ih (fun s hs => h s ((hmem s).2 (.inr hs))) K (by omega)

end rows

/-! ### Nothing is forgotten, and nothing is learned twice -/

section settle

variable {K K' : Shape} {ts : TupleVar}

theorem le_of_mem_settle (h : .ok K' ∈ K.settle ts) : K ≤ K' := by
  unfold Shape.settle at h
  split at h
  · obtain rfl : K' = K := by simpa using h
    exact K'.le_refl
  · rename_i hts
    obtain rfl | rfl : K' = K.note ts true ∨ K' = K.note ts false := by simpa using h
    · exact Shape.le_note hts true
    · exact Shape.le_note hts false

theorem isSome_of_mem_settle (h : .ok K' ∈ K.settle ts) : (K' ts).isSome = true := by
  unfold Shape.settle at h
  split at h
  · rename_i blank hts
    obtain rfl : K' = K := by simpa using h
    simp [hts]
  · obtain rfl | rfl : K' = K.note ts true ∨ K' = K.note ts false := by simpa using h
    · simp [Shape.note_self]
    · simp [Shape.note_self]

theorem settle_of_isSome (h : (K ts).isSome = true) : K.settle ts = [.ok K] := by
  obtain ⟨blank, hblank⟩ := Option.isSome_iff_exists.1 h
  simp [Shape.settle, hblank]

/-- After a mapped slot, its tuple variable is bound; if not to the empty sequence, then the
constructor has been replayed. -/
theorem mem_settleMapped {ctor : Shape → List Outcome} (hle : ∀ K K', .ok K' ∈ ctor K → K ≤ K')
    (h : .ok K' ∈ K.settleMapped ts ctor) :
    K ≤ K' ∧ (K' ts = some true ∨ K' ts = some false ∧ ∃ K₁, .ok K₁ ∈ ctor K ∧ K₁ ≤ K') := by
  unfold Shape.settleMapped at h
  split at h
  · rename_i hts
    obtain rfl : K' = K := by simpa using h
    exact ⟨K'.le_refl, .inl hts⟩
  · rename_i hts
    exact ⟨hle K K' h, .inr ⟨hle K K' h ts false hts, K', h, K'.le_refl⟩⟩
  · rename_i hts
    rcases List.mem_cons.1 h with h | h
    · obtain rfl : K' = K.note ts true := by simpa using h
      exact ⟨Shape.le_note hts true, .inl (Shape.note_self K ts true)⟩
    · obtain ⟨K₁, hK₁, h⟩ := ok_mem_andThen.1 h
      have hle₁ := hle K K₁ hK₁
      split at h
      · simp at h
      · rename_i hts₁
        obtain rfl : K' = K₁ := by simpa using h
        exact ⟨hle₁, .inr ⟨hts₁, K', hK₁, K'.le_refl⟩⟩
      · rename_i hts₁
        obtain rfl : K' = K₁.note ts false := by simpa using h
        have hnote := Shape.le_note hts₁ false
        exact ⟨Shape.le_trans hle₁ hnote, .inr ⟨Shape.note_self K₁ ts false, K₁, hK₁, hnote⟩⟩

end settle

section types

variable {K K' K'' : Shape}

theorem Slot.le_of_mem_replay {s : Slot}
    (h : ∀ t ∈ s.inner?, ∀ K K', .ok K' ∈ t.replay K → K ≤ K') (hs : .ok K' ∈ s.replay K) :
    K ≤ K' := by
  cases s with
  | single t => exact h t rfl K K' hs
  | spread ts => exact le_of_mem_settle hs
  | mapped ctor ts => exact (mem_settleMapped (h ctor rfl) hs).1

theorem TypeExpr.le_of_mem_replay {t : TypeExpr} (h : .ok K' ∈ t.replay K) : K ≤ K' := by
  induction t using TypeExpr.inductSlots generalizing K K' with
  | named | var | spread | spreadMap =>
    obtain rfl : K' = K := by simpa [TypeExpr.replay] using h
    exact K'.le_refl
  | packed ts => exact le_of_mem_settle h
  | apply head args hhead hargs =>
    rw [TypeExpr.replay_apply, ok_mem_andThen] at h
    obtain ⟨K₁, h₁, h⟩ := h
    have hrow := replayed_of_mem_replayFrom
      (fun s hs _ _ => Slot.le_of_mem_replay fun t ht _ _ => hargs s hs t ht) h
    exact Shape.le_trans (hhead h₁) hrow.1
  | union members hmembers =>
    rw [TypeExpr.replay_union] at h
    exact (replayed_of_mem_replayFrom
      (fun s hs _ _ => Slot.le_of_mem_replay fun t ht _ _ => hmembers s hs t ht) h).1
  | arrow params result hparams hresult =>
    rw [TypeExpr.replay_arrow, ok_mem_andThen] at h
    obtain ⟨K₁, h₁, h⟩ := h
    have hrow := replayed_of_mem_replayFrom
      (fun s hs _ _ => Slot.le_of_mem_replay fun t ht _ _ => hparams s hs t ht) h₁
    exact Shape.le_trans hrow.1 (hresult h)

/-- A slot that has been replayed is settled, and has nothing to learn any more. -/
theorem Slot.replay_of_mem_replay {s : Slot}
    (h : ∀ t ∈ s.inner?, ∀ K K', .ok K' ∈ t.replay K → K' ≤ K'' → t.replay K'' = [.ok K''])
    (hs : .ok K' ∈ s.replay K) (hle : K' ≤ K'') :
    s.isSettled K'' = true ∧ s.replay K'' = [.ok K''] := by
  cases s with
  | single t => exact ⟨rfl, h t rfl K K' hs hle⟩
  | spread ts =>
    have hts := Shape.isSome_of_le hle (isSome_of_mem_settle hs)
    exact ⟨hts, settle_of_isSome hts⟩
  | mapped ctor ts =>
    obtain ⟨-, hts | ⟨hts, K₁, hctor, hle₁⟩⟩ :=
      mem_settleMapped (fun _ _ => ctor.le_of_mem_replay) hs
    · have hts := hle ts true hts
      exact ⟨by simp [isSettled, tuple?, hts], by simp [replay, Shape.settleMapped, hts]⟩
    · have hts := hle ts false hts
      refine ⟨by simp [isSettled, tuple?, hts], ?_⟩
      simp only [replay, Shape.settleMapped, hts]
      exact h ctor rfl K K₁ hctor (Shape.le_trans hle₁ hle)

/-- A type that has been replayed has nothing to learn any more. -/
theorem TypeExpr.replay_of_mem_replay {t : TypeExpr} (h : .ok K' ∈ t.replay K) (hle : K' ≤ K'') :
    t.replay K'' = [.ok K''] := by
  have row {ts : List TypeExpr} {K K' : Shape}
      (hts : ∀ s ∈ ts.map Slot.ofType, ∀ t ∈ s.inner?, ∀ K K', .ok K' ∈ t.replay K → K' ≤ K'' →
        t.replay K'' = [.ok K''])
      (h : .ok K' ∈ replayFrom .front (ts.map Slot.ofType) K) (hle : K' ≤ K'') :
      replayFrom .front (ts.map Slot.ofType) K'' = [.ok K''] := by
    obtain ⟨-, hall⟩ := replayed_of_mem_replayFrom
      (fun s _ _ _ => s.le_of_mem_replay fun t _ _ _ => t.le_of_mem_replay) h
    refine replayFrom_of_settled ?_
    intro s hs
    obtain ⟨K₁, K₂, hs₂, hle₂⟩ := hall s hs
    exact Slot.replay_of_mem_replay (hts s hs) hs₂ (Shape.le_trans hle₂ hle)
  induction t using TypeExpr.inductSlots generalizing K K' with
  | named | var | spread | spreadMap => rfl
  | packed ts => exact settle_of_isSome (Shape.isSome_of_le hle (isSome_of_mem_settle h))
  | apply head args hhead hargs =>
    rw [TypeExpr.replay_apply, ok_mem_andThen] at h
    obtain ⟨K₁, h₁, h⟩ := h
    have hle₁ : K₁ ≤ K' := (replayed_of_mem_replayFrom
      (fun s _ _ _ => s.le_of_mem_replay fun t _ _ _ => t.le_of_mem_replay) h).1
    rw [TypeExpr.replay_apply, hhead h₁ (Shape.le_trans hle₁ hle), andThen_ok]
    exact row (fun s hs t ht _ _ => hargs s hs t ht) h hle
  | union members hmembers =>
    rw [TypeExpr.replay_union] at h ⊢
    exact row (fun s hs t ht _ _ => hmembers s hs t ht) h hle
  | arrow params result hparams hresult =>
    rw [TypeExpr.replay_arrow, ok_mem_andThen] at h
    obtain ⟨K₁, h₁, h⟩ := h
    have hle₁ := result.le_of_mem_replay h
    rw [TypeExpr.replay_arrow, row (fun s hs t ht _ _ => hparams s hs t ht) h₁
      (Shape.le_trans hle₁ hle), andThen_ok]
    exact hresult h hle

theorem Slot.replay_ne_nil_of_inner {s : Slot} (h : ∀ t ∈ s.inner?, ∀ K, t.replay K ≠ [])
    (K : Shape) : s.replay K ≠ [] := by
  cases s with
  | single t => exact h t rfl K
  | spread ts =>
    simp only [Slot.replay, Shape.settle]
    split <;> simp
  | mapped ctor ts =>
    simp only [Slot.replay, Shape.settleMapped]
    split
    · simp
    · exact h ctor rfl K
    · simp

theorem TypeExpr.replay_ne_nil (t : TypeExpr) (K : Shape) : t.replay K ≠ [] := by
  induction t using TypeExpr.inductSlots generalizing K with
  | named | var | spread | spreadMap => simp [replay]
  | packed ts =>
    simp only [replay, Shape.settle]
    split <;> simp
  | apply head args hhead hargs =>
    rw [replay_apply]
    exact andThen_ne_nil (hhead K)
      (replayFrom_ne_nil fun s hs => s.replay_ne_nil_of_inner (hargs s hs))
  | union members hmembers =>
    rw [replay_union]
    exact replayFrom_ne_nil (fun s hs => s.replay_ne_nil_of_inner (hmembers s hs)) K
  | arrow params result hparams hresult =>
    rw [replay_arrow]
    exact andThen_ne_nil
      (replayFrom_ne_nil (fun s hs => s.replay_ne_nil_of_inner (hparams s hs)) K) hresult

/-- A replay has an outcome. -/
theorem ParameterList.replay_ne_nil (list : ParameterList) : list.replay ≠ [] :=
  replayFrom_ne_nil (fun s _ => s.replay_ne_nil_of_inner fun t _ => t.replay_ne_nil) .empty

/-- Where no tuple variable is mentioned, there is nothing to learn. -/
theorem TypeExpr.replay_of_tupleMentions {t : TypeExpr} (h : t.tupleMentions = []) :
    t.replay K = [.ok K] := by
  -- A list without mentions has no spliced elements, so that its slots are all single.
  have row {ts : List TypeExpr} (hts : ts.flatMap tupleMentions = [])
      (ih : ∀ t ∈ ts, t.tupleMentions = [] → t.replay K = [.ok K]) :
      replayFrom .front (ts.map Slot.ofType) K = [.ok K] := by
    refine replayFrom_of_settled ?_
    intro s hs
    obtain ⟨t, ht, rfl⟩ := List.mem_map.1 hs
    have hnil := List.flatMap_eq_nil_iff.1 hts t ht
    cases t with
    | spread | spreadMap => simp at hnil
    | _ => exact ⟨rfl, ih _ ht hnil⟩
  induction t using TypeExpr.induct with
  | named | var | spread | spreadMap => rfl
  | packed ts => simp at h
  | apply head args hhead hargs =>
    rw [tupleMentions_apply, List.append_eq_nil_iff] at h
    rw [replay_apply, hhead h.1, andThen_ok, row h.2 hargs]
  | union members hmembers =>
    rw [tupleMentions_union] at h
    rw [replay_union, row h hmembers]
  | arrow params result hparams hresult =>
    rw [tupleMentions_arrow, List.append_eq_nil_iff] at h
    rw [replay_arrow, row h.1 hparams, andThen_ok, hresult h.2]

end types

end Polyadic
