import Polyadic.Proofs.Rules

/-! # What a match returns

`x.value?` is what an attempt returns, without the events on its way and without the reason of a
failure.  The equations below say what a match returns in terms of what its parts return, so that
two matches can be compared which take different steps and fail for different reasons.

Slots that take one argument each are matched one after another from either end of a row
(`rowValue_singles_front`, `rowValue_singles_back`): from the back, the last one comes first. -/

namespace Polyadic

open Attempt

namespace Attempt

variable {α β : Type}

/-- What an attempt returns. -/
def value? (x : Attempt α) : Option α :=
  match x.result with
  | .ok a => some a
  | .error _ => none

theorem value?_eq_some_iff {x : Attempt α} {a : α} : x.value? = some a ↔ x.result = .ok a := by
  unfold value?
  cases x.result <;> simp

theorem value?_eq_some {x : Attempt α} {a : α} (h : x.result = .ok a) : x.value? = some a :=
  value?_eq_some_iff.2 h

theorem value?_eq_none {x : Attempt α} {e : Failure} (h : x.result = .error e) :
    x.value? = none := by rw [value?, h]

@[simp] theorem value?_pure (a : α) : (pure a : Attempt α).value? = some a := rfl

@[simp] theorem value?_fail (cause : Cause) : (fail cause : Attempt α).value? = none := rfl

@[simp] theorem value?_log (e : Event) : (log e).value? = some () := rfl

@[simp] theorem value?_mismatch (expected actual : TypeExpr) :
    (mismatch expected actual : Attempt α).value? = none := rfl

@[simp] theorem value?_bind (x : Attempt α) (f : α → Attempt β) :
    (x >>= f).value? = x.value?.bind fun a => (f a).value? := by
  cases h : x.result with
  | ok a =>
    rw [value?_eq_some h, bind_of_ok h]
    rfl
  | error e =>
    rw [value?_eq_none h, bind_of_error h]
    rfl

@[simp] theorem value?_map (f : α → β) (x : Attempt α) : (f <$> x).value? = x.value?.map f := by
  unfold value?
  rw [result_map]
  cases x.result <;> rfl

@[simp] theorem value?_under (segment : Segment) (x : Attempt α) :
    (x.under segment).value? = x.value? := by
  unfold value?
  rw [result_under]
  cases x.result <;> rfl

@[simp] theorem value?_recast (f : Cause → Cause) (x : Attempt α) :
    (x.recast f).value? = x.value? := by
  unfold value?
  rw [result_recast]
  cases x.result <;> rfl

@[simp] theorem value?_ite (p : Prop) [Decidable p] (x y : Attempt α) :
    (if p then x else y).value? = if p then x.value? else y.value? := by
  split <;> rfl

end Attempt

/-! ### Assigning -/

section assigning

variable {v : TypeVar} {t previous : TypeExpr} {ts : TupleVar} {contents known : List TypeExpr}
  {b : Binding}

theorem value?_assignScalar_fresh (h : b.scalar? v = none) :
    (assignScalar v t b).value? = some (b.bindScalar v t) := by
  rw [assignScalar, h]
  rfl

theorem value?_assignScalar_known (h : b.scalar? v = some previous) :
    (assignScalar v t b).value? = if previous = t then some b else none := by
  rw [assignScalar, h]
  simp

theorem value?_assignTuple_fresh (h : b.tuple? ts = none) :
    (assignTuple ts contents b).value? = some (b.bindTuple ts contents) := by
  rw [assignTuple, h]
  rfl

theorem value?_assignTuple_known (h : b.tuple? ts = some known) :
    (assignTuple ts contents b).value? = if known = contents then some b else none := by
  rw [assignTuple, h]
  simp

end assigning

/-! ### Pairs of types -/

section pairs

variable {place : Nat → Segment} {b : Binding}

/-- Matches pairs of types one after another. -/
def matchPairs : List (TypeExpr × TypeExpr) → Binding → Option Binding
  | [], b => some b
  | (f, a) :: rest, b => (unify f a b).value?.bind (matchPairs rest)

@[simp] theorem value?_unifyEach (i : Nat) (formals actuals : List TypeExpr) (b : Binding) :
    (unifyEach unify place i formals actuals b).value? = matchPairs (formals.zip actuals) b := by
  induction formals generalizing i actuals b with
  | nil => rfl
  | cons f fs ih =>
    cases actuals with
    | nil => rfl
    | cons a as => simp [unifyEach, matchPairs, ih]

theorem value?_matchSlot_single (f : TypeExpr) (run : Run) (b : Binding) :
    (matchSlot unify place (.single f) run b).value? = matchPairs ([f].zip run.types) b :=
  value?_unifyEach _ _ _ _

theorem value?_matchSlot_spread (ts : TupleVar) (run : Run) (b : Binding) :
    (matchSlot unify place (.spread ts) run b).value? = (assignTuple ts run.types b).value? :=
  value?_under _ _

theorem value?_matchSlot_known {ctor : TypeExpr} {ts : TupleVar} {contents : List TypeExpr}
    (h : b.tuple? ts = some contents) (run : Run) :
    (matchSlot unify place (.mapped ctor ts) run b).value? =
      matchPairs ((TypeExpr.mapOver ctor contents).zip run.types) b := by
  rw [matchSlot, h]
  simp

theorem value?_matchSlot_open {ctor : TypeExpr} {ts : TupleVar} (h : b.tuple? ts = none)
    (run : Run) : (matchSlot unify place (.mapped ctor ts) run b).value? =
      (stripEach unify place ctor ts run.start run.types b).value?.bind fun b' =>
        (assignTuple ts (run.types.filterMap fun t => t.unary?.map Prod.snd) b').value? := by
  rw [matchSlot, h]
  simp

end pairs

/-! ### Rows of slots -/

section rows

variable {place : Nat → Segment} {slots rest : List Slot} {slot : Slot} {b : Binding}
  {w : Window}

/-- The slots that are left are matched against the arguments that are left. -/
def rowValue (place : Nat → Segment) (w : Window) : Option Binding :=
  (takeSlots unify place w.slots.length w).value?.bind fun w =>
    if w.run.types.isEmpty then some w.binding else none

theorem value?_matchList (slots : List Slot) (arguments : List TypeExpr) (b : Binding) :
    (matchList unify place slots arguments b).value? =
      if (listArity b slots).Admits arguments.length
      then rowValue place (.whole slots arguments b) else none := by
  simp [matchList, wrongArity, rowValue, Window.whole]

@[simp] theorem rowValue_nil (side : Side) (run : Run) (b : Binding) :
    rowValue place ⟨side, [], run, b⟩ = if run.types.isEmpty then some b else none := rfl

theorem rowValue_front
    (h : nextMove (fun s => !s.isOpen w.binding) w.side w.slots = .front slot rest) :
    rowValue place w =
      if w.run.length < slot.width w.binding then none
      else (matchSlot unify place slot (w.run.first (slot.width w.binding)) w.binding).value?.bind
        fun b => rowValue place ⟨.front, rest, w.run.after (slot.width w.binding), b⟩ := by
  have hlength : w.slots.length = rest.length + 1 := by simp [(nextMove_eq_front h).1]
  rw [rowValue, hlength, takeSlots, takeSlot, h]
  by_cases hshort : w.run.length < slot.width w.binding <;>
    simp [hshort, wrongArity, rowValue, Option.bind_assoc]

theorem rowValue_back
    (h : nextMove (fun s => !s.isOpen w.binding) w.side w.slots = .back rest slot) :
    rowValue place w =
      if w.run.length < slot.width w.binding then none
      else (matchSlot unify place slot
          (w.run.after (w.run.length - slot.width w.binding)) w.binding).value?.bind
        fun b => rowValue place
          ⟨.back, rest, w.run.first (w.run.length - slot.width w.binding), b⟩ := by
  have hlength : w.slots.length = rest.length + 1 := by simp [(nextMove_eq_back h).1]
  rw [rowValue, hlength, takeSlots, takeSlot, h]
  by_cases hshort : w.run.length < slot.width w.binding <;>
    simp [hshort, wrongArity, rowValue, Option.bind_assoc]

theorem rowValue_stuck
    (h : nextMove (fun s => !s.isOpen w.binding) w.side w.slots = .stuck slot rest) :
    rowValue place w = (evenShare w.slots w.run w.binding).value?.bind fun width =>
      (matchSlot unify place slot (w.run.first width) w.binding).value?.bind
        fun b => rowValue place ⟨.front, rest, w.run.after width, b⟩ := by
  have hlength : w.slots.length = rest.length + 1 := by simp [(nextMove_eq_stuck h).1]
  rw [rowValue, hlength, takeSlots, takeSlot, h]
  simp [rowValue, Option.bind_assoc]

/-- The even share is a matter of lengths alone. -/
theorem value?_evenShare (slots : List Slot) (run : Run) (b : Binding) :
    (evenShare slots run b).value? =
      if 1 < (openTuples b slots).length then none
      else if run.length < requiredLength b slots then none
      else if (run.length - requiredLength b slots) % openCount b slots ≠ 0 then none
      else some ((run.length - requiredLength b slots) / openCount b slots) := by
  simp [evenShare, shareEvenly, wrongArity]

end rows

/-! ### Which end is taken -/

section ends

variable {α : Type} {known : α → Bool} {side : Side} {slots rest : List α} {slot : α}

theorem nextMove_front_of_known (h : known slot = true) :
    nextMove known .front (slot :: rest) = .front slot rest := by
  simp [nextMove, h]

theorem nextMove_back_of_known (h : known slot = true) :
    nextMove known .back (rest ++ [slot]) = .back rest slot := by
  obtain ⟨a, as, heq⟩ := List.exists_cons_of_ne_nil (List.concat_ne_nil slot rest)
  have hlast : (a :: as).getLast (List.cons_ne_nil a as) = slot := by simp [← heq]
  have hinit : (a :: as).dropLast = rest := by simp [← heq]
  rw [heq, nextMove]
  · rw [hlast, hinit]
  · rw [hlast, h]

theorem nextMove_stuck_of_unknown (h : known slot = false)
    (hlast : ∀ a ∈ (slot :: rest).getLast?, known a = false) :
    nextMove known side (slot :: rest) = .stuck slot rest := by
  have hlast := hlast _ (List.getLast?_eq_some_getLast (List.cons_ne_nil slot rest))
  cases side <;> simp only [nextMove, h, hlast]

/-- A row that is not known at one of its ends is taken from the other one, if at all. -/
theorem nextMove_eq_of_unknown (h : (∀ a ∈ slots.head?, known a = false) ∨
      ∀ a ∈ slots.getLast?, known a = false) (side side' : Side) :
    nextMove known side slots = nextMove known side' slots := by
  cases slots with
  | nil => rfl
  | cons a as =>
    rw [List.head?_cons, List.getLast?_eq_some_getLast (List.cons_ne_nil a as)] at h
    have h : known a = false ∨ known ((a :: as).getLast (List.cons_ne_nil a as)) = false := by
      simpa using h
    cases side <;> cases side' <;> rcases h with h | h <;> simp only [nextMove, h] <;>
      split <;> simp_all

theorem side_of_nextMove_front (h : nextMove known side slots = .front slot rest) :
    side = .front ∨ ∀ a ∈ slots.getLast?, known a = false := by
  cases slots with
  | nil => cases h
  | cons a as =>
    rw [List.getLast?_eq_some_getLast (List.cons_ne_nil a as)]
    simp only [nextMove] at h
    split at h <;> simp_all

theorem side_of_nextMove_back (h : nextMove known side slots = .back rest slot) :
    side = .back ∨ ∀ a ∈ slots.head?, known a = false := by
  cases slots with
  | nil => cases h
  | cons a as =>
    simp only [nextMove] at h
    split at h <;> simp_all

end ends

section moves

variable {place : Nat → Segment} {slot : Slot} {rest : List Slot} {run : Run} {b : Binding}

theorem rowValue_eq_of_nextMove {side side' : Side} {slots : List Slot} {run : Run}
    (h : nextMove (fun s => !s.isOpen b) side slots = nextMove (fun s => !s.isOpen b) side' slots) :
    rowValue place ⟨side, slots, run, b⟩ = rowValue place ⟨side', slots, run, b⟩ := by
  cases hm : nextMove (fun s => !s.isOpen b) side' slots with
  | done =>
    obtain rfl := nextMove_eq_done hm
    rfl
  | front slot rest => rw [rowValue_front (h.trans hm), rowValue_front hm]
  | back rest slot => rw [rowValue_back (h.trans hm), rowValue_back hm]
  | stuck slot rest => rw [rowValue_stuck (h.trans hm), rowValue_stuck hm]

theorem rowValue_front_of_known (h : slot.isOpen b = false) :
    rowValue place ⟨.front, slot :: rest, run, b⟩ =
      if run.length < slot.width b then none
      else (matchSlot unify place slot (run.first (slot.width b)) b).value?.bind
        fun b' => rowValue place ⟨.front, rest, run.after (slot.width b), b'⟩ :=
  rowValue_front (nextMove_front_of_known (by simp [h]))

theorem rowValue_back_of_known (h : slot.isOpen b = false) :
    rowValue place ⟨.back, rest ++ [slot], run, b⟩ =
      if run.length < slot.width b then none
      else (matchSlot unify place slot (run.after (run.length - slot.width b)) b).value?.bind
        fun b' => rowValue place ⟨.back, rest, run.first (run.length - slot.width b), b'⟩ :=
  rowValue_back (nextMove_back_of_known (by simp [h]))

theorem rowValue_of_open {side : Side} (h : slot.isOpen b = true)
    (hlast : ∀ s ∈ (slot :: rest).getLast?, (!s.isOpen b) = false) :
    rowValue place ⟨side, slot :: rest, run, b⟩ =
      (evenShare (slot :: rest) run b).value?.bind fun width =>
        (matchSlot unify place slot (run.first width) b).value?.bind
          fun b' => rowValue place ⟨.front, rest, run.after width, b'⟩ :=
  rowValue_stuck (nextMove_stuck_of_unknown (by simp [h]) hlast)

variable {side : Side} {slots : List Slot} {i : Nat} {types others : List TypeExpr}

theorem rowValue_front_append
    (h : nextMove (fun s => !s.isOpen b) side slots = .front slot rest)
    (htypes : types.length = slot.width b) :
    rowValue place ⟨side, slots, ⟨i, types ++ others⟩, b⟩ =
      (matchSlot unify place slot ⟨i, types⟩ b).value?.bind fun b' =>
        rowValue place ⟨.front, rest, ⟨i + types.length, others⟩, b'⟩ := by
  rw [rowValue_front h]
  simp only [← htypes, Run.first_append, Run.after_append]
  exact if_neg (by simp [Run.length])

theorem rowValue_back_append
    (h : nextMove (fun s => !s.isOpen b) side slots = .back rest slot)
    (htypes : types.length = slot.width b) :
    rowValue place ⟨side, slots, ⟨i, others ++ types⟩, b⟩ =
      (matchSlot unify place slot ⟨i + others.length, types⟩ b).value?.bind fun b' =>
        rowValue place ⟨.back, rest, ⟨i, others⟩, b'⟩ := by
  have hcut : Run.length ⟨i, others ++ types⟩ - types.length = others.length := by
    simp [Run.length]
  rw [rowValue_back h]
  simp only [← htypes, hcut, Run.first_append, Run.after_append]
  exact if_neg (by simp [Run.length])

theorem rowValue_stuck_append
    (h : nextMove (fun s => !s.isOpen b) side slots = .stuck slot rest)
    (htypes : ∀ width, (evenShare slots ⟨i, types ++ others⟩ b).value? = some width →
      width = types.length) :
    rowValue place ⟨side, slots, ⟨i, types ++ others⟩, b⟩ =
      (evenShare slots ⟨i, types ++ others⟩ b).value?.bind fun _ =>
        (matchSlot unify place slot ⟨i, types⟩ b).value?.bind fun b' =>
          rowValue place ⟨.front, rest, ⟨i + types.length, others⟩, b'⟩ := by
  rw [rowValue_stuck h]
  refine Option.bind_congr fun width hwidth => ?_
  rw [htypes width hwidth, Run.first_append, Run.after_append]

end moves

/-! ### Slots that take one argument each -/

section singles

variable {place : Nat → Segment} {rest : List Slot} {b : Binding}

theorem Run.after_after (run : Run) (m n : Nat) : (run.after m).after n = run.after (m + n) := by
  simp [Run.after, Nat.add_assoc]

theorem Run.first_first {run : Run} {m n : Nat} (h : n ≤ m) :
    (run.first m).first n = run.first n := by
  simp [Run.first, List.take_take, Nat.min_eq_left h]

/-- Single slots at the front are matched from the first one on. -/
theorem rowValue_singles_front (types : List TypeExpr) (run : Run) :
    rowValue place ⟨.front, types.map .single ++ rest, run, b⟩ =
      if run.length < types.length then none
      else (matchPairs (types.zip (run.first types.length).types) b).bind
        fun b' => rowValue place ⟨.front, rest, run.after types.length, b'⟩ := by
  induction types generalizing run b with
  | nil => simp [matchPairs, Run.after]
  | cons f fs ih =>
    rw [List.map_cons, List.cons_append, rowValue_front_of_known rfl]
    cases hrun : run.types with
    | nil => simp [Run.length, hrun]
    | cons a as =>
      have hfirst : (run.first 1).types = [a] := by simp [Run.first, hrun]
      have hlength : run.length = as.length + 1 := by simp [Run.length, hrun]
      have htaken : (run.first (fs.length + 1)).types =
          a :: ((run.after 1).first fs.length).types := by
        simp [Run.first, Run.after, hrun]
      simp only [Slot.width_single, value?_matchSlot_single, hfirst, List.zip_cons_cons,
        List.zip_nil_left, ih, Run.length_after, hlength, List.length_cons, htaken, matchPairs,
        Option.bind_assoc]
      by_cases hshort : as.length < fs.length
      · simp [hshort]
      · simp [hshort, Run.after_after, Nat.add_comm 1]

/-- Single slots at the back are matched from the last one on. -/
theorem rowValue_singles_back (types : List TypeExpr) (run : Run) :
    rowValue place ⟨.back, rest ++ (types.map .single).reverse, run, b⟩ =
      if run.length < types.length then none
      else (matchPairs (types.zip (run.after (run.length - types.length)).types.reverse) b).bind
        fun b' => rowValue place ⟨.back, rest, run.first (run.length - types.length), b'⟩ := by
  induction types generalizing run b with
  | nil => simp [matchPairs, Run.first, Run.length]
  | cons f fs ih =>
    rw [List.map_cons, List.reverse_cons, ← List.append_assoc, rowValue_back_of_known rfl]
    cases hrun : run.types.reverse with
    | nil => simp [Run.length, List.reverse_eq_nil_iff.1 hrun]
    | cons a as =>
      have htypes : run.types = as.reverse ++ [a] := by simp [← List.reverse_cons, ← hrun]
      have hlength : run.length = as.length + 1 := by simp [Run.length, htypes]
      have hafter : (run.after as.length).types = [a] := by simp [Run.after, htypes]
      have hfirst : (run.first as.length).types = as.reverse := by simp [Run.first, htypes]
      have hrest : (run.first as.length).length = as.length := by simp [Run.length, hfirst]
      have htaken : (run.after (as.length - fs.length)).types.reverse =
          a :: ((run.first as.length).after (as.length - fs.length)).types.reverse := by
        simp [Run.after, hfirst, htypes, List.drop_append_of_le_length]
      simp only [Slot.width_single, value?_matchSlot_single, hlength, Nat.add_sub_cancel, hafter,
        ih, hrest, List.length_cons, Nat.add_sub_add_right, htaken, List.zip_cons_cons,
        List.zip_nil_left, matchPairs, Option.bind_assoc]
      by_cases hshort : as.length < fs.length
      · simp [hshort]
      · simp [hshort, Run.first_first (Nat.sub_le _ _)]

theorem requiredLength_singles (types : List TypeExpr) :
    requiredLength b (types.map .single) = types.length := by
  induction types with
  | nil => rfl
  | cons t ts ih =>
    rw [List.map_cons, requiredLength, Slot.width_single, ih, List.length_cons, Nat.add_comm]

theorem filter_isOpen_singles (types : List TypeExpr) :
    (types.map .single).filter (Slot.isOpen b) = [] := by
  simp [Slot.isOpen, Slot.length?]

theorem listArity_singles (types : List TypeExpr) :
    listArity b (types.map .single) = .exactly types.length := by
  have hopen : openCount b (types.map .single) = 0 := by
    rw [openCount, List.countP_eq_length_filter, filter_isOpen_singles, List.length_nil]
  rw [listArity, if_pos hopen, requiredLength_singles]

theorem takeSlot_single_front {u : Unifier} (f a : TypeExpr) (i : Nat) (as : List TypeExpr) :
    takeSlot u place ⟨.front, .single f :: rest, ⟨i, a :: as⟩, b⟩ = do
      let b ← (u f a b).under (place i)
      return ⟨.front, rest, ⟨i + 1, as⟩, b⟩ := by
  rw [takeSlot, nextMove_front_of_known rfl]
  simp [Run.length, Run.first, Run.after, matchSlot, unifyEach]

/-- Leading single slots are matched from the first one on. -/
theorem takeSlots_singles_front {u : Unifier} {formals actuals : List TypeExpr}
    (h : actuals.length = formals.length) (n i : Nat) (others : List TypeExpr) (b : Binding) :
    takeSlots u place (formals.length + n)
        ⟨.front, formals.map .single ++ rest, ⟨i, actuals ++ others⟩, b⟩ =
      unifyEach u place i formals actuals b >>= fun b =>
        takeSlots u place n ⟨.front, rest, ⟨i + formals.length, others⟩, b⟩ := by
  induction formals generalizing actuals i b with
  | nil =>
    obtain rfl := List.eq_nil_of_length_eq_zero h
    simp [unifyEach]
  | cons f fs ih =>
    obtain _ | ⟨a, as⟩ := actuals
    · cases h
    · rw [List.length_cons, Nat.add_right_comm, takeSlots, List.map_cons, List.cons_append,
        List.cons_append, takeSlot_single_front, unifyEach]
      simp only [bind_assoc, pure_bind]
      congr
      funext b
      rw [ih (by simpa using h), Nat.add_right_comm, Nat.add_assoc i]

/-- A row of single slots is a list of types that are matched one by one. -/
theorem matchList_singles {u : Unifier} (types arguments : List TypeExpr) (b : Binding) :
    matchList u place (types.map .single) arguments b =
      if types.length = arguments.length then unifyEach u place 0 types arguments b
      else wrongArity b (types.map .single) arguments.length := by
  have hfit : (Arity.exactly types.length).Admits arguments.length ↔
      types.length = arguments.length := eq_comm
  rw [matchList, listArity_singles, List.length_map]
  by_cases h : types.length = arguments.length
  · have htaken := @takeSlots_singles_front place [] u types arguments h.symm 0 0 [] b
    simp only [List.append_nil, Nat.add_zero] at htaken
    rw [if_pos (hfit.2 h), if_pos h, Window.whole, htaken]
    simp [takeSlots]
  · rw [if_neg (mt hfit.1 h), if_neg h]

theorem value?_matchList_singles (types arguments : List TypeExpr) :
    (matchList unify place (types.map .single) arguments b).value? =
      if types.length = arguments.length then matchPairs (types.zip arguments) b else none := by
  rw [matchList_singles]
  split <;> simp [wrongArity]

end singles

/-! ### Two types -/

section types

variable {b : Binding}

theorem value?_unify_var (v : TypeVar) (a : TypeExpr) :
    (unify (.var v) a b).value? = (assignScalar v a b).value? := by
  rw [unify_eq, unifyStep]

theorem value?_unify_packed (ts : TupleVar) (a : TypeExpr) :
    (unify (.packed ts) a b).value? = a.tupleElements?.bind fun elements =>
      (matchList unify .element [.spread ts] elements b).value? := by
  rw [unify_eq, unifyStep]
  cases a.tupleElements? <;> simp

theorem value?_unify_named (name : String) (a : TypeExpr) :
    (unify (.named name) a b).value? = if .named name = a then some b else none := by
  rw [unify_eq]
  cases a <;> simp [unifyStep]

theorem value?_unify_apply (head head' : TypeExpr) (args args' : List TypeExpr) :
    (unify (.apply head args) (.apply head' args') b).value? =
      (unify head head' b).value?.bind fun b =>
        (matchList unify .arg (args.map Slot.ofType) args' b).value? := by
  rw [unify_eq]
  simp [unifyStep]

theorem value?_unify_union (members members' : List TypeExpr) :
    (unify (.union members) (.union members') b).value? =
      (matchList unify .member (members.map Slot.ofType) members' b).value? := by
  rw [unify_eq]
  simp [unifyStep]

theorem value?_unify_arrow (params params' : List TypeExpr) (result result' : TypeExpr) :
    (unify (.arrow params result) (.arrow params' result') b).value? =
      (matchList unify .callableParam (params.map Slot.ofType) params' b).value?.bind fun b =>
        (unify result result' b).value? := by
  rw [unify_eq]
  simp [unifyStep]

end types

/-! ### Ground types -/

section ground

variable {place : Nat → Segment} {b : Binding}

theorem matchPairs_eq_ite {formals actuals : List TypeExpr}
    (h : ∀ f ∈ formals, ∀ a ∈ actuals, (unify f a b).value? = if f = a then some b else none)
    (hlength : formals.length = actuals.length) :
    matchPairs (formals.zip actuals) b = if formals = actuals then some b else none := by
  induction formals generalizing actuals with
  | nil =>
    obtain rfl := List.eq_nil_of_length_eq_zero hlength.symm
    rfl
  | cons f fs ih =>
    obtain _ | ⟨a, as⟩ := actuals
    · cases hlength
    · have hrest : matchPairs (fs.zip as) b = if fs = as then some b else none :=
        ih (fun f hf a ha => h f (by simp [hf]) a (by simp [ha])) (by simpa using hlength)
      rw [List.zip_cons_cons, matchPairs, h f (by simp) a (by simp)]
      by_cases hfa : f = a <;> simp [hfa, hrest]

theorem value?_matchList_eq_ite {formals actuals : List TypeExpr}
    (hground : ∀ f ∈ formals, f.IsGround)
    (h : ∀ f ∈ formals, ∀ a ∈ actuals, (unify f a b).value? = if f = a then some b else none) :
    (matchList unify place (formals.map Slot.ofType) actuals b).value? =
      if formals = actuals then some b else none := by
  have hslots : formals.map Slot.ofType = formals.map .single :=
    List.map_congr_left fun f hf => Slot.ofType_eq_single (hground f hf).isSpliced
  rw [hslots, value?_matchList_singles]
  by_cases hlength : formals.length = actuals.length
  · rw [if_pos hlength, matchPairs_eq_ite h hlength]
  · have hne : formals ≠ actuals := fun heq => hlength (congrArg _ heq)
    rw [if_neg hlength, if_neg hne]

/-- A ground type matches itself and no other ground type, and binds nothing. -/
theorem value?_unify_ground {f a : TypeExpr} (hf : f.IsGround) (ha : a.IsGround) :
    (unify f a b).value? = if f = a then some b else none := by
  induction f using TypeExpr.induct generalizing a with
  | named name => exact value?_unify_named name a
  | var | packed | spread | spreadMap => simp at hf
  | apply head args hhead hargs =>
    rw [TypeExpr.isGround_apply] at hf
    cases a with
    | apply head' args' =>
      rw [TypeExpr.isGround_apply] at ha
      have hrow : (matchList unify .arg (args.map Slot.ofType) args' b).value? =
          if args = args' then some b else none :=
        value?_matchList_eq_ite hf.2 fun f h a h' => hargs f h (hf.2 f h) (ha.2 a h')
      rw [value?_unify_apply, hhead hf.1 ha.1]
      by_cases heq : head = head' <;> simp [heq, hrow]
    | packed => simp at ha
    | _ => simp [unify_eq, unifyStep]
  | union members hmembers =>
    rw [TypeExpr.isGround_union] at hf
    cases a with
    | union members' =>
      rw [TypeExpr.isGround_union] at ha
      rw [value?_unify_union, value?_matchList_eq_ite hf fun f h a h' =>
        hmembers f h (hf f h) (ha a h')]
      simp
    | _ => simp [unify_eq, unifyStep]
  | arrow params result hparams hresult =>
    rw [TypeExpr.isGround_arrow] at hf
    cases a with
    | arrow params' result' =>
      rw [TypeExpr.isGround_arrow] at ha
      rw [value?_unify_arrow, value?_matchList_eq_ite hf.1 fun f h a h' =>
        hparams f h (hf.1 f h) (ha.1 a h')]
      by_cases heq : params = params' <;> simp [heq, hresult hf.2 ha.2]
    | _ => simp [unify_eq, unifyStep]

/-- Of applications to the same ground type, only the constructors matter. -/
theorem value?_unify_unary {ctor head x : TypeExpr} (hx : x.IsGround) :
    (unify (.apply ctor [x]) (.apply head [x]) b).value? = (unify ctor head b).value? := by
  have hrow (b : Binding) : (matchList unify .arg ([x].map Slot.ofType) [x] b).value? = some b := by
    rw [value?_matchList_eq_ite (List.forall_mem_singleton.2 hx), if_pos rfl]
    simpa using value?_unify_ground hx hx
  simp only [value?_unify_apply, hrow, Option.bind_fun_some]

theorem matchPairs_ground {formals actuals : List TypeExpr} (hformals : ∀ f ∈ formals, f.IsGround)
    (hactuals : ∀ a ∈ actuals, a.IsGround) (hlength : formals.length = actuals.length) :
    matchPairs (formals.zip actuals) b = if formals = actuals then some b else none :=
  matchPairs_eq_ite (fun f hf a ha => value?_unify_ground (hformals f hf) (hactuals a ha)) hlength

end ground

end Polyadic
