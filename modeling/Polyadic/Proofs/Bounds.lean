import Polyadic.Proofs.Lengths
import Polyadic.Proofs.Rounds
import Polyadic.Proofs.Values

/-! # Within bounds

The loop over positions (`matchWithin`) never comes to a breach, and does what `matchList` does.  At
the head of each of its loops the positions are in order and within the row and its arguments, and
what is left between them is the window that `matchList` has (`Cursor.window`); so a position, a
part or a number that the loop uses can be wrong only if the strategy is, and `nextMove` says where
it is not.  `sweep_bind` is the lemma for the slots at one end, `solveFirst_bind` that for an open
slot, and `rounds_eq` that for the whole loop. -/

namespace Polyadic.Rounds

open Attempt

/-! ### Attempts without a breach -/

section bind

variable {α β : Type} {x : Attempt α} {f : α → Checked β} {g : α → Attempt β}

/-- What follows is without a breach if it is so for the values that may come before. -/
theorem bind_ofAttempt_of_meets {post : α → Prop} {exc : Failure → Prop} (hx : x.Meets post exc)
    (h : ∀ a, post a → f a = ofAttempt (g a)) : ofAttempt x >>= f = ofAttempt (x >>= g) := by
  refine ExceptT.ext ?_
  rw [ofAttempt_bind, run_ofAttempt_bind, run_ofAttempt_bind]
  exact hx.bind_congr fun a ha => congrArg ExceptT.run (h a ha)

theorem bind_ofAttempt (h : ∀ a, f a = ofAttempt (g a)) :
    ofAttempt x >>= f = ofAttempt (x >>= g) := by
  have hx : x.Meets (fun _ => True) fun _ => True :=
    meets_iff.2 ⟨fun _ _ => trivial, fun _ _ => trivial⟩
  exact bind_ofAttempt_of_meets hx fun a _ => h a

end bind

/-! ### Single slots -/

section

variable {u : Unifier} {place : Nat → Segment} {slot : Slot} {segment : Run} {b : Binding}

theorem matchSegment_eq {len : Nat} (hlen : slot.length? b = some len)
    (h : segment.length = len) :
    matchSegment u place slot segment b = ofAttempt (matchSlot u place slot segment b) := by
  obtain ⟨i, types⟩ := segment
  cases slot with
  | single formal =>
    cases hlen
    obtain ⟨a, rfl⟩ : ∃ a, types = [a] := List.length_eq_one_iff.1 h
    simp [matchSegment, element_of_lt, matchSlot, unifyEach]
  | spread ts => rfl
  | mapped ctor ts =>
    obtain ⟨contents, hts, rfl⟩ :
        ∃ contents, b.tuple? ts = some contents ∧ contents.length = len := by
      simpa [Slot.length?] using hlen
    have hpaired : (TypeExpr.mapOver ctor contents).length = Run.length ⟨i, types⟩ := by
      rw [TypeExpr.length_mapOver, h]
    rw [matchSegment, matchSlot, hts]
    refine bind_ofAttempt fun _ => ?_
    rw [Option.getD_some, require_pos hpaired, pure_bind]

theorem strip_eq {ctor : TypeExpr} {ts : TupleVar} (i : Nat) (contents types : List TypeExpr)
    (b : Binding) :
    strip u place ctor ts i contents types b = ofAttempt do
      let b ← stripEach u place ctor ts i types b
      return (contents ++ types.filterMap fun t => t.unary?.map Prod.snd, b) := by
  induction types generalizing i contents b with
  | nil => simp [strip, stripEach, ofAttempt_pure]
  | cons a as ih =>
    have hclash : a.unary? = none →
        ofAttempt ((mismatch (.apply ctor [.spread ts]) a).under (place i)) = ofAttempt do
          let b ← stripEach u place ctor ts i (a :: as) b
          return (contents ++ (a :: as).filterMap fun t => t.unary?.map Prod.snd, b) := by
      intro h
      rw [stripEach, h]
      rfl
    cases a with
    | apply head args =>
      by_cases hargs : args.length = 1
      · obtain ⟨operand, rfl⟩ := List.length_eq_one_iff.1 hargs
        rw [strip, if_pos hargs, stripEach, bind_assoc]
        refine bind_ofAttempt fun b => ?_
        rw [element_of_lt (by simp), pure_bind, ih]
        simp [TypeExpr.unary?]
      · rw [strip, if_neg hargs]
        refine hclash (Option.eq_none_iff_forall_ne_some.2 fun p hp => hargs ?_)
        obtain ⟨-, rfl⟩ := TypeExpr.apply.inj (TypeExpr.unary?_eq_some_iff.1 hp)
        rfl
    | _ => exact hclash rfl

theorem solveOpen_eq (h : slot.isOpen b = true) :
    solveOpen u place slot segment b = ofAttempt (matchSlot u place slot segment b) := by
  unfold solveOpen
  rw [require_pos ⟨Slot.takesRun_of_isOpen h, h⟩, pure_bind]
  cases slot with
  | single formal => cases h
  | spread ts => rfl
  | mapped ctor ts =>
    have hts : b.tuple? ts = none := by simpa [Slot.isOpen, Slot.length?] using h
    rw [matchSlot, hts]
    refine bind_ofAttempt fun _ => ?_
    rw [strip_eq, ofAttempt_bind, ofAttempt_bind, bind_assoc]
    rfl

theorem share_eq {slots : List Slot} {run : Run} (h : 1 ≤ openCount b slots) :
    share slots run b = ofAttempt (evenShare slots run b) := by
  unfold share evenShare
  split
  · rfl
  split
  · rfl
  · rw [require_pos h, pure_bind]

end

/-! ### What is left of a row -/

section rest

variable (u : Unifier) (place : Nat → Segment) (slots : List Slot) (arguments : List TypeExpr)

/-- The match of what is left of a row. -/
def matchRest (w : Window) : Attempt Binding := do
  let w ← takeSlots u place w.slots.length w
  if w.run.types.isEmpty then return w.binding
  else fail (.arity (.exactly (requiredLength w.binding slots)) arguments.length)

variable {u place slots arguments} {w : Window} {slot : Slot} {rest : List Slot} {b : Binding}

/-- A slot is taken, and then what is left is matched. -/
theorem matchRest_eq (rest : List Slot) (h : w.slots.length = rest.length + 1) :
    matchRest u place slots arguments w =
      takeSlot u place w >>= matchRest u place slots arguments := by
  have hlength :
      (takeSlot u place w).Meets (fun w' => w'.slots.length = rest.length) fun _ => True :=
    meets_iff.2 ⟨fun w' hw' => by rw [(takeSlot_result hw').2, h]; rfl, fun _ _ => trivial⟩
  rw [matchRest, h, takeSlots, bind_assoc]
  refine hlength.bind_congr fun w' hw' => ?_
  rw [matchRest, hw']

theorem matchRest_front
    (h : nextMove (fun s => !s.isOpen w.binding) w.side w.slots = .front slot rest) :
    matchRest u place slots arguments w =
      if w.run.length < slot.width w.binding then wrongArity w.binding w.slots w.run.length
      else matchSlot u place slot (w.run.first (slot.width w.binding)) w.binding >>= fun b =>
        matchRest u place slots arguments
          ⟨.front, rest, w.run.after (slot.width w.binding), b⟩ := by
  rw [matchRest_eq rest (by rw [(nextMove_eq_front h).1, List.length_cons]), takeSlot, h]
  dsimp only
  split
  · rfl
  · rw [bind_assoc]
    rfl

theorem matchRest_back
    (h : nextMove (fun s => !s.isOpen w.binding) w.side w.slots = .back rest slot) :
    matchRest u place slots arguments w =
      if w.run.length < slot.width w.binding then wrongArity w.binding w.slots w.run.length
      else matchSlot u place slot (w.run.after (w.run.length - slot.width w.binding)) w.binding
        >>= fun b => matchRest u place slots arguments
          ⟨.back, rest, w.run.first (w.run.length - slot.width w.binding), b⟩ := by
  rw [matchRest_eq rest (by rw [(nextMove_eq_back h).1, List.length_append]; rfl), takeSlot, h]
  dsimp only
  split
  · rfl
  · rw [bind_assoc]
    rfl

theorem matchRest_stuck
    (h : nextMove (fun s => !s.isOpen w.binding) w.side w.slots = .stuck slot rest) :
    matchRest u place slots arguments w =
      evenShare w.slots w.run w.binding >>= fun width =>
        matchSlot u place slot (w.run.first width) w.binding >>= fun b =>
          matchRest u place slots arguments ⟨.front, rest, w.run.after width, b⟩ := by
  rw [matchRest_eq rest (by rw [(nextMove_eq_stuck h).1, List.length_cons]), takeSlot, h]
  simp only [bind_assoc, pure_bind]

/-- The end of the last move matters only to what the next one is. -/
theorem matchRest_eq_of_nextMove {w' : Window} {side : Side} (hw : w' = { w with side := side })
    (h : nextMove (fun s => !s.isOpen w.binding) w.side w.slots =
      nextMove (fun s => !s.isOpen w.binding) side w.slots) :
    matchRest u place slots arguments w = matchRest u place slots arguments w' := by
  subst hw
  cases hm : nextMove (fun s => !s.isOpen w.binding) w.side w.slots with
  | done =>
    have hnil := nextMove_eq_done hm
    simp only [matchRest, hnil, List.length_nil, takeSlots, pure_bind]
  | front slot rest => rw [matchRest_front hm, matchRest_front (h.symm.trans hm)]
  | back rest slot => rw [matchRest_back hm, matchRest_back (h.symm.trans hm)]
  | stuck slot rest => rw [matchRest_stuck hm, matchRest_stuck (h.symm.trans hm)]

end rest

/-! ### Positions and windows -/

namespace Cursor

variable {slots : List Slot} {arguments : List TypeExpr} {s : Cursor} {side : Side}

/-- What is left of a row, after a slot was taken at one end. -/
def window (s : Cursor) (slots : List Slot) (arguments : List TypeExpr) (side : Side) : Window :=
  ⟨side, between slots s.loSlot s.hiSlot, ⟨s.lo, between arguments s.lo s.hi⟩, s.binding⟩

theorem inOrder_start (slots : List Slot) (arguments : List TypeExpr) (b : Binding) :
    (start slots arguments b).InOrder slots arguments := by
  simp [InOrder, start]

theorem window_start (slots : List Slot) (arguments : List TypeExpr) (b : Binding) :
    (start slots arguments b).window slots arguments .front = .whole slots arguments b := by
  simp [window, start, between, Window.whole]

theorem inOrder_advance (hs : s.InOrder slots arguments) (h : s.loSlot < s.hiSlot) {len : Nat}
    (hlen : len ≤ s.hi - s.lo) (b : Binding) (side : Side) :
    (s.advance len b side).InOrder slots arguments := by
  obtain ⟨⟨hslots, hrow⟩, hrun, harguments⟩ := hs
  cases side <;> simp only [InOrder, advance] <;> omega

/-- The slot at an end is not known, if there is one. -/
def OpenAt (s : Cursor) (slots : List Slot) : Side → Prop
  | .front => ∀ slot ∈ (between slots s.loSlot s.hiSlot).head?, slot.isOpen s.binding = true
  | .back => ∀ slot ∈ (between slots s.loSlot s.hiSlot).getLast?, slot.isOpen s.binding = true

theorem openAt_of_done (h : ¬s.loSlot < s.hiSlot) (side : Side) : s.OpenAt slots side := by
  cases side <;> simp [OpenAt, between_eq_nil (Nat.le_of_not_lt h)]

/-- A slot stands at an end of those that are left. -/
def Ends (s : Cursor) (slots : List Slot) (slot : Slot) : Side → Prop
  | .front => between slots s.loSlot s.hiSlot = slot :: between slots (s.loSlot + 1) s.hiSlot
  | .back => between slots s.loSlot s.hiSlot = between slots s.loSlot (s.hiSlot - 1) ++ [slot]

theorem exists_slotAt (hs : s.InOrder slots arguments) (h : s.loSlot < s.hiSlot) (side : Side) :
    ∃ slot, s.slotAt slots side = pure slot ∧ s.Ends slots slot side := by
  obtain ⟨⟨hslots, hrow⟩, -⟩ := hs
  cases side with
  | front => exact ⟨_, element_of_lt (by omega), between_eq_cons h hrow⟩
  | back =>
    refine ⟨slots[s.hiSlot - 1], ?_, between_eq_append h hrow⟩
    rw [slotAt, difference_of_le (by omega), pure_bind, element_of_lt]

theorem openAt_of_ends {slot : Slot} (hend : s.Ends slots slot side)
    (h : slot.isOpen s.binding = true) : s.OpenAt slots side := by
  cases side with
  | front =>
    intro x hx
    rw [hend] at hx
    cases hx
    exact h
  | back =>
    intro x hx
    rw [hend, List.getLast?_concat] at hx
    cases hx
    exact h

/-- As many of the arguments that are left as given, from one end. -/
def segment (s : Cursor) (arguments : List TypeExpr) (len : Nat) : Side → Run
  | .front => ⟨s.lo, between arguments s.lo (s.lo + len)⟩
  | .back => ⟨s.hi - len, between arguments (s.hi - len) s.hi⟩

variable {len : Nat}

theorem segmentAt_eq (hs : s.InOrder slots arguments) (h : len ≤ s.hi - s.lo) (side : Side) :
    s.segmentAt arguments len side = pure (s.segment arguments len side) := by
  obtain ⟨-, hrun, harguments⟩ := hs
  cases side with
  | front => rw [segmentAt, part_of_le (by omega) (by omega), pure_bind, segment]
  | back =>
    rw [segmentAt, difference_of_le (by omega), pure_bind, part_of_le (by omega) harguments,
      pure_bind, segment]

theorem length_segment (hs : s.InOrder slots arguments) (h : len ≤ s.hi - s.lo) (side : Side) :
    (s.segment arguments len side).length = len := by
  obtain ⟨-, hrun, harguments⟩ := hs
  cases side with
  | front =>
    have hlength : (between arguments s.lo (s.lo + len)).length = s.lo + len - s.lo :=
      length_between (by omega)
    exact hlength.trans (by omega)
  | back =>
    have hlength : (between arguments (s.hi - len) s.hi).length = s.hi - (s.hi - len) :=
      length_between harguments
    exact hlength.trans (by omega)

/-! What a move does to the window, it does to the positions. -/

@[simp] theorem binding_window : (s.window slots arguments side).binding = s.binding := rfl

theorem length_window (hs : s.InOrder slots arguments) :
    (s.window slots arguments side).run.length = s.hi - s.lo := length_between hs.2.2

theorem first_window (hs : s.InOrder slots arguments) (h : len ≤ s.hi - s.lo) :
    (s.window slots arguments side).run.first len = s.segment arguments len .front := by
  have hrun := hs.2.1
  simp only [window, Run.first, segment, take_between (show s.lo + len ≤ s.hi by omega)]

theorem after_window (hs : s.InOrder slots arguments) (h : len ≤ s.hi - s.lo) :
    (s.window slots arguments side).run.after (s.hi - s.lo - len) =
      s.segment arguments len .back := by
  have hrun := hs.2.1
  have hcut : s.lo + (s.hi - s.lo - len) = s.hi - len := by omega
  simp only [window, Run.after, segment, drop_between, hcut]

theorem window_advance_front (side : Side) (len : Nat) (b : Binding) :
    (s.advance len b .front).window slots arguments .front =
      ⟨.front, between slots (s.loSlot + 1) s.hiSlot,
        (s.window slots arguments side).run.after len, b⟩ := by
  simp only [window, advance, Run.after, drop_between]

theorem window_advance_back (hs : s.InOrder slots arguments) (h : len ≤ s.hi - s.lo)
    (side : Side) (b : Binding) :
    (s.advance len b .back).window slots arguments .back =
      ⟨.back, between slots s.loSlot (s.hiSlot - 1),
        (s.window slots arguments side).run.first (s.hi - s.lo - len), b⟩ := by
  have hrun := hs.2.1
  have hcut : s.lo + (s.hi - s.lo - len) = s.hi - len := by omega
  simp only [window, advance, Run.first]
  rw [take_between (by omega), hcut]

end Cursor

section steps

variable {u : Unifier} {place : Nat → Segment} {slots : List Slot} {arguments : List TypeExpr}
  {s : Cursor} {slot : Slot} {side : Side} {len : Nat}

/-- Where an end is not known, it does not matter at which end the last slot was taken. -/
theorem matchRest_side (h : s.OpenAt slots side) (side₁ side₂ : Side) :
    matchRest u place slots arguments (s.window slots arguments side₁) =
      matchRest u place slots arguments (s.window slots arguments side₂) := by
  refine matchRest_eq_of_nextMove rfl (nextMove_eq_of_unknown ?_ side₁ side₂)
  cases side with
  | front => exact .inl fun slot hslot => by simp [h slot hslot]
  | back => exact .inr fun slot hslot => by simp [h slot hslot]

/-- A known slot at the end where the last one was taken is next. -/
theorem matchRest_ends (hs : s.InOrder slots arguments) (hend : s.Ends slots slot side)
    (hlen : slot.length? s.binding = some len) :
    matchRest u place slots arguments (s.window slots arguments side) =
      if s.hi - s.lo < len then
        wrongArity s.binding (between slots s.loSlot s.hiSlot) (s.hi - s.lo)
      else matchSlot u place slot (s.segment arguments len side) s.binding >>= fun b =>
        matchRest u place slots arguments ((s.advance len b side).window slots arguments side) := by
  have hknown : (!slot.isOpen s.binding) = true := by simp [Slot.isOpen, hlen]
  have hwidth : slot.width s.binding = len := by simp [Slot.width, hlen]
  cases side with
  | front =>
    have hmove : nextMove (fun x => !x.isOpen s.binding) .front
        (between slots s.loSlot s.hiSlot) =
          .front slot (between slots (s.loSlot + 1) s.hiSlot) := by
      rw [hend]
      exact nextMove_front_of_known hknown
    rw [matchRest_front hmove, Cursor.length_window hs, Cursor.binding_window, hwidth]
    split
    · rfl
    · rename_i hle
      rw [Cursor.first_window hs (Nat.le_of_not_lt hle)]
      simp only [Cursor.window_advance_front .front]
  | back =>
    have hmove : nextMove (fun x => !x.isOpen s.binding) .back
        (between slots s.loSlot s.hiSlot) =
          .back (between slots s.loSlot (s.hiSlot - 1)) slot := by
      rw [hend]
      exact nextMove_back_of_known hknown
    rw [matchRest_back hmove, Cursor.length_window hs, Cursor.binding_window, hwidth]
    split
    · rfl
    · rename_i hle
      have hle : len ≤ s.hi - s.lo := Nat.le_of_not_lt hle
      rw [Cursor.after_window hs hle]
      simp only [Cursor.window_advance_back hs hle .back]

/-- An open slot is solved if neither end is known. -/
theorem matchRest_open (hend : s.Ends slots slot .front) (hopen : slot.isOpen s.binding = true)
    (hlast : s.OpenAt slots .back) :
    matchRest u place slots arguments (s.window slots arguments .front) =
      evenShare (between slots s.loSlot s.hiSlot) (s.window slots arguments .front).run s.binding
        >>= fun len =>
          matchSlot u place slot ((s.window slots arguments .front).run.first len) s.binding
            >>= fun b => matchRest u place slots arguments
              ((s.advance len b .front).window slots arguments .front) := by
  have hmove : nextMove (fun x => !x.isOpen s.binding) .front
      (between slots s.loSlot s.hiSlot) =
        .stuck slot (between slots (s.loSlot + 1) s.hiSlot) := by
    rw [hend]
    refine nextMove_stuck_of_unknown (by simp [hopen]) fun x hx => ?_
    have hx := hlast x (by rwa [hend])
    simp [hx]
  rw [matchRest_stuck hmove]
  simp only [Cursor.window_advance_front .front]
  rfl

/-- What a sweep leads to: the same state, or one with fewer slots. -/
def Moved (s : Cursor) (progressed : Bool) (s' : Cursor) (progressed' : Bool) : Prop :=
  (s' = s ∧ progressed' = progressed) ∨ (s'.left < s.left ∧ progressed' = true)

theorem Moved.of_advance {progressed progressed' : Bool} {s' : Cursor} {b : Binding}
    (h : s.loSlot < s.hiSlot) (hm : Moved (s.advance len b side) true s' progressed') :
    Moved s progressed s' progressed' := by
  have hlt := Cursor.left_advance_lt h len b side
  rcases hm with ⟨rfl, rfl⟩ | ⟨hleft, rfl⟩
  · exact .inr ⟨hlt, rfl⟩
  · exact .inr ⟨Nat.lt_trans hleft hlt, rfl⟩

/-- A sweep does what the match does with the known slots at its end. -/
theorem sweep_bind {progressed : Bool} {k : Cursor × Bool → Checked Binding}
    (hs : s.InOrder slots arguments)
    (hk : ∀ s' progressed', s'.InOrder slots arguments → s'.OpenAt slots side →
      Moved s progressed s' progressed' →
      k (s', progressed') =
        ofAttempt (matchRest u place slots arguments (s'.window slots arguments side))) :
    sweep u place slots arguments side s progressed >>= k =
      ofAttempt (matchRest u place slots arguments (s.window slots arguments side)) := by
  -- The binding changes with every slot taken; only the positions are kept in order.
  induction hn : s.left using Nat.strongRecOn generalizing s progressed with
  | ind n ih =>
    subst hn
    rw [sweep, require_pos hs, pure_bind]
    split
    · rename_i hleft
      obtain ⟨slot, hslot, hend⟩ := Cursor.exists_slotAt hs hleft side
      rw [hslot, pure_bind]
      cases hlen : slot.length? s.binding with
      | none =>
        have hopen : slot.isOpen s.binding = true := by simp [Slot.isOpen, hlen]
        rw [pure_bind]
        exact hk s progressed hs (Cursor.openAt_of_ends hend hopen) (.inl ⟨rfl, rfl⟩)
      | some len =>
        rw [difference_of_le hs.2.1, matchRest_ends hs hend hlen]
        simp only [pure_bind]
        split
        · rw [part_of_le hs.1.1 hs.1.2, pure_bind]
          rfl
        · rename_i hle
          have hle : len ≤ s.hi - s.lo := Nat.le_of_not_lt hle
          rw [Cursor.segmentAt_eq hs hle, pure_bind,
            matchSegment_eq hlen (Cursor.length_segment hs hle side), bind_assoc]
          refine bind_ofAttempt fun b => ?_
          refine ih _ (Cursor.left_advance_lt hleft len b side)
            (Cursor.inOrder_advance hs hleft hle b side) ?_ rfl
          exact fun s' progressed' hs' hopen hm => hk s' progressed' hs' hopen (hm.of_advance hleft)
    · rename_i hdone
      rw [pure_bind]
      exact hk s progressed hs (Cursor.openAt_of_done hdone side) (.inl ⟨rfl, rfl⟩)

/-- Two sweeps one after another leave fewer slots if one of them has taken some. -/
theorem Moved.left_lt {s₁ s₂ : Cursor} {progressed₁ progressed₂ : Bool}
    (h₁ : Moved s false s₁ progressed₁) (h₂ : Moved s₁ progressed₁ s₂ progressed₂)
    (h : progressed₂ = true) : s₂.left < s.left := by
  rcases h₁ with ⟨rfl, rfl⟩ | ⟨hlt₁, rfl⟩ <;> rcases h₂ with ⟨rfl, rfl⟩ | ⟨hlt₂, -⟩
  · cases h
  · exact hlt₂
  · exact hlt₁
  · exact Nat.lt_trans hlt₂ hlt₁

/-- Two sweeps that have taken nothing leave everything as it is. -/
theorem Moved.eq {s₁ s₂ : Cursor} {progressed₁ progressed₂ : Bool}
    (h₁ : Moved s false s₁ progressed₁) (h₂ : Moved s₁ progressed₁ s₂ progressed₂)
    (h : ¬progressed₂ = true) : s₁ = s ∧ s₂ = s := by
  rcases h₂ with ⟨rfl, rfl⟩ | ⟨-, rfl⟩
  · rcases h₁ with ⟨rfl, -⟩ | ⟨-, rfl⟩
    · exact ⟨rfl, rfl⟩
    · cases h rfl
  · cases h rfl

/-- A row of which nothing is left is matched, unless arguments are left over. -/
theorem matchRest_done (hs : s.InOrder slots arguments) (h : s.loSlot = s.hiSlot) :
    matchRest u place slots arguments (s.window slots arguments side) =
      if s.lo = s.hi then pure s.binding
      else fail (.arity (.exactly (requiredLength s.binding slots)) arguments.length) := by
  have hnil : between slots s.loSlot s.hiSlot = [] := between_eq_nil (Nat.le_of_eq h.symm)
  have hlength : (between arguments s.lo s.hi).length = s.hi - s.lo := length_between hs.2.2
  have hrun := hs.2.1
  have hempty : (between arguments s.lo s.hi).isEmpty = true ↔ s.lo = s.hi := by
    rw [List.isEmpty_iff_length_eq_zero, hlength]
    omega
  rw [matchRest, Cursor.window, hnil, List.length_nil, takeSlots, pure_bind]
  simp only [hempty]

/-- The share of an occurrence is no longer than what is left. -/
theorem evenShare_le (left : List Slot) (run : Run) (b : Binding) :
    (evenShare left run b).Meets (fun len => len ≤ run.length) fun _ => True :=
  meets_evenShare (fun _ => trivial) (fun _ _ => trivial) (fun _ _ => trivial) fun _ _ _ =>
    Nat.le_trans (Nat.div_le_self _ _) (Nat.sub_le _ _)

/-- An open slot is solved as in the match, where neither end is known. -/
theorem solveFirst_bind {k : Cursor → Checked Binding} (hs : s.InOrder slots arguments)
    (hleft : s.loSlot < s.hiSlot) (hfront : s.OpenAt slots .front) (hback : s.OpenAt slots .back)
    (hk : ∀ len b, len ≤ s.hi - s.lo → k (s.advance len b .front) =
      ofAttempt (matchRest u place slots arguments
        ((s.advance len b .front).window slots arguments .front))) :
    solveFirst u place slots arguments s >>= k =
      ofAttempt (matchRest u place slots arguments (s.window slots arguments .front)) := by
  obtain ⟨slot, hslot, hend⟩ := Cursor.exists_slotAt hs hleft .front
  have hopen : slot.isOpen s.binding = true := hfront slot (by rw [hend]; rfl)
  have hcount : 1 ≤ openCount s.binding (between slots s.loSlot s.hiSlot) :=
    List.countP_pos_iff.2 ⟨slot, by rw [hend]; exact List.mem_cons_self, hopen⟩
  rw [solveFirst, part_of_le hs.1.1 hs.1.2, part_of_le hs.2.1 hs.2.2,
    matchRest_open hend hopen hback]
  simp only [pure_bind, share_eq hcount, bind_assoc, hslot]
  refine bind_ofAttempt_of_meets (evenShare_le _ _ _) fun len hlen => ?_
  have hlen : len ≤ s.hi - s.lo := by rwa [Run.length, length_between hs.2.2] at hlen
  rw [Cursor.segmentAt_eq hs hlen, pure_bind, solveOpen_eq hopen, Cursor.first_window hs hlen]
  exact bind_ofAttempt fun b => hk len b hlen

/-- The loop does what the match does, if it may go round more often than there are slots. -/
theorem rounds_eq {n : Nat} (hs : s.InOrder slots arguments) (hn : s.left < n) :
    rounds u place slots arguments n s =
      ofAttempt (matchRest u place slots arguments (s.window slots arguments .front)) := by
  induction n generalizing s with
  | zero => cases hn
  | succ n ih =>
    rw [rounds, round, bind_assoc]
    refine sweep_bind hs fun s₁ progressed₁ hs₁ hfront hm₁ => ?_
    rw [matchRest_side hfront .front .back, bind_assoc]
    refine sweep_bind hs₁ fun s₂ progressed₂ hs₂ hback hm₂ => ?_
    rw [matchRest_side hback .back .front]
    dsimp only
    split
    · rename_i hdone
      rw [matchRest_done hs₂ hdone]
      split <;> rfl
    · rename_i hmore
      have hleft : s₂.loSlot < s₂.hiSlot := Nat.lt_of_le_of_ne hs₂.1.1 hmore
      split
      · rename_i hprogressed
        rw [pure_bind]
        exact ih hs₂ (Nat.lt_of_lt_of_le (hm₁.left_lt hm₂ hprogressed) (Nat.le_of_lt_succ hn))
      · rename_i hstuck
        -- Nothing has been bound since the front was seen, so that it is not known even now.
        obtain ⟨rfl, rfl⟩ := hm₁.eq hm₂ hstuck
        rw [bind_assoc]
        refine solveFirst_bind hs hleft hfront hback fun len b hlen => ?_
        refine ih (Cursor.inOrder_advance hs hleft hlen b .front) ?_
        have hlt := Cursor.left_advance_lt hleft len b .front
        omega

/-- Matching by positions within more rounds than there are slots is without a breach. -/
theorem matchWithin_eq {limit : Nat} (h : slots.length < limit) (b : Binding) :
    (matchWithin u place slots arguments limit b).run =
      Except.ok <$> matchList u place slots arguments b := by
  rw [matchWithin, matchList]
  split
  · rw [rounds_eq (Cursor.inOrder_start slots arguments b) h, Cursor.window_start]
    rfl
  · rfl

/-- A window shows what is left between positions in order. -/
def Positioned (slots : List Slot) (arguments : List TypeExpr) (w : Window) : Prop :=
  ∃ (s : Cursor) (side : Side), s.InOrder slots arguments ∧ w = s.window slots arguments side

theorem positioned_of_takeSlot {w : Window} (hw : Positioned slots arguments w) :
    (takeSlot u place w).Meets (Positioned slots arguments) fun _ => True := by
  obtain ⟨s, side, hs, rfl⟩ := hw
  -- Whatever is bound meanwhile, a slot goes at one end and a run of arguments in range with it.
  have take {slot : Slot} {run : Run} {len : Nat} {w' : Binding → Window} (side' : Side)
      (hleft : s.loSlot < s.hiSlot) (hlen : len ≤ (s.window slots arguments side).run.length)
      (hw' : ∀ b, (s.advance len b side').window slots arguments side' = w' b) :
      (matchSlot u place slot run s.binding).Meets
        (fun b => Positioned slots arguments (w' b)) fun _ => True := by
    rw [Cursor.length_window hs] at hlen
    exact meets_iff.2 ⟨fun b _ =>
      ⟨_, side', Cursor.inOrder_advance hs hleft hlen b side', (hw' b).symm⟩, fun _ _ => trivial⟩
  refine meets_takeSlot (fun _ => ⟨s, side, hs, rfl⟩) (fun _ _ _ _ => trivial) ?front ?back ?stuck
  case front =>
    intro slot rest hm hlong
    obtain ⟨hleft, rfl⟩ := eq_of_between_eq_cons hs.1.2 (nextMove_eq_front hm).1
    exact take .front hleft hlong fun b => Cursor.window_advance_front side _ b
  case back =>
    intro rest slot hm hlong
    obtain ⟨hleft, rfl⟩ := eq_of_between_eq_append hs.1.2 (nextMove_eq_back hm).1
    refine take .back hleft hlong fun b => ?_
    rw [Cursor.length_window hs] at hlong ⊢
    exact Cursor.window_advance_back hs hlong side b
  case stuck =>
    intro slot rest hm
    obtain ⟨hleft, rfl⟩ := eq_of_between_eq_cons hs.1.2 (nextMove_eq_stuck hm).1
    refine (evenShare_le _ _ _).imp fun len hlen => ?_
    exact take .front hleft hlen fun b => Cursor.window_advance_front side len b

/-- Matching a row by positions, in one round more than there are slots, is without a breach: every
position, part, length and number that the loop uses is as it has to be, and the match is the same.
Every window that the match comes to shows what is left between positions in order. -/
theorem matchList_within_bounds (u : Unifier) (place : Nat → Segment) (slots : List Slot)
    (arguments : List TypeExpr) (b : Binding) :
    (matchWithin u place slots arguments (slots.length + 1) b).run =
        Except.ok <$> matchList u place slots arguments b ∧
      ∀ n, (takeSlots u place n (.whole slots arguments b)).Meets (Positioned slots arguments)
        fun _ => True := by
  refine ⟨matchWithin_eq (Nat.lt_succ_self _) b, fun n => ?_⟩
  have hstart : Positioned slots arguments (.whole slots arguments b) :=
    ⟨.start slots arguments b, .front, Cursor.inOrder_start slots arguments b,
      (Cursor.window_start slots arguments b).symm⟩
  exact (meets_takeSlots (fun _ hw => positioned_of_takeSlot hw) hstart).imp fun _ hw => hw.1

end steps

end Polyadic.Rounds
