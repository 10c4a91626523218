import Polyadic.Proofs.Lengths
import Polyadic.Proofs.Occurrence
import Polyadic.Proofs.Positions

/-! # A spread slot between single slots

A list `(F₁, …, Fₚ, *Ts, G₁, …, Gₛ)` takes its arguments apart in a fixed order: the leading single
slots from the first one on, then the trailing ones from the last one on, and what is left between
them is the sequence of `Ts` (`matchParameters_framed`).  The positions of the trailing arguments
depend on how many there are in the middle, but a match reads no position, it only reports it
(`verdict_unifyEach`).  So the frame is matched alike around every middle. -/

namespace Polyadic

open Attempt

/-- The list of the given single slots with a spread slot between them. -/
def ParameterList.framed (front : List TypeExpr) (ts : TupleVar) (back : List TypeExpr) :
    ParameterList :=
  ⟨front.map .single ++ .spread ts :: back.map .single⟩

/-! ### Single slots at either end -/

section singles

variable {u : Unifier} {place : Nat → Segment} {rest : List Slot} {b : Binding}

theorem takeSlot_single_back (f a : TypeExpr) (i : Nat) (as : List TypeExpr) :
    takeSlot u place ⟨.back, rest ++ [.single f], ⟨i, as ++ [a]⟩, b⟩ = do
      let b ← (u f a b).under (place (i + as.length))
      return ⟨.back, rest, ⟨i, as⟩, b⟩ := by
  rw [takeSlot, nextMove_back_of_known rfl]
  simp [Run.length, Run.first, Run.after, matchSlot, unifyEach]

/-- Trailing single slots, listed from the last one on.  `last` is one more than the position of the
last argument, and `k` counts the slots that have been taken, from one on. -/
theorem takeSlots_singles_reversed (u : Unifier) (place : Nat → Segment) (rest : List Slot)
    {formals actuals : List TypeExpr} (h : actuals.length = formals.length) (n i k last : Nat)
    (others : List TypeExpr) (b : Binding)
    (hlast : i + others.length + actuals.length + k = last + 1) :
    takeSlots u place (formals.length + n)
        ⟨.back, rest ++ (formals.map .single).reverse, ⟨i, others ++ actuals.reverse⟩, b⟩ =
      unifyEach u (fun k => place (last - k)) k formals actuals b >>= fun b =>
        takeSlots u place n ⟨.back, rest, ⟨i, others⟩, b⟩ := by
  induction formals generalizing actuals k b with
  | nil =>
    obtain rfl := List.eq_nil_of_length_eq_zero h
    simp [unifyEach]
  | cons f fs ih =>
    obtain _ | ⟨a, as⟩ := actuals
    · cases h
    · have hplace : i + (others ++ as.reverse).length = last - k := by
        simp only [List.length_append, List.length_reverse, List.length_cons] at hlast ⊢
        omega
      rw [List.length_cons, Nat.add_right_comm, takeSlots, List.map_cons, List.reverse_cons,
        List.reverse_cons, ← List.append_assoc, ← List.append_assoc, takeSlot_single_back,
        unifyEach, hplace]
      simp only [bind_assoc, pure_bind]
      congr
      funext b
      rw [ih (by simpa using h)]
      simp only [List.length_cons] at hlast
      omega

/-- Trailing single slots are matched from the last one on. -/
theorem takeSlots_singles_back {formals actuals : List TypeExpr}
    (h : actuals.length = formals.length) (n i : Nat) (others : List TypeExpr) (b : Binding) :
    takeSlots u place (formals.length + n)
        ⟨.back, rest ++ formals.map .single, ⟨i, others ++ actuals⟩, b⟩ =
      unifyEach u (fun k => place (i + others.length + actuals.length - k)) 1 formals.reverse
        actuals.reverse b >>= fun b => takeSlots u place n ⟨.back, rest, ⟨i, others⟩, b⟩ := by
  have hlength : actuals.reverse.length = formals.reverse.length := by simpa using h
  have hreversed :=
    takeSlots_singles_reversed u place rest hlength n i 1 (i + others.length + actuals.length)
      others b (by simp)
  simpa only [List.length_reverse, List.map_reverse, List.reverse_reverse] using hreversed

end singles

/-! ### The middle -/

section middle

variable {u : Unifier} {place : Nat → Segment} {ts : TupleVar} {b : Binding}

/-- Where the first slot is open, it does not matter at which end the last slot was taken. -/
theorem takeSlots_eq_of_open {slot : Slot} {rest : List Slot} {run : Run}
    (h : slot.isOpen b = true) (n : Nat) (side side' : Side) :
    takeSlots u place (n + 1) ⟨side, slot :: rest, run, b⟩ =
      takeSlots u place (n + 1) ⟨side', slot :: rest, run, b⟩ := by
  have hmove : nextMove (fun s => !s.isOpen b) side (slot :: rest) =
      nextMove (fun s => !s.isOpen b) side' (slot :: rest) :=
    nextMove_eq_of_unknown (.inl (by simp [h])) side side'
  rw [takeSlots, takeSlots, takeSlot, takeSlot]
  simp only [hmove]
  cases hm : nextMove (fun s => !s.isOpen b) side' (slot :: rest) with
  | done => cases nextMove_eq_done hm
  | front | back | stuck => rfl

/-- An open spread slot that is left alone takes all that is left. -/
theorem takeSlot_spread_alone (h : b.tuple? ts = none) (side : Side) (run : Run) :
    takeSlot u place ⟨side, [.spread ts], run, b⟩ = do
      log (.bindTuple ts run.types)
      return ⟨.front, [], run.after run.length, b.bindTuple ts run.types⟩ := by
  have hopen : (Slot.spread ts).isOpen b = true := Slot.isOpen_iff.2 ⟨ts, rfl, h⟩
  have hshare : evenShare [.spread ts] run b = pure run.length := by
    have htuples : openTuples b [.spread ts] = [ts] := by
      simp [openTuples, hopen, Slot.tuple?, List.eraseDups_cons]
    have hcount : openCount b [.spread ts] = 1 := by simp [openCount, hopen]
    have hrequired : requiredLength b [.spread ts] = 0 := by
      simp [requiredLength, Slot.width_of_isOpen hopen]
    simp [evenShare, shareEvenly, htuples, hcount, hrequired, Nat.mod_one]
  have hassign : (assignTuple ts run.types b).under (place run.start) = do
      log (.bindTuple ts run.types)
      return b.bindTuple ts run.types := by
    rw [assignTuple, h]
    rfl
  rw [takeSlot, nextMove_stuck_of_unknown (by simp [hopen]) (by simp [hopen]), hshare]
  simp [matchSlot, Run.first, Run.length, hassign]

end middle

/-! ### The whole list -/

/-- A tuple variable that is mentioned on neither side stays open, and what is bound does not
mention it. -/
def unmentionedInvariant (ts : TupleVar) : MatchInvariant where
  actual t := ¬t.Mentions (.tuple ts)
  formal _ t := ¬t.Mentions (.tuple ts)
  kept b := b.tuple? ts = none ∧ b.Assigns fun t => ¬t.Mentions (.tuple ts)
  actual_parts ht hp hmention := ht (TypeExpr.mentions_of_mem_parts hp hmention)
  formal_parts ht hp hmention := ht (TypeExpr.mentions_of_mem_parts hp hmention)
  formal_ctor ht hmention := ht (TypeExpr.mentions_ctor hmention)
  formal_expansion hb ht hus x hx hmention := by
    rcases TypeExpr.mentions_apply.1 hmention with hctor | ⟨y, hy, hoperand⟩
    · exact ht (TypeExpr.mentions_ctor hctor)
    · obtain rfl := List.mem_singleton.1 hy
      exact hb.2.tuples _ _ hus y hx hoperand
  formal_later _ ht := ht
  bindScalar hb _ ht _ := ⟨hb.1, hb.2.bindScalar ht _⟩
  bindTuple := by
    intro b f us contents hb hf hus hcontents _
    have hne : us ≠ ts := by
      rintro rfl
      exact hf (TypeExpr.Owns.mentions (x := .tuple us) hus)
    exact ⟨by simp [Binding.tuple?_bindTuple, hne, hb.1], hb.2.bindTuple hcontents _⟩

section whole

variable {place : Nat → Segment} {front back leading mid trailing : List TypeExpr} {ts : TupleVar}
  {b : Binding}

theorem listArity_framed (h : b.tuple? ts = none) :
    listArity b (ParameterList.framed front ts back).slots =
      .atLeast (front.length + back.length) := by
  have hopen : (Slot.spread ts).isOpen b = true := Slot.isOpen_iff.2 ⟨ts, rfl, h⟩
  have hcount : openCount b (ParameterList.framed front ts back).slots ≠ 0 := by
    simp [ParameterList.framed, openCount, hopen]
  have hrequired : requiredLength b (ParameterList.framed front ts back).slots =
      front.length + back.length := by
    simp [ParameterList.framed, requiredLength, requiredLength_singles, Slot.width_of_isOpen hopen]
  rw [listArity, if_neg hcount, hrequired]

/-- The frame is matched from the front and then from the back, and what is left in the middle is
the sequence of the tuple variable. -/
theorem matchList_framed (hframe : ∀ f ∈ front ++ back, ¬f.Mentions (.tuple ts))
    (hactuals : ∀ a ∈ leading ++ trailing, ¬a.Mentions (.tuple ts))
    (hleading : leading.length = front.length) (htrailing : trailing.length = back.length)
    (hb : (unmentionedInvariant ts).kept b) :
    matchList unify place (ParameterList.framed front ts back).slots (leading ++ (mid ++ trailing))
        b =
      unifyEach unify place 0 front leading b >>= fun b =>
        unifyEach unify (fun k => place ((leading ++ (mid ++ trailing)).length - k)) 1 back.reverse
          trailing.reverse b >>= fun b => do
            log (.bindTuple ts mid)
            return b.bindTuple ts mid := by
  have hadmits : (listArity b (ParameterList.framed front ts back).slots).Admits
      (leading ++ (mid ++ trailing)).length := by
    rw [listArity_framed hb.1]
    simp only [Arity.Admits, List.length_append]
    omega
  have hwhole : takeSlots unify place (ParameterList.framed front ts back).slots.length
      (.whole (ParameterList.framed front ts back).slots (leading ++ (mid ++ trailing)) b) =
      takeSlots unify place (front.length + (back.length + 1))
        ⟨.front, front.map .single ++ .spread ts :: back.map .single,
          ⟨0, leading ++ (mid ++ trailing)⟩, b⟩ := by
    simp [ParameterList.framed, Window.whole]
  rw [matchList, if_pos hadmits, hwhole, takeSlots_singles_front hleading, bind_assoc]
  refine ((unmentionedInvariant ts).keeps_of_unifyEach MatchInvariant.keepsOn_unify
    (fun a ha => hactuals a (by simp [ha])) (fun f hf => hframe f (by simp [hf])) hb).bind_congr ?_
  intro b₁ hb₁
  have hopen : (Slot.spread ts).isOpen b₁ = true := Slot.isOpen_iff.2 ⟨ts, rfl, hb₁.2.1⟩
  have hlast : (leading ++ (mid ++ trailing)).length =
      front.length + mid.length + trailing.length := by
    rw [List.length_append, List.length_append, hleading, Nat.add_assoc]
  rw [takeSlots_eq_of_open hopen _ .front .back, Nat.zero_add, ← List.singleton_append,
    takeSlots_singles_back htrailing, bind_assoc, hlast]
  refine ((unmentionedInvariant ts).keeps_of_unifyEach MatchInvariant.keepsOn_unify
    (fun a ha => hactuals a (List.mem_append_right _ (List.mem_reverse.1 ha)))
    (fun f hf => hframe f (List.mem_append_right _ (List.mem_reverse.1 hf))) hb₁.2).bind_congr ?_
  intro b₂ hb₂
  simp [takeSlots, takeSlot_spread_alone hb₂.2.1, Run.after, Run.length]

/-- What is said of the frame alone: neither the middle nor the number of its arguments matters. -/
def frameVerdict (front leading back trailing : List TypeExpr) : Except Cause Binding :=
  (unifyEach unify .param 0 front leading .empty >>=
    unifyEach unify .param 0 back.reverse trailing.reverse).verdict

theorem unmentioned_empty : (unmentionedInvariant ts).kept .empty :=
  ⟨Binding.tuple?_empty ts, Binding.assigns_empty⟩

theorem verdict_matchParameters_framed (hframe : ∀ f ∈ front ++ back, ¬f.Mentions (.tuple ts))
    (hactuals : ∀ a ∈ leading ++ trailing, ¬a.Mentions (.tuple ts))
    (hleading : leading.length = front.length) (htrailing : trailing.length = back.length)
    (mid : List TypeExpr) :
    (matchParameters (.framed front ts back) (leading ++ (mid ++ trailing))).verdict =
      (frameVerdict front leading back trailing).map fun b => b.bindTuple ts mid := by
  rw [matchParameters_eq, matchList_framed hframe hactuals hleading htrailing unmentioned_empty,
    frameVerdict, ← bind_assoc, verdict_bind, verdict_bind, verdict_bind]
  simp only [verdict_unifyEach (fun k => Segment.param _) .param 1 0]
  rfl

/-- A failure inside the frame has a position. -/
theorem path_ne_nil_of_framed (hframe : ∀ f ∈ front ++ back, ¬f.Mentions (.tuple ts))
    (hactuals : ∀ a ∈ leading ++ trailing, ¬a.Mentions (.tuple ts))
    (hleading : leading.length = front.length) (htrailing : trailing.length = back.length) :
    (matchParameters (.framed front ts back) (leading ++ (mid ++ trailing))).Meets
      (fun _ => True) fun e => e.path ≠ [] := by
  have hpairs (place : Nat → Segment) (i : Nat) (formals actuals : List TypeExpr) (b : Binding) :
      (unifyEach unify place i formals actuals b).Meets (fun _ => True) fun e => e.path ≠ [] := by
    refine meets_unifyEach (I := fun _ _ _ => True) ?_ (fun _ _ _ _ _ => trivial) trivial
    intro i f fs a as b _
    exact meets_iff.2 ⟨fun _ _ => trivial, fun e _ => List.cons_ne_nil _ _⟩
  rw [matchParameters_eq, matchList_framed hframe hactuals hleading htrailing unmentioned_empty,
    meets_bind]
  refine (hpairs _ _ _ _ _).imp fun b₁ _ => ?_
  rw [meets_bind]
  exact (hpairs _ _ _ _ _).imp fun b₂ _ => trivial

/-- Too few arguments are noticed before anything is matched. -/
theorem result_framed_of_short {arguments : List TypeExpr}
    (h : arguments.length < front.length + back.length) :
    (matchParameters (.framed front ts back) arguments).result =
      .error ⟨.arity (.atLeast (front.length + back.length)) arguments.length, []⟩ := by
  have harity : listArity .empty (ParameterList.framed front ts back).slots =
      .atLeast (front.length + back.length) := listArity_framed (Binding.tuple?_empty ts)
  have hunfit : ¬(listArity .empty (ParameterList.framed front ts back).slots).Admits
      arguments.length := by
    rw [harity]
    exact Nat.not_le.2 h
  rw [matchParameters_eq, matchList, if_neg hunfit, wrongArity, result_fail, harity]

end whole

/-- Two results that differ in what one tuple variable is bound to and in nothing else: values that
agree on every other variable, or failures for the same cause. -/
inductive DifferAt (ts : TupleVar) (mid mid' : List TypeExpr) :
    Except Failure Binding → Except Failure Binding → Prop
  | ok {b b' : Binding} (bound : b.tuple? ts = some mid) (bound' : b'.tuple? ts = some mid')
    (scalars : ∀ v, b.scalar? v = b'.scalar? v)
    (tuples : ∀ us, us ≠ ts → b.tuple? us = b'.tuple? us) : DifferAt ts mid mid' (.ok b) (.ok b')
  | error {e e' : Failure} (cause : e.cause = e'.cause) :
    DifferAt ts mid mid' (.error e) (.error e')

/-- Matches with the same verdict, up to what the tuple variable is bound to in the end. -/
theorem differAt_of_verdict {ts : TupleVar} {mid mid' : List TypeExpr} {x x' : Attempt Binding}
    {frame : Except Cause Binding} (h : x.verdict = frame.map fun b => b.bindTuple ts mid)
    (h' : x'.verdict = frame.map fun b => b.bindTuple ts mid') :
    DifferAt ts mid mid' x.result x'.result := by
  cases frame with
  | ok b =>
    rw [verdict_eq_ok_iff.1 h, verdict_eq_ok_iff.1 h']
    refine .ok (by simp [Binding.tuple?_bindTuple]) (by simp [Binding.tuple?_bindTuple])
      (fun _ => rfl) ?_
    intro us hus
    simp [Binding.tuple?_bindTuple, Ne.symm hus]
  | error cause =>
    obtain ⟨e, he, hcause⟩ := exists_of_verdict_error h
    obtain ⟨e', he', hcause'⟩ := exists_of_verdict_error h'
    rw [he, he']
    exact .error (hcause.trans hcause'.symm)

/-- Enough arguments for a frame have a middle. -/
theorem exists_middle {front back arguments : List TypeExpr}
    (h : front.length + back.length ≤ arguments.length) :
    ∃ leading mid trailing, arguments = leading ++ (mid ++ trailing) ∧
      leading.length = front.length ∧ trailing.length = back.length := by
  refine ⟨arguments.take front.length,
    (arguments.drop front.length).take (arguments.length - front.length - back.length),
    (arguments.drop front.length).drop (arguments.length - front.length - back.length), ?_, ?_, ?_⟩
  · rw [List.take_append_drop, List.take_append_drop]
  · rw [List.length_take]
    omega
  · rw [List.length_drop, List.length_drop]
    omega

/-- A list with one spread slot between single slots is given too few arguments if there are fewer
than single slots.  Otherwise any two middles between the same arguments are matched alike: the
tuple variable is bound to its own middle, and nothing else depends on it. -/
theorem matchParameters_framed (front back : List TypeExpr) (ts : TupleVar)
    (hframe : ∀ f ∈ front ++ back, ts ∉ f.tupleMentions) :
    (∀ arguments : List TypeExpr, (∀ t ∈ arguments, t.IsGround) →
      ((∃ e, (matchParameters (.framed front ts back) arguments).result = .error e ∧
          e.cause.category = .arityMismatch ∧ e.path = []) ↔
        arguments.length < front.length + back.length)) ∧
    ∀ leading trailing mid mid' : List TypeExpr,
      leading.length = front.length → trailing.length = back.length →
      (∀ t ∈ leading ++ mid ++ mid' ++ trailing, t.IsGround) →
      DifferAt ts mid mid'
        (matchParameters (.framed front ts back) (leading ++ mid ++ trailing)).result
        (matchParameters (.framed front ts back) (leading ++ mid' ++ trailing)).result := by
  constructor
  · intro arguments hground
    constructor
    · rintro ⟨e, he, -, hpath⟩
      refine Nat.lt_of_not_le fun hlong => ?_
      obtain ⟨leading, mid, trailing, rfl, hleading, htrailing⟩ := exists_middle hlong
      have hactuals : ∀ a ∈ leading ++ trailing, ¬a.Mentions (.tuple ts) := by
        intro a ha
        refine (hground a ?_).not_mentions _
        rcases List.mem_append.1 ha with ha | ha <;> simp [ha]
      exact (path_ne_nil_of_framed hframe hactuals hleading htrailing).of_error he hpath
    · intro hshort
      exact ⟨_, result_framed_of_short hshort, rfl, rfl⟩
  · intro leading trailing mid mid' hleading htrailing hground
    have hactuals : ∀ a ∈ leading ++ trailing, ¬a.Mentions (.tuple ts) := by
      intro a ha
      refine (hground a ?_).not_mentions _
      rcases List.mem_append.1 ha with ha | ha <;> simp [ha]
    rw [List.append_assoc, List.append_assoc]
    exact differAt_of_verdict
      (verdict_matchParameters_framed hframe hactuals hleading htrailing mid)
      (verdict_matchParameters_framed hframe hactuals hleading htrailing mid')

/-- The list `(tuple[*Ts1], T0, *Ts0, list[*Ts1])` with no argument in the middle and with two. -/
theorem matchParameters_framed_succeeding :
    (∀ f ∈ [TypeExpr.packed ⟨1⟩, .var ⟨0⟩] ++ [.apply (.named "list") [.spread ⟨1⟩]],
      (⟨0⟩ : TupleVar) ∉ f.tupleMentions) ∧
    DifferAt ⟨0⟩ [] [.named "int", .named "str"]
      (.ok (((Binding.empty.bindTuple ⟨1⟩ [.named "int"]).bindScalar ⟨0⟩ (.named "str")).bindTuple
        ⟨0⟩ []))
      (.ok (((Binding.empty.bindTuple ⟨1⟩ [.named "int"]).bindScalar ⟨0⟩ (.named "str")).bindTuple
        ⟨0⟩ [.named "int", .named "str"])) := by
  have hframe : ∀ f ∈ [TypeExpr.packed ⟨1⟩, .var ⟨0⟩] ++ [.apply (.named "list") [.spread ⟨1⟩]],
      (⟨0⟩ : TupleVar) ∉ f.tupleMentions := by decide
  refine ⟨hframe, ?_⟩
  exact (matchParameters_framed _ _ _ hframe).2 [.tuple [.named "int"], .named "str"]
    [.apply (.named "list") [.named "int"]] [] [.named "int", .named "str"] rfl rfl
    (by simp [TypeExpr.tuple])

end Polyadic
