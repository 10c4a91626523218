import Polyadic.Session

/-! # Work and attempts

Work in place does what an attempt says (`Mirrors`).  If the attempt succeeds, then so does the
work; it leaves the binding in the recorder, the events in the log, and the trail and the stack as
they were.  If the attempt fails, then so does the work, at the same position as seen from the
trail, with the events up to then in the log; what it leaves elsewhere is not said.  Each rule is
about one way of putting work together, and the functions that match and expand follow by them, one
after another. -/

namespace Polyadic

/-! ### Logs -/

namespace Log

/-- Puts events into a log one after another. -/
def pushAll (l : Log) (events : List Event) : Log := events.foldl push l

theorem pushAll_append (l : Log) (es fs : List Event) :
    l.pushAll (es ++ fs) = (l.pushAll es).pushAll fs := List.foldl_append

@[simp] theorem pushAll_nil (l : Log) : l.pushAll [] = l := rfl

theorem pushAll_cons (l : Log) (e : Event) (events : List Event) :
    l.pushAll (e :: events) = (l.push e).pushAll events := rfl

@[simp] theorem pushAll_singleton (l : Log) (e : Event) : l.pushAll [e] = l.push e := rfl

theorem push_of_not_enabled {l : Log} (h : ¬l.enabled = true) (e : Event) : l.push e = l :=
  if_neg h

end Log

/-! ### The relation -/

section rules

variable {α β γ δ : Type}

/-- Work does, from a recorder on, what an attempt says.  `value` and `bound` say what the work
returns and binds when the attempt succeeds. -/
def Mirrors (x : Work α) (r : Recorder) (y : Attempt β) (value : β → α) (bound : β → Binding) :
    Prop :=
  match y.result with
  | .ok b => x r = .ok (value b) { r with log := r.log.pushAll y.events, binding := bound b }
  | .error e => ∃ r', x r = .error ⟨e.cause, r.trail ++ e.path⟩ r' ∧
      r'.log = r.log.pushAll y.events

variable {x : Work α} {r : Recorder} {y : Attempt β} {value : β → α} {bound : β → Binding}
  {f : α → Work γ} {g : β → Attempt δ} {value' : δ → γ} {bound' : δ → Binding}

theorem Mirrors.of_ok (h : Mirrors x r y value bound) {b : β} (hy : y.result = .ok b) :
    x r = .ok (value b) { r with log := r.log.pushAll y.events, binding := bound b } := by
  rw [Mirrors, hy] at h
  exact h

theorem Mirrors.of_error (h : Mirrors x r y value bound) {e : Failure} (hy : y.result = .error e) :
    ∃ r', x r = .error ⟨e.cause, r.trail ++ e.path⟩ r' ∧ r'.log = r.log.pushAll y.events := by
  rw [Mirrors, hy] at h
  exact h

theorem mirrors_of_ok {b : β} (hy : y.result = .ok b)
    (h : x r = .ok (value b) { r with log := r.log.pushAll y.events, binding := bound b }) :
    Mirrors x r y value bound := by
  rw [Mirrors, hy]
  exact h

theorem mirrors_of_error {e : Failure} (hy : y.result = .error e)
    (h : ∃ r', x r = .error ⟨e.cause, r.trail ++ e.path⟩ r' ∧ r'.log = r.log.pushAll y.events) :
    Mirrors x r y value bound := by
  rw [Mirrors, hy]
  exact h

/-! ### Rules -/

theorem work_bind_ok {a : α} {r' : Recorder} (h : x r = .ok a r') : (x >>= f) r = f a r' := by
  show EStateM.bind x f r = _
  rw [EStateM.bind, h]

theorem work_bind_error {e : Failure} {r' : Recorder} (h : x r = .error e r') :
    (x >>= f) r = .error e r' := by
  show EStateM.bind x f r = _
  rw [EStateM.bind, h]

/-- Work that enters a part comes back from it when it succeeds. -/
theorem bracket_ok {enter leave : Recorder → Recorder} {a : α} {r₁ r₂ : Recorder}
    (h : x (enter r) = .ok a r₁) (hleave : leave r₁ = r₂) :
    (do
      modify enter
      let a ← x
      modify leave
      return a : Work α) r = .ok a r₂ := by
  subst hleave
  show (x >>= fun a => _) (enter r) = _
  rw [work_bind_ok h]
  rfl

/-- Work that fails inside a part does not come back from it. -/
theorem bracket_error {enter leave : Recorder → Recorder} {e : Failure} {r' : Recorder}
    (h : x (enter r) = .error e r') :
    (do
      modify enter
      let a ← x
      modify leave
      return a : Work α) r = .error e r' := by
  show (x >>= fun a => _) (enter r) = _
  rw [work_bind_error h]

theorem mirrors_pure {a : α} {b : β} (ha : a = value b) (hb : r.binding = bound b) :
    Mirrors (pure a) r (pure b) value bound := by
  refine mirrors_of_ok rfl ?_
  rw [← ha, ← hb]
  rfl

theorem Mirrors.bind (hx : Mirrors x r y value bound)
    (hf : ∀ b log, Mirrors (f (value b)) { r with log := log, binding := bound b } (g b) value'
      bound') :
    Mirrors (x >>= f) r (y >>= g) value' bound' := by
  cases hy : y.result with
  | error e =>
    obtain ⟨r', hr', hlog⟩ := hx.of_error hy
    rw [Attempt.bind_of_error hy]
    exact mirrors_of_error rfl ⟨r', work_bind_error hr', hlog⟩
  | ok b =>
    have hstep := work_bind_ok (f := f) (hx.of_ok hy)
    have hf := hf b (r.log.pushAll y.events)
    rw [Attempt.bind_of_ok hy]
    cases hg : (g b).result with
    | ok d =>
      refine mirrors_of_ok rfl ?_
      rw [hstep, hf.of_ok hg, ← Log.pushAll_append]
    | error e =>
      obtain ⟨r', hr', hlog⟩ := hf.of_error hg
      refine mirrors_of_error rfl ⟨r', ?_, ?_⟩
      · rw [hstep, hr']
      · rw [hlog, ← Log.pushAll_append]

theorem mirrors_note (e : Event) :
    Mirrors (Work.note e) r (Attempt.log e) id fun _ => r.binding := rfl

/-- A guard in front of what is put into the log makes no difference. -/
theorem mirrors_noteIfEnabled (e : Event) :
    Mirrors (Work.noteIfEnabled e) r (Attempt.log e) id fun _ => r.binding := by
  refine mirrors_of_ok rfl ?_
  show (if r.log.enabled then Work.note e else pure ()) r = _
  split
  · rfl
  · rename_i h
    rw [Attempt.events_log, Log.pushAll_singleton, Log.push_of_not_enabled h]
    rfl

theorem mirrors_fail (cause : Cause) :
    Mirrors (Work.fail cause : Work α) r (Attempt.fail cause) value bound :=
  ⟨r, by rw [List.append_nil]; rfl, rfl⟩

theorem mirrors_ofExcept (h : r.trail = []) (y : Except Failure β) :
    Mirrors (ofExcept y) r (Attempt.ofExcept y) id fun _ => r.binding := by
  cases y with
  | ok b => exact mirrors_of_ok rfl rfl
  | error e => exact mirrors_of_error rfl ⟨r, by rw [h]; rfl, rfl⟩

theorem Mirrors.under {segment : Segment}
    (h : Mirrors x { r with trail := r.trail ++ [segment] } y value bound) :
    Mirrors (Work.under segment x) r (y.under segment) value bound := by
  cases hy : y.result with
  | ok b =>
    have hrun : Work.under segment x r = .ok (value b) { r with
        log := r.log.pushAll y.events, binding := bound b } :=
      bracket_ok (h.of_ok hy) (by rw [List.dropLast_concat])
    exact mirrors_of_ok (by rw [Attempt.result_under, hy]; rfl) hrun
  | error e =>
    obtain ⟨r', hr', hlog⟩ := h.of_error hy
    have hrun : Work.under segment x r = .error ⟨e.cause, r.trail ++ [segment] ++ e.path⟩ r' :=
      bracket_error hr'
    rw [List.append_assoc] at hrun
    exact mirrors_of_error (by rw [Attempt.result_under, hy]; rfl) ⟨r', hrun, hlog⟩

theorem Mirrors.recast (h : Mirrors x r y value bound) (f : Cause → Cause) :
    Mirrors (x.adaptExcept fun e => { e with cause := f e.cause }) r (y.recast f) value bound := by
  cases hy : y.result with
  | ok b =>
    refine mirrors_of_ok (b := b) (by rw [Attempt.result_recast, hy]; rfl) ?_
    rw [EStateM.adaptExcept, h.of_ok hy]
    rfl
  | error e =>
    obtain ⟨r', hr', hlog⟩ := h.of_error hy
    refine mirrors_of_error (e := { e with cause := f e.cause })
      (by rw [Attempt.result_recast, hy]; rfl) ⟨r', ?_, hlog⟩
    rw [EStateM.adaptExcept, hr']

theorem mirrors_get {f : Recorder → Work α} (h : Mirrors (f r) r y value bound) :
    Mirrors (get >>= f) r y value bound := h

theorem mirrors_binding {f : Binding → Work α} (h : Mirrors (f r.binding) r y value bound) :
    Mirrors (InPlace.binding >>= f) r y value bound := h

theorem mirrors_rebind {f : Binding → Binding} {b : Binding} {value : Binding → Unit}
    (h : b = f r.binding) : Mirrors (InPlace.rebind f) r (pure b) value id := by
  subst h
  exact mirrors_of_ok rfl rfl

end rules

/-! ### Assigning variables -/

section matching

/-- Work on the binding does what an attempt says that hands a binding on. -/
def Tracks (x : Work Unit) (y : Binding → Attempt Binding) : Prop :=
  ∀ r : Recorder, Mirrors x r (y r.binding) (fun _ => ()) id

theorem tracks_assignScalar (v : TypeVar) (t : TypeExpr) :
    Tracks (InPlace.assignScalar v t) (assignScalar v t) := by
  intro r
  refine mirrors_binding ?_
  rw [assignScalar]
  cases r.binding.scalar? v with
  | none => exact (mirrors_note _).bind fun _ _ => mirrors_rebind rfl
  | some previous =>
    by_cases h : previous = t
    · simp only [h, ne_eq, not_true_eq_false, if_false, if_true]
      exact mirrors_pure rfl rfl
    · simp only [h, ne_eq, not_false_eq_true, if_true, if_false]
      exact (mirrors_note _).bind fun _ _ => mirrors_fail _

theorem tracks_assignTuple (ts : TupleVar) (contents : List TypeExpr) :
    Tracks (InPlace.assignTuple ts contents) (assignTuple ts contents) := by
  intro r
  refine mirrors_binding ?_
  rw [assignTuple]
  cases r.binding.tuple? ts with
  | none => exact (mirrors_noteIfEnabled _).bind fun _ _ => mirrors_rebind rfl
  | some previous =>
    by_cases h : previous = contents
    · simp only [h, ne_eq, not_true_eq_false, if_false, if_true]
      exact mirrors_pure rfl rfl
    · simp only [h, ne_eq, not_false_eq_true, if_true, if_false]
      exact (mirrors_note _).bind fun _ _ => mirrors_fail _

theorem tracks_mismatch (expected actual : TypeExpr) :
    Tracks (InPlace.mismatch expected actual) fun _ => mismatch expected actual :=
  fun _ => (mirrors_note _).bind fun _ _ => mirrors_fail _

/-- Work on a part is followed by work on the others. -/
theorem mirrors_part {x rest : Work Unit} {r : Recorder} {y : Attempt Binding}
    {rest' : Binding → Attempt Binding} {segment : Segment}
    (h : Mirrors x { r with trail := r.trail ++ [segment] } y (fun _ => ()) id)
    (hrest : Tracks rest rest') :
    Mirrors (Work.under segment x >>= fun _ => rest) r (y.under segment >>= rest') (fun _ => ())
      id :=
  h.under.bind fun _ _ => hrest _

/-! ### Slots -/

variable {u : InPlace.Unifier} {u' : Unifier} {place : Nat → Segment}

/-- A way of matching types in place does what another one says. -/
def Unifier.IsTrackedBy (u' : Unifier) (u : InPlace.Unifier) : Prop :=
  ∀ f a, Tracks (u f a) (u' f a)

theorem tracks_unifyEach (hu : u'.IsTrackedBy u) (i : Nat) (formals actuals : List TypeExpr) :
    Tracks (InPlace.unifyEach u place i formals actuals)
      (unifyEach u' place i formals actuals) := by
  induction formals generalizing i actuals with
  | nil => exact fun _ => mirrors_pure rfl rfl
  | cons f fs ih =>
    cases actuals with
    | nil => exact fun _ => mirrors_pure rfl rfl
    | cons a as => exact fun r => mirrors_part (hu f a _) (ih (i + 1) as)

theorem tracks_stripEach (hu : u'.IsTrackedBy u) (ctor : TypeExpr) (ts : TupleVar) (i : Nat)
    (arguments : List TypeExpr) :
    Tracks (InPlace.stripEach u place ctor ts i arguments)
      (stripEach u' place ctor ts i arguments) := by
  induction arguments generalizing i with
  | nil => exact fun _ => mirrors_pure rfl rfl
  | cons a as ih =>
    intro r
    rw [InPlace.stripEach, stripEach]
    refine mirrors_part ?_ (ih (i + 1))
    cases a.unary? with
    | none => exact tracks_mismatch _ _ _
    | some parts => exact (hu ctor parts.1 _).under

theorem tracks_matchSlot (hu : u'.IsTrackedBy u) (slot : Slot) (run : Run) :
    Tracks (InPlace.matchSlot u place slot run) (matchSlot u' place slot run) := by
  cases slot with
  | single f => exact tracks_unifyEach hu _ _ _
  | spread ts => exact fun r => (tracks_assignTuple _ _ _).under
  | mapped ctor ts =>
    intro r
    refine mirrors_binding ?_
    rw [matchSlot]
    cases r.binding.tuple? ts with
    | some contents =>
      exact (mirrors_noteIfEnabled _).bind fun _ _ => tracks_unifyEach hu _ _ _ _
    | none =>
      exact (mirrors_noteIfEnabled _).bind fun _ _ =>
        (tracks_stripEach hu _ _ _ _ _).bind fun b log => tracks_assignTuple _ _ _

/-! ### Rows of slots -/

theorem mirrors_wrongArity {α β : Type} {r : Recorder} {value : β → α} {bound : β → Binding}
    (slots : List Slot) (found : Nat) :
    Mirrors (InPlace.wrongArity slots found) r (wrongArity r.binding slots found) value bound :=
  mirrors_binding (mirrors_fail _)

theorem mirrors_evenShare (r : Recorder) (slots : List Slot) (run : Run) :
    Mirrors (InPlace.evenShare slots run) r (evenShare slots run r.binding) id
      fun _ => r.binding := by
  refine mirrors_binding ?_
  rw [evenShare]
  split
  · exact (mirrors_noteIfEnabled _).bind fun _ _ => mirrors_fail _
  split
  · exact mirrors_wrongArity _ _
  · rw [InPlace.shareEvenly, shareEvenly]
    split
    · exact mirrors_fail _
    split
    · exact (mirrors_noteIfEnabled _).bind fun _ _ => mirrors_pure rfl rfl
    · exact mirrors_pure rfl rfl

/-- A window without its binding. -/
def Window.frame (w : Window) : InPlace.Frame := ⟨w.side, w.slots, w.run⟩

theorem mirrors_takeSlot (hu : u'.IsTrackedBy u) (r : Recorder) (side : Side) (slots : List Slot)
    (run : Run) :
    Mirrors (InPlace.takeSlot u place ⟨side, slots, run⟩) r
      (takeSlot u' place ⟨side, slots, run, r.binding⟩) Window.frame Window.binding := by
  refine mirrors_binding ?_
  rw [takeSlot]
  cases nextMove (fun s => !s.isOpen r.binding) side slots with
  | done => exact mirrors_pure rfl rfl
  | front slot rest =>
    by_cases h : run.length < slot.width r.binding
    · simp only [h, if_true]
      exact mirrors_wrongArity _ _
    · simp only [h, if_false]
      exact (tracks_matchSlot hu _ _ _).bind fun b log => mirrors_pure rfl rfl
  | back rest slot =>
    by_cases h : run.length < slot.width r.binding
    · simp only [h, if_true]
      exact mirrors_wrongArity _ _
    · simp only [h, if_false]
      exact (tracks_matchSlot hu _ _ _).bind fun b log => mirrors_pure rfl rfl
  | stuck slot rest =>
    exact (mirrors_evenShare r _ _).bind fun width log =>
      (tracks_matchSlot hu _ _ _).bind fun b log => mirrors_pure rfl rfl

theorem mirrors_takeSlots (hu : u'.IsTrackedBy u) (n : Nat) (r : Recorder) (side : Side)
    (slots : List Slot) (run : Run) :
    Mirrors (InPlace.takeSlots u place n ⟨side, slots, run⟩) r
      (takeSlots u' place n ⟨side, slots, run, r.binding⟩) Window.frame Window.binding := by
  induction n generalizing r side slots run with
  | zero => exact mirrors_pure rfl rfl
  | succ n ih =>
    exact (mirrors_takeSlot hu r side slots run).bind fun w log => ih _ w.side w.slots w.run

theorem tracks_matchList (hu : u'.IsTrackedBy u) (slots : List Slot) (arguments : List TypeExpr) :
    Tracks (InPlace.matchList u place slots arguments) (matchList u' place slots arguments) := by
  intro r
  refine mirrors_binding ?_
  rw [matchList]
  split
  · refine (mirrors_takeSlots hu _ r _ _ _).bind fun w log => ?_
    by_cases h : w.run.types.isEmpty = true
    · simp only [Window.frame, h]
      exact mirrors_pure rfl rfl
    · simp only [Window.frame, h]
      exact mirrors_binding (mirrors_fail _)
  · exact mirrors_wrongArity _ _

/-! ### Types -/

/-- Types of which neither is taken apart are compared. -/
theorem tracks_compare (formal actual : TypeExpr) :
    Tracks
      (if formal = actual then Work.note (.identity formal) else InPlace.mismatch formal actual)
      fun b => if formal = actual then do
          Attempt.log (.identity formal)
          return b
        else mismatch formal actual := by
  intro r
  by_cases h : formal = actual
  · simp only [h, if_true]
    exact mirrors_of_ok rfl rfl
  · simp only [h, if_false]
    exact tracks_mismatch _ _ r

theorem tracks_unifyStep (hu : u'.IsTrackedBy u) (formal actual : TypeExpr) :
    Tracks (InPlace.unifyStep u formal actual) (unifyStep u' formal actual) := by
  intro r
  have hcompare := tracks_compare formal actual r
  cases formal with
  | var v => exact tracks_assignScalar v actual r
  | packed ts =>
    rw [InPlace.unifyStep, unifyStep]
    cases actual.tupleElements? with
    | none => exact tracks_mismatch _ _ r
    | some elements => exact (mirrors_note _).bind fun _ _ => tracks_matchList hu _ _ _
  | apply head args =>
    cases actual with
    | packed us =>
      rw [InPlace.unifyStep, unifyStep]
      split
      · exact tracks_matchList hu _ _ _
      · exact tracks_mismatch _ _ r
    | apply head' args' =>
      exact (mirrors_note _).bind fun _ _ =>
        (hu head head' _).under.bind fun b log => tracks_matchList hu _ _ _
    | _ => exact hcompare
  | arrow params result =>
    cases actual with
    | arrow params' result' =>
      exact (mirrors_note _).bind fun _ _ =>
        (tracks_matchList hu _ _ _).bind fun b log => (hu result result' _).under
    | _ => exact hcompare
  | union members =>
    cases actual with
    | union members' => exact (mirrors_note _).bind fun _ _ => tracks_matchList hu _ _ _
    | _ => exact hcompare
  | named | spread | spreadMap => exact hcompare

theorem isTrackedBy_unifyWithin (n : Nat) :
    (unifyWithin n).IsTrackedBy (InPlace.unifyWithin n) := by
  induction n with
  | zero => exact fun f a => tracks_mismatch f a
  | succ n ih => exact fun f a => tracks_unifyStep ih f a

theorem isTrackedBy_unify : Unifier.IsTrackedBy unify InPlace.unify :=
  fun f a => isTrackedBy_unifyWithin a.weight f a

/-! ### Parameter lists and calls -/

theorem tracks_solveAnchor (formal actual : TypeExpr) :
    Tracks (InPlace.solveAnchor formal actual) (solveAnchor formal actual) := by
  intro r
  exact mirrors_binding <| (mirrors_note _).bind fun _ log =>
    (isTrackedBy_unify formal actual _).recast _

theorem tracks_solveAnchors (i : Nat) (anchors : List Anchor) :
    Tracks (InPlace.solveAnchors i anchors) (solveAnchors i anchors) := by
  induction anchors generalizing i with
  | nil => exact fun r => mirrors_pure rfl rfl
  | cons anchor anchors ih =>
    exact fun r => mirrors_part (tracks_solveAnchor _ _ _) (ih (i + 1))

theorem tracks_solveKeywords (function : String) (call : Call)
    (keywords : List (String × TypeExpr)) :
    Tracks (InPlace.solveKeywords function call keywords)
      (solveKeywords function call keywords) := by
  induction keywords with
  | nil => exact fun r => mirrors_pure rfl rfl
  | cons keyword keywords ih =>
    obtain ⟨name, formal⟩ := keyword
    intro r
    rw [InPlace.solveKeywords, solveKeywords]
    refine mirrors_part ?_ ih
    cases call.keyword? name with
    | none => exact mirrors_fail _
    | some actual => exact tracks_solveAnchor formal actual _

theorem tracks_collectKeywords (function : String) (kwargs : Option TypeExpr)
    (keywords : List (String × TypeExpr)) :
    Tracks (InPlace.collectKeywords function kwargs keywords)
      (collectKeywords function kwargs keywords) := by
  induction keywords with
  | nil => exact fun r => mirrors_pure rfl rfl
  | cons keyword keywords ih =>
    obtain ⟨name, actual⟩ := keyword
    intro r
    cases kwargs with
    | none => exact mirrors_part (mirrors_fail _) ih
    | some formal => exact mirrors_part (isTrackedBy_unify formal actual _) ih

theorem tracks_matchAnchored (formal : ParameterList) (arguments : List TypeExpr)
    (anchors : List Anchor) (r : Recorder) (h : r.binding = .empty) :
    Mirrors (InPlace.matchAnchored formal arguments anchors) r
      (matchAnchored formal arguments anchors) (fun _ => ()) id := by
  rw [matchAnchored, ← h]
  exact (tracks_solveAnchors 0 anchors r).bind fun b log =>
    tracks_matchList isTrackedBy_unify _ _ _

theorem tracks_matchCall (s : Signature) (call : Call) (r : Recorder) (h : r.binding = .empty) :
    Mirrors (InPlace.matchCall s call) r (matchCall s call) (fun _ => ()) id := by
  rw [matchCall, ← h]
  exact (tracks_solveKeywords _ _ _ r).bind fun b log =>
    (tracks_collectKeywords _ _ _ _).bind fun b log => tracks_matchList isTrackedBy_unify _ _ _

end matching

end Polyadic
