import Polyadic.Proofs.Histories
import Polyadic.Proofs.Nodes

/-! # What the log says of the binding

The steps that a session keeps of a match are numbered from one on, a failure is told at the end or
not at all, and the assignments that are told are those of the binding (`log_tells_binding`).  It
comes down to one relation between the events of an attempt and the binding before and after it
(`Tells`), in which every assignment is told when it is made, of a variable that had no value. -/

namespace Polyadic

open Attempt

/-! ### Events that tell a binding -/

/-- Events that are not about a variable and not about a failure. -/
def Event.isNeutral (e : Event) : Prop :=
  e.action ≠ .bindScalar ∧ e.action ≠ .bindTuple ∧ e.action ≠ .error

/-- Events tell how a binding grows out of another one.  They tell of no failure. -/
inductive Tells : Binding → List Event → Binding → Prop
  | nil {b : Binding} : Tells b [] b
  | scalar {b b' : Binding} {v : TypeVar} {t : TypeExpr} {events : List Event}
      (fresh : b.scalar? v = none) (rest : Tells (b.bindScalar v t) events b') :
      Tells b (.bindScalar v t :: events) b'
  | tuple {b b' : Binding} {ts : TupleVar} {contents : List TypeExpr} {events : List Event}
      (fresh : b.tuple? ts = none) (rest : Tells (b.bindTuple ts contents) events b') :
      Tells b (.bindTuple ts contents :: events) b'
  | neutral {b b' : Binding} {e : Event} {events : List Event} (he : e.isNeutral)
      (rest : Tells b events b') : Tells b (e :: events) b'

theorem Tells.append {b b₁ b₂ : Binding} {es fs : List Event} (h : Tells b es b₁)
    (h' : Tells b₁ fs b₂) : Tells b (es ++ fs) b₂ := by
  induction h with
  | nil => exact h'
  | scalar fresh _ ih => exact .scalar fresh (ih h')
  | tuple fresh _ ih => exact .tuple fresh (ih h')
  | neutral he _ ih => exact .neutral he (ih h')

theorem Tells.not_error {b b' : Binding} {es : List Event} (h : Tells b es b') :
    ∀ e ∈ es, e.action ≠ .error := by
  induction h with
  | nil => simp
  | scalar _ _ ih => simpa [Event.action] using ih
  | tuple _ _ ih => simpa [Event.action] using ih
  | neutral he _ ih => simpa [he.2.2] using ih

namespace Attempt

variable {α β : Type}

/-- The events of a successful attempt tell its binding; those of a failed one tell of a failure at
the end, if at all. -/
def IsTold (b : Binding) (bound : α → Binding) (x : Attempt α) : Prop :=
  match x.result with
  | .ok a => Tells b x.events (bound a)
  | .error _ => ∀ e ∈ x.events.dropLast, e.action ≠ .error

variable {b : Binding} {bound : α → Binding} {bound' : β → Binding} {x : Attempt α}
  {f : α → Attempt β}

theorem isTold_of_ok {a : α} (hx : x.result = .ok a) :
    x.IsTold b bound ↔ Tells b x.events (bound a) := by rw [IsTold, hx]

theorem isTold_of_error {e : Failure} (hx : x.result = .error e) :
    x.IsTold b bound ↔ ∀ e ∈ x.events.dropLast, e.action ≠ .error := by rw [IsTold, hx]

theorem isTold_pure {a : α} (h : bound a = b) : (pure a : Attempt α).IsTold b bound :=
  h ▸ Tells.nil

theorem isTold_fail (cause : Cause) : (fail cause : Attempt α).IsTold b bound := nofun

/-- A failure may be told of, at the end. -/
theorem isTold_log_fail (e : Event) (cause : Cause) :
    (log e >>= fun _ => fail cause : Attempt α).IsTold b bound := nofun

theorem isTold_log {e : Event} (he : e.isNeutral) : (log e).IsTold b fun _ => b :=
  Tells.neutral he .nil

theorem IsTold.bind (hx : x.IsTold b bound) (hf : ∀ a, (f a).IsTold (bound a) bound') :
    (x >>= f).IsTold b bound' := by
  cases hr : x.result with
  | error e =>
    rw [bind_of_error hr]
    exact (isTold_of_error hr).1 hx
  | ok a =>
    have htells := (isTold_of_ok hr).1 hx
    have hf := hf a
    rw [bind_of_ok hr]
    cases hr' : (f a).result with
    | ok a' => exact htells.append ((isTold_of_ok hr').1 hf)
    | error e =>
      refine (isTold_of_error rfl).2 fun ev hev => ?_
      by_cases hnil : (f a).events = []
      · rw [hnil, List.append_nil] at hev
        exact htells.not_error ev ((List.dropLast_sublist _).subset hev)
      · rw [List.dropLast_append_of_ne_nil hnil] at hev
        rcases List.mem_append.1 hev with hev | hev
        · exact htells.not_error ev hev
        · exact (isTold_of_error hr').1 hf ev hev

theorem IsTold.under (h : x.IsTold b bound) (segment : Segment) :
    (x.under segment).IsTold b bound := by
  cases hr : x.result with
  | ok a => exact (isTold_of_ok (by rw [result_under, hr]; rfl)).2 ((isTold_of_ok hr).1 h)
  | error e => exact (isTold_of_error (by rw [result_under, hr]; rfl)).2 ((isTold_of_error hr).1 h)

theorem IsTold.recast (h : x.IsTold b bound) (f : Cause → Cause) :
    (x.recast f).IsTold b bound := by
  cases hr : x.result with
  | ok a => exact (isTold_of_ok (by rw [result_recast, hr]; rfl)).2 ((isTold_of_ok hr).1 h)
  | error e => exact (isTold_of_error (by rw [result_recast, hr]; rfl)).2 ((isTold_of_error hr).1 h)

end Attempt

/-! ### Matching -/

section matching

variable {b : Binding}

theorem isTold_assignScalar (v : TypeVar) (t : TypeExpr) (b : Binding) :
    (assignScalar v t b).IsTold b id := by
  rw [assignScalar]
  cases h : b.scalar? v with
  | none => exact Tells.scalar h .nil
  | some previous =>
    by_cases heq : previous = t
    · simp only [heq, if_true]
      exact isTold_pure rfl
    · simp only [heq, if_false]
      exact isTold_log_fail _ _

theorem isTold_assignTuple (ts : TupleVar) (contents : List TypeExpr) (b : Binding) :
    (assignTuple ts contents b).IsTold b id := by
  rw [assignTuple]
  cases h : b.tuple? ts with
  | none => exact Tells.tuple h .nil
  | some previous =>
    by_cases heq : previous = contents
    · simp only [heq, if_true]
      exact isTold_pure rfl
    · simp only [heq, if_false]
      exact isTold_log_fail _ _

theorem isTold_mismatch {bound : Binding → Binding} (expected actual : TypeExpr) :
    (mismatch expected actual).IsTold b bound := isTold_log_fail _ _

variable {u : Unifier} {place : Nat → Segment}

/-- What a way of matching types binds is told. -/
def Unifier.IsTold (u : Unifier) : Prop := ∀ f a b, (u f a b).IsTold b id

theorem isTold_unifyEach (hu : u.IsTold) (i : Nat) (formals actuals : List TypeExpr)
    (b : Binding) : (unifyEach u place i formals actuals b).IsTold b id := by
  induction formals generalizing i actuals b with
  | nil => exact isTold_pure rfl
  | cons f fs ih =>
    cases actuals with
    | nil => exact isTold_pure rfl
    | cons a as => exact ((hu f a b).under _).bind fun b => ih (i + 1) as b

theorem isTold_stripEach (hu : u.IsTold) (ctor : TypeExpr) (ts : TupleVar) (i : Nat)
    (arguments : List TypeExpr) (b : Binding) :
    (stripEach u place ctor ts i arguments b).IsTold b id := by
  induction arguments generalizing i b with
  | nil => exact isTold_pure rfl
  | cons a as ih =>
    refine IsTold.bind (IsTold.under ?_ _) fun b => ih (i + 1) b
    cases a.unary? with
    | none => exact isTold_mismatch _ _
    | some parts => exact (hu ctor parts.1 b).under _

theorem isTold_matchSlot (hu : u.IsTold) (slot : Slot) (run : Run) (b : Binding) :
    (matchSlot u place slot run b).IsTold b id := by
  cases slot with
  | single f => exact isTold_unifyEach hu _ _ _ b
  | spread ts => exact (isTold_assignTuple _ _ b).under _
  | mapped ctor ts =>
    rw [matchSlot]
    cases b.tuple? ts with
    | some contents =>
      exact (isTold_log (by simp [Event.isNeutral, Event.action])).bind fun _ =>
        isTold_unifyEach hu _ _ _ b
    | none =>
      exact (isTold_log (by simp [Event.isNeutral, Event.action])).bind fun _ =>
        (isTold_stripEach hu _ _ _ _ b).bind fun b => isTold_assignTuple _ _ b

theorem isTold_evenShare (slots : List Slot) (run : Run) (b : Binding) :
    (evenShare slots run b).IsTold b fun _ => b := by
  rw [evenShare]
  split
  · exact isTold_log_fail _ _
  split
  · exact isTold_fail _
  rw [shareEvenly]
  split
  · exact isTold_fail _
  split
  · exact (isTold_log (by simp [Event.isNeutral, Event.action])).bind fun _ => isTold_pure rfl
  · exact isTold_pure rfl

theorem isTold_takeSlot (hu : u.IsTold) (w : Window) :
    (takeSlot u place w).IsTold w.binding Window.binding := by
  rw [takeSlot]
  split
  · exact isTold_pure rfl
  · split
    · exact isTold_fail _
    · exact (isTold_matchSlot hu _ _ _).bind fun b => isTold_pure rfl
  · split
    · exact isTold_fail _
    · exact (isTold_matchSlot hu _ _ _).bind fun b => isTold_pure rfl
  · exact (isTold_evenShare _ _ _).bind fun width =>
      (isTold_matchSlot hu _ _ _).bind fun b => isTold_pure rfl

theorem isTold_takeSlots (hu : u.IsTold) (n : Nat) (w : Window) :
    (takeSlots u place n w).IsTold w.binding Window.binding := by
  induction n generalizing w with
  | zero => exact isTold_pure rfl
  | succ n ih => exact (isTold_takeSlot hu w).bind ih

theorem isTold_matchList (hu : u.IsTold) (slots : List Slot) (arguments : List TypeExpr)
    (b : Binding) : (matchList u place slots arguments b).IsTold b id := by
  rw [matchList]
  split
  · refine (isTold_takeSlots hu _ (.whole slots arguments b)).bind fun w => ?_
    split
    · exact isTold_pure rfl
    · exact isTold_fail _
  · exact isTold_fail _

theorem isTold_unifyStep (hu : u.IsTold) : Unifier.IsTold (unifyStep u) := by
  intro formal actual b
  have hneutral (f a : TypeExpr) : (log (.decompose f a)).IsTold b fun _ => b :=
    isTold_log (by simp [Event.isNeutral, Event.action])
  unfold unifyStep
  split
  · exact isTold_assignScalar _ _ b
  · split
    · exact (hneutral _ _).bind fun _ => isTold_matchList hu _ _ b
    · exact isTold_mismatch _ _
  · split
    · exact isTold_matchList hu _ _ b
    · exact isTold_mismatch _ _
  · exact (hneutral _ _).bind fun _ => ((hu _ _ b).under _).bind fun b => isTold_matchList hu _ _ b
  · exact (hneutral _ _).bind fun _ => (isTold_matchList hu _ _ b).bind fun b => (hu _ _ b).under _
  · exact (hneutral _ _).bind fun _ => isTold_matchList hu _ _ b
  · split
    · exact (isTold_log (by simp [Event.isNeutral, Event.action])).bind fun _ => isTold_pure rfl
    · exact isTold_mismatch _ _

theorem isTold_unifyWithin (n : Nat) : Unifier.IsTold (unifyWithin n) := by
  induction n with
  | zero => exact fun f a b => isTold_mismatch f a
  | succ n ih => exact isTold_unifyStep ih

theorem isTold_unify : Unifier.IsTold unify := fun f a b => isTold_unifyWithin a.weight f a b

theorem isTold_solveAnchor (formal actual : TypeExpr) (b : Binding) :
    (solveAnchor formal actual b).IsTold b id :=
  (isTold_log (by simp [Event.isNeutral, Event.action])).bind fun _ =>
    (isTold_unify formal actual b).recast _

theorem isTold_solveAnchors (i : Nat) (anchors : List Anchor) (b : Binding) :
    (solveAnchors i anchors b).IsTold b id := by
  induction anchors generalizing i b with
  | nil => exact isTold_pure rfl
  | cons anchor anchors ih =>
    exact ((isTold_solveAnchor _ _ b).under _).bind fun b => ih (i + 1) b

theorem isTold_solveKeywords (function : String) (call : Call)
    (keywords : List (String × TypeExpr)) (b : Binding) :
    (solveKeywords function call keywords b).IsTold b id := by
  induction keywords generalizing b with
  | nil => exact isTold_pure rfl
  | cons keyword keywords ih =>
    obtain ⟨name, formal⟩ := keyword
    rw [solveKeywords]
    refine IsTold.bind (IsTold.under ?_ _) fun b => ih b
    cases call.keyword? name with
    | none => exact isTold_fail _
    | some actual => exact isTold_solveAnchor formal actual b

theorem isTold_collectKeywords (function : String) (kwargs : Option TypeExpr)
    (keywords : List (String × TypeExpr)) (b : Binding) :
    (collectKeywords function kwargs keywords b).IsTold b id := by
  induction keywords generalizing b with
  | nil => exact isTold_pure rfl
  | cons keyword keywords ih =>
    obtain ⟨name, actual⟩ := keyword
    cases kwargs with
    | none => exact IsTold.bind ((isTold_fail _).under _) ih
    | some formal => exact ((isTold_unify formal actual b).under _).bind ih

/-- What a question about matching binds is told, from the empty binding on. -/
theorem MatchQuery.isTold_answer (q : MatchQuery) : q.answer.IsTold .empty id := by
  have hanchored (formal : ParameterList) (arguments : List TypeExpr) (anchors : List Anchor) :
      (matchAnchored formal arguments anchors).IsTold .empty id :=
    (isTold_solveAnchors 0 anchors _).bind fun b => isTold_matchList isTold_unify _ _ b
  cases q with
  | parameters formal arguments => exact hanchored formal arguments []
  | type formal actual => exact isTold_unify formal actual _
  | anchored formal arguments anchors => exact hanchored formal arguments anchors
  | call s c =>
    exact (isTold_solveKeywords _ _ _ _).bind fun b =>
      (isTold_collectKeywords _ _ _ b).bind fun b => isTold_matchList isTold_unify _ _ b

end matching

/-! ### Assignments -/

namespace Event

/-- The assignment of a scalar variable that an event tells of. -/
def boundScalar? : Event → Option (TypeVar × TypeExpr)
  | bindScalar v t => some (v, t)
  | _ => none

/-- The assignment of a tuple variable that an event tells of. -/
def boundTuple? : Event → Option (TupleVar × List TypeExpr)
  | bindTuple ts contents => some (ts, contents)
  | _ => none

theorem entries_of_isNeutral {e : Event} (h : e.isNeutral) :
    e.boundScalar? = none ∧ e.boundTuple? = none := by
  cases e <;> simp_all [isNeutral, action, boundScalar?, boundTuple?]

end Event

/-- The step that tells of the assignment of a scalar variable. -/
def scalarStep (entry : TypeVar × TypeExpr) : Step :=
  ⟨.bindScalar, entry.1.text, entry.2.text, entry.1.text ++ " := " ++ entry.2.text⟩

/-- The step that tells of the assignment of a tuple variable. -/
def tupleStep (entry : TupleVar × List TypeExpr) : Step :=
  ⟨.bindTuple, entry.1.text, (TypeExpr.tuple entry.2).text,
    entry.1.text ++ " := " ++ (TypeExpr.tuple entry.2).text⟩

/-- The steps of one kind are those that tell of the entries in events of that kind. -/
theorem filter_steps {ε : Type} {kind : Action} {about? : Event → Option ε} {words : ε → Step}
    (hsome : ∀ e entry, about? e = some entry → e.action = kind ∧ e.step = words entry)
    (hnone : ∀ e, about? e = none → e.action ≠ kind) (events : List Event) :
    (events.map Event.step).filter (·.action = kind) = (events.filterMap about?).map words := by
  induction events with
  | nil => rfl
  | cons e events ih =>
    rw [List.map_cons, List.filterMap_cons]
    cases h : about? e with
    | none =>
      rw [List.filter_cons_of_neg (by simpa using hnone e h)]
      exact ih
    | some entry =>
      obtain ⟨haction, hstep⟩ := hsome e entry h
      rw [List.filter_cons_of_pos (by simpa using haction), ih, hstep]
      rfl

theorem filter_scalarSteps (events : List Event) :
    (events.map Event.step).filter (·.action = .bindScalar) =
      (events.filterMap Event.boundScalar?).map scalarStep := by
  refine filter_steps (fun e entry h => ?_) (fun e h => ?_) events
  · cases e with
    | bindScalar v t =>
      cases h
      exact ⟨rfl, rfl⟩
    | _ => cases h
  · cases e with
    | bindScalar v t => cases h
    | _ => exact nofun

theorem filter_tupleSteps (events : List Event) :
    (events.map Event.step).filter (·.action = .bindTuple) =
      (events.filterMap Event.boundTuple?).map tupleStep := by
  refine filter_steps (fun e entry h => ?_) (fun e h => ?_) events
  · cases e with
    | bindTuple ts contents =>
      cases h
      exact ⟨rfl, rfl⟩
    | _ => cases h
  · cases e with
    | bindTuple ts contents => cases h
    | _ => exact nofun

section entries

variable {κ β : Type} [Ord κ] [Std.TransOrd κ]

theorem nodup_toList (m : Std.ExtTreeMap κ β) : m.toList.Nodup := by
  refine List.Nodup.of_map Prod.fst ?_
  rw [Std.ExtTreeMap.map_fst_toList_eq_keys]
  exact Std.ExtTreeMap.nodup_keys

/-- A key that is put into a map adds itself to the entries. -/
theorem toList_insert_perm [Std.LawfulEqOrd κ] {m : Std.ExtTreeMap κ β} {k : κ} (v : β)
    (h : m[k]? = none) : (m.insert k v).toList.Perm ((k, v) :: m.toList) := by
  have hfresh : (k, v) ∉ m.toList := by
    rw [Std.ExtTreeMap.mem_toList_iff_getElem?_eq_some, h]
    exact nofun
  refine (List.perm_ext_iff_of_nodup (nodup_toList _)
    (List.nodup_cons.2 ⟨hfresh, nodup_toList m⟩)).2 ?_
  rintro ⟨k', v'⟩
  rw [Std.ExtTreeMap.mem_toList_iff_getElem?_eq_some, Std.ExtTreeMap.getElem?_insert, List.mem_cons,
    Std.ExtTreeMap.mem_toList_iff_getElem?_eq_some]
  by_cases hk : k = k'
  · subst hk
    simp [h, eq_comm]
  · simp [hk, Ne.symm hk]

end entries

theorem Tells.scalars {b b' : Binding} {events : List Event} (h : Tells b events b') :
    b'.scalars.toList.Perm (events.filterMap Event.boundScalar? ++ b.scalars.toList) := by
  induction h with
  | nil => exact .refl _
  | scalar fresh _ ih =>
    exact (ih.trans ((toList_insert_perm _ fresh).append_left _)).trans List.perm_middle
  | tuple _ _ ih => exact ih
  | neutral he _ ih => rwa [List.filterMap_cons, (Event.entries_of_isNeutral he).1]

theorem Tells.tuples {b b' : Binding} {events : List Event} (h : Tells b events b') :
    b'.tuples.toList.Perm (events.filterMap Event.boundTuple? ++ b.tuples.toList) := by
  induction h with
  | nil => exact .refl _
  | scalar _ _ ih => exact ih
  | tuple fresh _ ih =>
    exact (ih.trans ((toList_insert_perm _ fresh).append_left _)).trans List.perm_middle
  | neutral he _ ih => rwa [List.filterMap_cons, (Event.entries_of_isNeutral he).2]

/-! ### The log of a session -/

theorem map_fst_numberedSteps (events : List Event) :
    (numberedSteps events).map Prod.fst = List.range' 1 events.length := by
  have hsnd : (numberedSteps events).map Prod.fst = (events.zipIdx.map Prod.snd).map (· + 1) := by
    rw [numberedSteps, List.map_map, List.map_map]
    rfl
  rw [hsnd, List.zipIdx_map_snd, List.range'_succ_left]

theorem map_snd_numberedSteps (events : List Event) :
    (numberedSteps events).map Prod.snd = events.map Event.step := by
  have hfst : (numberedSteps events).map Prod.snd =
      (events.zipIdx.map Prod.fst).map Event.step := by
    rw [numberedSteps, List.map_map, List.map_map]
    rfl
  rw [hfst, List.zipIdx_map_fst]

theorem getElem?_numberedSteps {events : List Event} {i : Nat} {s : Nat × Step}
    (h : (numberedSteps events)[i]? = some s) : ∃ e, events[i]? = some e ∧ s.2 = e.step := by
  have hsnd : ((numberedSteps events).map Prod.snd)[i]? = some s.2 := by
    rw [List.getElem?_map, h]
    rfl
  rw [map_snd_numberedSteps, List.getElem?_map, Option.map_eq_some_iff] at hsnd
  obtain ⟨e, he, hs⟩ := hsnd
  exact ⟨e, he, hs.symm⟩

/-- Only the last event tells of a failure, and only if the attempt failed. -/
theorem Attempt.IsTold.error_last {x : Attempt Binding} (h : x.IsTold .empty id) {i : Nat}
    {e : Event} (he : x.events[i]? = some e) (herror : e.action = .error) :
    i + 1 = x.events.length ∧ ∃ failure, x.result = .error failure := by
  cases hr : x.result with
  | ok b => exact absurd herror (((isTold_of_ok hr).1 h).not_error e (List.mem_of_getElem? he))
  | error failure =>
    refine ⟨?_, failure, rfl⟩
    have hlt := (List.getElem?_eq_some_iff.1 he).1
    by_contra hne
    have hdrop : x.events.dropLast[i]? = some e := by
      rw [List.getElem?_dropLast, if_pos (by omega), he]
    exact (isTold_of_error hr).1 h e (List.mem_of_getElem? hdrop) herror

/-- A log is faithful to the result of a match.  Its steps are numbered from one on; only the last
step may tell of a failure, and then the match failed.  A match that succeeds has one step for each
variable of its binding, with the variable and its value in it, and no other steps that bind. -/
structure Faithful (steps : List (Nat × Step)) (result : Except Failure Binding) : Prop where
  numbered : steps.map Prod.fst = List.range' 1 steps.length
  error_last : ∀ (i : Nat) (s : Nat × Step), steps[i]? = some s → s.2.action = .error →
    i + 1 = steps.length ∧ ∃ failure, result = .error failure
  scalars : ∀ b, result = .ok b →
    ((steps.map Prod.snd).filter (·.action = .bindScalar)).Perm (b.scalars.toList.map scalarStep)
  nodup_scalars : ∀ b, result = .ok b → (b.scalars.toList.map fun p => (scalarStep p).formal).Nodup
  tuples : ∀ b, result = .ok b →
    ((steps.map Prod.snd).filter (·.action = .bindTuple)).Perm (b.tuples.toList.map tupleStep)
  nodup_tuples : ∀ b, result = .ok b → (b.tuples.toList.map fun p => (tupleStep p).formal).Nodup

theorem nodup_formals {κ β : Type} [Ord κ] [Std.TransOrd κ] (m : Std.ExtTreeMap κ β)
    {text : κ → String} (htext : Function.Injective text) :
    (m.toList.map fun p => text p.1).Nodup := by
  have hkeys : (m.toList.map fun p => text p.1) = m.keys.map text := by
    rw [← Std.ExtTreeMap.map_fst_toList_eq_keys, List.map_map]
    rfl
  rw [hkeys]
  exact Std.ExtTreeMap.nodup_keys.map htext

theorem faithful_of_isTold {x : Attempt Binding} (h : x.IsTold .empty id) :
    Faithful (numberedSteps x.events) x.result where
  numbered := by
    rw [map_fst_numberedSteps, numberedSteps, List.length_map, List.length_zipIdx]
  error_last i s hs herror := by
    obtain ⟨e, he, hstep⟩ := getElem?_numberedSteps hs
    rw [hstep, Event.action_step] at herror
    rw [numberedSteps, List.length_map, List.length_zipIdx]
    exact h.error_last he herror
  scalars b hb := by
    have hperm := ((isTold_of_ok hb).1 h).scalars
    have hnone : Binding.empty.scalars.toList = [] := rfl
    rw [hnone, List.append_nil] at hperm
    rw [map_snd_numberedSteps, filter_scalarSteps]
    exact (hperm.map _).symm
  nodup_scalars b _ := nodup_formals b.scalars fun _ _ => TypeVar.text_inj.1
  tuples b hb := by
    have hperm := ((isTold_of_ok hb).1 h).tuples
    have hnone : Binding.empty.tuples.toList = [] := rfl
    rw [hnone, List.append_nil] at hperm
    rw [map_snd_numberedSteps, filter_tupleSteps]
    exact (hperm.map _).symm
  nodup_tuples b _ := nodup_formals b.tuples fun _ _ => TupleVar.text_inj.1

/-- The log of a match is faithful to its result, whatever the session did before. -/
theorem log_tells_binding (r : Recorder) (q : MatchQuery) :
    Faithful (r.enable.record q.attempt).2.steps (r.enable.record q.attempt).1 := by
  have henabled : r.enable.log.enabled = true := rfl
  rw [answers_matchQuery.result, answers_matchQuery.steps, if_pos henabled]
  exact faithful_of_isTold q.isTold_answer

end Polyadic
