import Mathlib.Logic.Relation
import Polyadic.Matching.Unify
import Polyadic.Proofs.Bounds

/-! # Descent

Matching two types ends although it may come to ever larger formal types: a mapped slot is expanded
to types that its binding holds.  What descends is the actual side.  The match of one meeting of two
types calls for others on lighter actual types only (`Meeting.Calls.weight_lt`), where a wrapped
tuple variable has to weigh more than its one element.  Inside a row the slots descend: a round of
the loop that does not end the match takes at least one of them (`Rounds.left_lt_of_round`). -/

namespace Polyadic

open Attempt

/-! ### Weight -/

namespace TypeExpr

/-- Whether a type is a wrapped tuple variable. -/
def isPacked : TypeExpr → Bool
  | .packed _ => true
  | _ => false

theorem totalWeight_eq_of_forall {types : List TypeExpr}
    (h : ∀ t ∈ types, t.weight = t.nodes.length + t.nodes.countP isPacked) :
    totalWeight types = (allNodes types).length + (allNodes types).countP isPacked := by
  induction types with
  | nil => rfl
  | cons t ts ih =>
    rw [totalWeight, allNodes, h t (by simp), ih fun x hx => h x (by simp [hx]),
      List.length_append, List.countP_append]
    omega

/-- The weight is the number of nodes, with wrapped tuple variables counted twice. -/
theorem weight_eq (t : TypeExpr) : t.weight = t.nodes.length + t.nodes.countP isPacked := by
  induction t using induct with
  | named | var | packed | spread => rfl
  | spreadMap ctor ts ih =>
    simp only [weight, nodes, ih, List.length_cons, List.countP_cons, isPacked]
    simp only [Bool.false_eq_true, if_false]
    omega
  | apply head args hhead hargs =>
    simp only [weight, nodes, hhead, totalWeight_eq_of_forall hargs, List.length_cons,
      List.length_append, List.countP_cons, List.countP_append, isPacked]
    simp only [Bool.false_eq_true, if_false]
    omega
  | union members hmembers =>
    simp only [weight, nodes, totalWeight_eq_of_forall hmembers, List.length_cons,
      List.countP_cons, isPacked]
    simp only [Bool.false_eq_true, if_false]
    omega
  | arrow params result hparams hresult =>
    simp only [weight, nodes, hresult, totalWeight_eq_of_forall hparams, List.length_cons,
      List.length_append, List.countP_cons, List.countP_append, isPacked]
    simp only [Bool.false_eq_true, if_false]
    omega

end TypeExpr

/-! ### Calls -/

/-- A formal type that meets an actual type under a binding. -/
structure Meeting where
  formal : TypeExpr
  actual : TypeExpr
  binding : Binding
deriving DecidableEq

/-- The matching of types, except that one meeting has another ending. -/
def unifyBut (m : Meeting) (ending : Attempt Binding) : Unifier := fun f a b =>
  if (⟨f, a, b⟩ : Meeting) = m then ending else unify f a b

namespace Meeting

variable {m m' : Meeting}

/-- The match of one meeting calls for another one if it would not be the same with another ending
of that one.  What happens in a call happens in the match, so that each call shows in this way. -/
def Calls (m m' : Meeting) : Prop :=
  ∃ ending, unifyStep (unifyBut m' ending) m.formal m.actual m.binding ≠
    unify m.formal m.actual m.binding

/-- What a match calls for is lighter on the actual side. -/
theorem Calls.weight_lt (h : m.Calls m') : m'.actual.weight < m.actual.weight := by
  obtain ⟨ending, hne⟩ := h
  refine Nat.lt_of_not_le fun hle => hne ?_
  rw [unify_eq]
  refine unifyStep_congr fun f a b ha => if_neg ?_
  rintro rfl
  exact absurd ha (Nat.not_lt_of_le hle)

theorem weight_lt_of_transGen (h : Relation.TransGen Calls m m') :
    m'.actual.weight < m.actual.weight := by
  induction h with
  | single h => exact h.weight_lt
  | tail _ h ih => exact Nat.lt_trans h.weight_lt ih

/-- There is no unending chain of calls. -/
theorem wellFounded_calls : WellFounded fun m' m : Meeting => m.Calls m' :=
  Subrelation.wf Calls.weight_lt (measure fun m : Meeting => m.actual.weight).wf

end Meeting

/-! ### Larger formal types -/

section expansion

variable {u : Unifier} {place : Nat → Segment} {ctor a t : TypeExpr} {ts : TupleVar} {b : Binding}

/-- A mapped slot whose tuple variable is bound to one type is expanded to one type. -/
theorem matchList_mapped_one (h : b.tuple? ts = some [t]) :
    matchList u place [.mapped ctor ts] [a] b =
      log (.expandMap ctor ts [a] [.apply ctor [t]]) >>= fun _ =>
        (u (.apply ctor [t]) a b).under (place 0) := by
  have hlength : (Slot.mapped ctor ts).length? b = some 1 := by simp [Slot.length?, h]
  have hclosed : openCount b [.mapped ctor ts] = 0 := by
    simp [openCount, Slot.isOpen, hlength]
  have hadmits : (listArity b [.mapped ctor ts]).Admits [a].length := by
    rw [listArity, if_pos hclosed]
    simp [requiredLength, Slot.width, hlength, Arity.Admits]
  have hslot : matchSlot u place (.mapped ctor ts) ⟨0, [a]⟩ b =
      log (.expandMap ctor ts [a] [.apply ctor [t]]) >>= fun _ =>
        (u (.apply ctor [t]) a b).under (place 0) := by
    simp [matchSlot, h, TypeExpr.mapOver, unifyEach]
  rw [matchList, if_pos hadmits]
  have hmove : nextMove (fun s => !s.isOpen b) .front [Slot.mapped ctor ts] =
      .front (.mapped ctor ts) [] := nextMove_front_of_known (by simp [Slot.isOpen, hlength])
  show Rounds.matchRest u place [.mapped ctor ts] [a] (.whole [.mapped ctor ts] [a] b) = _
  rw [Rounds.matchRest_front (w := .whole [.mapped ctor ts] [a] b) hmove]
  simp [Window.whole, Slot.width, hlength, Run.length, Run.first, Run.after, hslot,
    Rounds.matchRest, takeSlots]

/-- The events of a match of a wrapped mapped slot, which end with those of its expansion. -/
theorem length_events_mapped_one (h : b.tuple? ts = some [t])
    (hu : u (.named TypeExpr.tupleName) (.named TypeExpr.tupleName) b =
      unify (.named TypeExpr.tupleName) (.named TypeExpr.tupleName) b) :
    (unifyStep u (.tuple [.spreadMap ctor ts]) (.tuple [a]) b).events.length =
      (u (.apply ctor [t]) a b).events.length + 3 := by
  have hhead : (u (.named TypeExpr.tupleName) (.named TypeExpr.tupleName) b).under .ctor =
      log (.identity (.named TypeExpr.tupleName)) >>= fun _ => pure b := by
    rw [hu]
    rfl
  have hstep : unifyStep u (.tuple [.spreadMap ctor ts]) (.tuple [a]) b =
      log (.decompose (.tuple [.spreadMap ctor ts]) (.tuple [a])) >>= fun _ =>
        (u (.named TypeExpr.tupleName) (.named TypeExpr.tupleName) b).under .ctor >>= fun b =>
          matchList u .arg [.mapped ctor ts] [a] b := rfl
  rw [hstep, hhead]
  simp only [bind_assoc, pure_bind, matchList_mapped_one h]
  rfl

/-- A wrapped list of one mapped slot calls for what the slot is expanded to, whatever that is. -/
theorem Meeting.calls_expansion (h : b.tuple? ts = some [t]) :
    Calls ⟨.tuple [.spreadMap ctor ts], .tuple [a], b⟩ ⟨.apply ctor [t], a, b⟩ := by
  -- One more event in the expansion is one more event in the match.
  refine ⟨log (.identity a) >>= fun _ => unify (.apply ctor [t]) a b, fun heq => ?_⟩
  have hlength := congrArg (fun y : Attempt Binding => y.events.length) heq
  simp only at hlength
  rw [length_events_mapped_one h (if_neg (by simp)), unify_eq (.tuple [.spreadMap ctor ts]),
    length_events_mapped_one h rfl, unifyBut, if_pos rfl, bind_of_ok (result_log _),
    List.length_append, events_log, List.length_singleton] at hlength
  omega

/-- The formal type of a call may be larger than that of the match, by any number of nodes. -/
theorem Meeting.exists_calls_larger (n : Nat) :
    ∃ m m' : Meeting, m.Calls m' ∧ m.formal.weight + n < m'.formal.weight := by
  have hweight (k : Nat) : TypeExpr.totalWeight (List.replicate k (.named "int")) = k := by
    induction k with
    | zero => rfl
    | succ k ih =>
      rw [List.replicate_succ, TypeExpr.totalWeight, ih, TypeExpr.weight]
      omega
  obtain ⟨t, ht⟩ : ∃ t : TypeExpr, t.weight = n + 3 :=
    ⟨.union (List.replicate (n + 2) (.named "int")), by rw [TypeExpr.weight, hweight]⟩
  have hbound : (Binding.empty.bindTuple ⟨0⟩ [t]).tuple? ⟨0⟩ = some [t] := by
    simp [Binding.tuple?_bindTuple]
  refine ⟨⟨.tuple [.spreadMap (.named "list") ⟨0⟩], .tuple [.named "int"], _⟩,
    ⟨.apply (.named "list") [t], .named "int", _⟩, calls_expansion hbound, ?_⟩
  simp only [TypeExpr.tuple, TypeExpr.weight, TypeExpr.totalWeight, ht]
  omega

end expansion

/-! ### Rounds -/

namespace Rounds

section

variable {α β : Type}

/-- A checked attempt comes to a value, without a failure and without a breach. -/
def ComesTo (x : Checked α) (a : α) : Prop := x.run.result = .ok (.ok a)

theorem comesTo_pure {a b : α} : ComesTo (pure a) b ↔ b = a := by
  simp [ComesTo, eq_comm]

theorem comesTo_throw {breach : Breach} {a : α} : ¬ComesTo (throw breach) a := by
  simp [ComesTo]

theorem comesTo_ofAttempt {x : Attempt α} {a : α} :
    ComesTo (ofAttempt x) a ↔ x.result = .ok a := by
  rw [ComesTo, run_ofAttempt, result_map]
  cases x.result <;> simp [Except.map]

theorem comesTo_bind {x : Checked α} {f : α → Checked β} {b : β} :
    ComesTo (x >>= f) b ↔ ∃ a, ComesTo x a ∧ ComesTo (f a) b := by
  rw [ComesTo, ExceptT.run_bind, result_bind_eq_ok_iff]
  constructor
  · rintro ⟨r, hr, hf⟩
    cases r with
    | ok a => exact ⟨a, hr, hf⟩
    | error breach => simp at hf
  · rintro ⟨a, ha, hf⟩
    exact ⟨.ok a, ha, hf⟩

theorem comesTo_require {p : Prop} [Decidable p] {breach : Breach} {a : Unit} :
    ComesTo (require p breach) a ↔ p := by
  unfold require
  split <;> simp [comesTo_pure, comesTo_throw, *]

end

variable {u : Unifier} {place : Nat → Segment} {slots : List Slot} {arguments : List TypeExpr}
  {s s' : Cursor} {side : Side} {progressed progressed' : Bool}

theorem moved_of_sweep
    (h : ComesTo (sweep u place slots arguments side s progressed) (s', progressed')) :
    Moved s progressed s' progressed' := by
  induction hn : s.left using Nat.strongRecOn generalizing s progressed with
  | ind n ih =>
    subst hn
    rw [sweep] at h
    obtain ⟨-, -, h⟩ := comesTo_bind.1 h
    split at h
    · rename_i hleft
      obtain ⟨slot, -, h⟩ := comesTo_bind.1 h
      cases hlen : slot.length? s.binding with
      | none =>
        rw [hlen] at h
        cases comesTo_pure.1 h
        exact .inl ⟨rfl, rfl⟩
      | some len =>
        rw [hlen] at h
        obtain ⟨available, -, h⟩ := comesTo_bind.1 h
        split at h
        · obtain ⟨remaining, -, h⟩ := comesTo_bind.1 h
          cases comesTo_ofAttempt.1 h
        · obtain ⟨segment, -, h⟩ := comesTo_bind.1 h
          obtain ⟨b, -, h⟩ := comesTo_bind.1 h
          exact (ih _ (Cursor.left_advance_lt hleft len b side) h rfl).of_advance hleft
    · cases comesTo_pure.1 h
      exact .inl ⟨rfl, rfl⟩

theorem left_lt_of_solveFirst (hmore : s.loSlot ≠ s.hiSlot)
    (h : ComesTo (solveFirst u place slots arguments s) s') : s'.left < s.left := by
  obtain ⟨remaining, hremaining, h⟩ := comesTo_bind.1 h
  obtain ⟨available, -, h⟩ := comesTo_bind.1 h
  obtain ⟨len, -, h⟩ := comesTo_bind.1 h
  obtain ⟨slot, -, h⟩ := comesTo_bind.1 h
  obtain ⟨segment, -, h⟩ := comesTo_bind.1 h
  obtain ⟨b, -, h⟩ := comesTo_bind.1 h
  cases comesTo_pure.1 h
  obtain ⟨_, hinside, -⟩ := comesTo_bind.1 hremaining
  have hleft := (comesTo_require.1 hinside).1
  exact Cursor.left_advance_lt (Nat.lt_of_le_of_ne hleft hmore) len b .front

/-- A round that does not end the match takes at least one slot. -/
theorem left_lt_of_round (h : ComesTo (round u place slots arguments s) (.inr s')) :
    s'.left < s.left := by
  obtain ⟨⟨s₁, progressed₁⟩, hfront, hrest⟩ := comesTo_bind.1 h
  obtain ⟨⟨s₂, progressed₂⟩, hback, hend⟩ := comesTo_bind.1 hrest
  have hm₁ := moved_of_sweep hfront
  have hm₂ := moved_of_sweep hback
  clear h hrest
  dsimp only at hend
  split at hend
  · split at hend
    · cases comesTo_pure.1 hend
    · cases comesTo_ofAttempt.1 hend
  · rename_i hmore
    split at hend
    · rename_i hprogressed
      cases comesTo_pure.1 hend
      exact hm₁.left_lt hm₂ hprogressed
    · rename_i hstuck
      obtain ⟨rfl, rfl⟩ := hm₁.eq hm₂ hstuck
      obtain ⟨s', hsolved, hend⟩ := comesTo_bind.1 hend
      cases comesTo_pure.1 hend
      exact left_lt_of_solveFirst hmore hsolved

end Rounds

open Rounds

/-- Matching ends.  The weight of a type, which is the number of its nodes with wrapped tuple
variables counted twice, decides everything on the actual side: one level of the match asks for
lighter actual types only, so whatever it calls for is lighter, also through other calls, chains of
calls end, and no match goes deeper than its actual type weighs.  On the formal side calls may be
larger by any number of nodes.  In a row, a round that does not end the match takes a slot, and as
many rounds as there are slots and one more are enough. -/
theorem unify_descends :
    (∀ t : TypeExpr, t.weight = t.nodes.length + t.nodes.countP TypeExpr.isPacked) ∧
      (∀ (u u' : Unifier) (formal actual : TypeExpr) (b : Binding),
        (∀ f a c, a.weight < actual.weight → u f a c = u' f a c) →
          unifyStep u formal actual b = unifyStep u' formal actual b) ∧
      (∀ m m' : Meeting, Relation.TransGen Meeting.Calls m m' →
        m'.actual.weight < m.actual.weight) ∧
      (WellFounded fun m' m : Meeting => m.Calls m') ∧
      (∀ (n : Nat) (formal actual : TypeExpr) (b : Binding), actual.weight ≤ n →
        unifyWithin n formal actual b = unify formal actual b) ∧
      (∀ n : Nat, ∃ m m' : Meeting, m.Calls m' ∧ m.formal.weight + n < m'.formal.weight) ∧
      ∀ (u : Unifier) (place : Nat → Segment) (slots : List Slot) (arguments : List TypeExpr),
        (∀ s s' : Cursor, ComesTo (round u place slots arguments s) (.inr s') →
          s'.left < s.left) ∧
        ∀ (b : Binding) (n : Nat), slots.length < n →
          (matchWithin u place slots arguments n b).run =
            Except.ok <$> matchList u place slots arguments b :=
  ⟨TypeExpr.weight_eq, fun _ _ _ _ _ => unifyStep_congr, fun _ _ => Meeting.weight_lt_of_transGen,
    Meeting.wellFounded_calls, fun _ _ _ _ h => unifyWithin_of_le h (Nat.le_refl _),
    Meeting.exists_calls_larger,
    fun _ _ _ _ => ⟨fun _ _ => left_lt_of_round, fun b _ h => matchWithin_eq h b⟩⟩

/-- A wrapped tuple variable is met through its one element, which has as many nodes as itself and
is lighter; an open slot is taken in the one round that its row needs. -/
theorem unify_descends_packed :
    (⟨.var ⟨0⟩, .spread ⟨7⟩, .empty⟩ : Meeting).actual.weight <
        (⟨.tuple [.var ⟨0⟩], .packed ⟨7⟩, .empty⟩ : Meeting).actual.weight ∧
      unifyStep (fun f a c => if a.weight < 2 then unify f a c else pure c) (.tuple [.var ⟨0⟩])
          (.packed ⟨7⟩) .empty =
        unifyStep unify (.tuple [.var ⟨0⟩]) (.packed ⟨7⟩) .empty ∧
      unifyWithin 3 (.tuple [.var ⟨0⟩]) (.packed ⟨7⟩) .empty =
        unify (.tuple [.var ⟨0⟩]) (.packed ⟨7⟩) .empty ∧
      (Cursor.mk 1 1 1 1 (.bindTuple .empty ⟨0⟩ [.named "int"])).left <
        (Cursor.start [.spread ⟨0⟩] [.named "int"] .empty).left ∧
      (matchWithin unify .arg [.spread ⟨0⟩] [.named "int"] 2 .empty).run =
        Except.ok <$> matchList unify .arg [.spread ⟨0⟩] [.named "int"] .empty := by
  obtain ⟨-, hlevel, hcalls, -, hwithin, -, hrow⟩ := unify_descends
  obtain ⟨hround, hmatch⟩ := hrow unify .arg [.spread ⟨0⟩] [.named "int"]
  refine ⟨hcalls _ _ (.single ?call), hlevel _ _ _ _ _ fun _ _ _ ha => if_pos ha,
    hwithin _ _ _ _ (by decide), hround _ _ ?taken, hmatch _ _ (by decide)⟩
  case call =>
    refine ⟨.fail .emptyUnion, fun h => ?_⟩
    have hfails := congrArg (fun y : Attempt Binding => y.result.toBool) h
    revert hfails
    decide
  case taken =>
    have hopen (side : Side) :
        ComesTo (sweep unify .arg [.spread ⟨0⟩] [.named "int"] side
            (.start [.spread ⟨0⟩] [.named "int"] .empty) false)
          (.start [.spread ⟨0⟩] [.named "int"] .empty, false) := by
      rw [sweep]
      cases side <;> rfl
    exact comesTo_bind.2 ⟨_, hopen .front, comesTo_bind.2 ⟨_, hopen .back, rfl⟩⟩

end Polyadic
