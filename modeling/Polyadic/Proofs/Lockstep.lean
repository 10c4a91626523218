import Polyadic.Matching.Call
import Polyadic.Proofs.Replay
import Polyadic.Proofs.Soundness

/-! # A match keeps in step with its replay

Whatever its arguments are, a match that goes through ends with the shape of an outcome, and a match
that is left with an ambiguous split names the tuple variables of an outcome (`follows_of_unify`,
`follows_of_matchParameters`).  Ground arguments are assumed only where the formal types contain
spliced maps: a mapped slot is matched against its own operands once they are bound, and operands
with variables could bind something more. -/

namespace Polyadic

open Attempt

/-! ### Shapes of bindings -/

section shapes

variable {b : Binding}

theorem shape_empty : Binding.empty.shape = Shape.empty := by
  funext ts
  simp [Binding.shape, Shape.empty]

@[simp] theorem shape_bindScalar (v : TypeVar) (t : TypeExpr) :
    (b.bindScalar v t).shape = b.shape := rfl

theorem shape_bindTuple (ts : TupleVar) (contents : List TypeExpr) :
    (b.bindTuple ts contents).shape = b.shape.note ts contents.isEmpty := by
  funext us
  rw [Binding.shape, Binding.tuple?_bindTuple, Shape.note]
  split <;> rfl

theorem shape_of_some {ts : TupleVar} {contents : List TypeExpr}
    (h : b.tuple? ts = some contents) : b.shape ts = some contents.isEmpty := by
  simp [Binding.shape, h]

theorem shape_of_none {ts : TupleVar} (h : b.tuple? ts = none) : b.shape ts = none := by
  simp [Binding.shape, h]

theorem Slot.isSettled_shape : Slot.isSettled b.shape = fun s => !s.isOpen b := by
  funext s
  cases s with
  | single t => rfl
  | spread ts | mapped ctor ts =>
    cases h : b.tuple? ts <;>
      simp [isSettled, isOpen, length?, tuple?, Binding.shape, h]

theorem unsettledTuples_shape (slots : List Slot) :
    unsettledTuples b.shape slots = openTuples b slots := by
  rw [unsettledTuples, openTuples]
  congr 1
  induction slots with
  | nil => rfl
  | cons s rest ih =>
    cases s with
    | single t => simpa [List.filterMap_cons, Slot.tuple?, Slot.isOpen, Slot.length?] using ih
    | spread ts | mapped ctor ts =>
      cases h : b.tuple? ts <;>
        simpa [List.filterMap_cons, Slot.tuple?, Slot.isOpen, Slot.length?, Binding.shape, h]
          using ih

end shapes

/-! ### Following -/

/-- An ambiguous split is one of the outcomes. -/
def IsOutcome (outcomes : List Outcome) (e : Failure) : Prop :=
  ∀ ts, e.cause = .ambiguousSplit ts → .error ts ∈ outcomes

/-- A match ends as one of the outcomes does. -/
def Follows (outcomes : List Outcome) (x : Attempt Binding) : Prop :=
  x.Meets (fun b => .ok b.shape ∈ outcomes) (IsOutcome outcomes)

/-- A type without spliced maps. -/
def TypeExpr.isMap : TypeExpr → Bool
  | .spreadMap _ _ => true
  | _ => false

/-- No spliced map occurs. -/
def TypeExpr.MapFree (t : TypeExpr) : Prop := t.Everywhere fun n => n.isMap = false

instance (t : TypeExpr) : Decidable t.MapFree :=
  inferInstanceAs (Decidable (t.Everywhere _))

section following

variable {outcomes : List Outcome} {next : Shape → List Outcome} {x : Attempt Binding}
  {f : Binding → Attempt Binding} {b : Binding} {ts : TupleVar}

/-- Failures for another cause need no outcome. -/
theorem isOutcome_of_ne {e : Failure} (h : ∀ ts, e.cause ≠ .ambiguousSplit ts) :
    IsOutcome outcomes e := by
  intro ts hts
  exact absurd hts (h ts)

theorem IsOutcome.left {e : Failure} (h : IsOutcome outcomes e) :
    IsOutcome (andThen outcomes next) e :=
  fun ts hts => error_mem_andThen.2 (.inl (h ts hts))

theorem IsOutcome.right {K : Shape} {e : Failure} (hK : .ok K ∈ outcomes)
    (h : IsOutcome (next K) e) : IsOutcome (andThen outcomes next) e :=
  fun ts hts => error_mem_andThen.2 (.inr ⟨K, hK, h ts hts⟩)

/-- One match after another follows the one replay after the other. -/
theorem Follows.andThen (h : Follows outcomes x)
    (hf : ∀ b, x.result = .ok b → Follows (next b.shape) (f b)) :
    x.Meets (fun b => Follows (andThen outcomes next) (f b))
      (IsOutcome (Polyadic.andThen outcomes next)) := by
  refine meets_iff.2 ⟨?_, fun e he => (h.of_error he).left⟩
  intro b hb
  have hK := h.of_ok hb
  exact (hf b hb).mono (fun b' hb' => ok_mem_andThen.2 ⟨b.shape, hK, hb'⟩) fun e he => he.right hK

theorem follows_pure : Follows [.ok b.shape] (pure b) := List.mem_singleton_self _

theorem follows_assignTuple {contents : List TypeExpr} :
    Follows (b.shape.settle ts) (assignTuple ts contents b) := by
  refine meets_assignTuple ?_ ?_ fun _ _ _ => isOutcome_of_ne (by simp)
  · intro h
    rw [shape_bindTuple, Shape.settle, shape_of_none h]
    cases contents.isEmpty <;> simp
  · intro h
    rw [settle_of_isSome (by simp [shape_of_some h])]
    simp

end following

/-! ### The same constructor several times -/

/-- The constructor `ctor` is matched `n` times in a row: never, or as its replay says. -/
def Repeats (ctor : TypeExpr) (n : Nat) (b : Binding) (x : Attempt Binding) : Prop :=
  Follows (if n = 0 then [.ok b.shape] else ctor.replay b.shape) x

/-- After a first time, the others bind nothing more. -/
theorem Repeats.cons {ctor : TypeExpr} {n : Nat} {b : Binding} {x : Attempt Binding}
    {f : Binding → Attempt Binding} (h : Follows (ctor.replay b.shape) x)
    (hf : ∀ b', x.result = .ok b' → Repeats ctor n b' (f b')) :
    Repeats ctor (n + 1) b (x >>= f) := by
  have hchain : Follows (andThen (ctor.replay b.shape) fun K => [.ok K]) (x >>= f) := by
    refine meets_bind.2 (h.andThen ?_)
    intro b' hb'
    have hstill := TypeExpr.replay_of_mem_replay (h.of_ok hb') (Shape.le_refl _)
    have hrest := hf b' hb'
    rw [Repeats, hstill] at hrest
    simpa using hrest
  rw [andThen_of_unchanged fun _ => rfl] at hchain
  rwa [Repeats, if_neg n.succ_ne_zero]

section slots

variable {maps : Prop} {place : Nat → Segment} {i : Nat} {b : Binding}

/-- Matching follows its replay, on a list of types and on everything at most as heavy. -/
def FollowsOn (maps : Prop) (arguments : List TypeExpr) : Prop :=
  ∀ x ∈ arguments, ∀ f a b, a.weight ≤ x.weight → (maps ∨ f.MapFree) → (maps → a.IsGround) →
    (maps → b.IsGround) → Follows (f.replay b.shape) (unify f a b)

theorem FollowsOn.mono {as bs : List TypeExpr} (h : FollowsOn maps bs) (hs : ∀ a ∈ as, a ∈ bs) :
    FollowsOn maps as := fun x hx => h x (hs x hx)

theorem repeats_stripEach {ctor : TypeExpr} {ts : TupleVar} {actuals : List TypeExpr}
    (hu : FollowsOn True actuals) (hground : ∀ a ∈ actuals, a.IsGround) (hb : b.IsGround) :
    Repeats ctor actuals.length b (stripEach unify place ctor ts i actuals b) := by
  induction actuals generalizing i b with
  | nil => exact follows_pure
  | cons a as ih =>
    rw [stripEach]
    split
    · rename_i head operand ha
      have hhead : head.IsGround := ((hground a (by simp)).unary ha).1
      have hweight := Nat.le_of_lt (TypeExpr.weight_lt_of_unary ha)
      refine Repeats.cons ?_ ?_
      · have hctor := hu a (by simp) ctor head b hweight (.inl trivial) (fun _ => hhead)
          fun _ => hb
        exact meets_under.2 (meets_under.2 hctor)
      · intro b' hb'
        rw [result_under, within_eq_ok_iff, result_under, within_eq_ok_iff] at hb'
        exact ih (hu.mono (by simp +contextual)) (fun x hx => hground x (by simp [hx]))
          ((solved_of_unify hhead hb).of_ok hb').ground
    · rw [Repeats, Follows, meets_bind, meets_under, meets_mismatch]
      exact isOutcome_of_ne (by simp)

/-- A constructor is applied to known operands. -/
theorem replay_apply_of_isGround {ctor t : TypeExpr} (ht : t.IsGround) (K : Shape) :
    (TypeExpr.apply ctor [t]).replay K = ctor.replay K := by
  rw [TypeExpr.replay_apply]
  refine andThen_of_unchanged ?_
  intro K
  rw [List.map_singleton, Slot.ofType_eq_single ht.isSpliced, replayFrom_singleton]
  exact TypeExpr.replay_of_tupleMentions ht.tupleMentions

theorem repeats_unifyEach {ctor : TypeExpr} {contents actuals : List TypeExpr}
    (hu : FollowsOn True actuals) (hcontents : ∀ t ∈ contents, t.IsGround)
    (hground : ∀ a ∈ actuals, a.IsGround) (hb : b.IsGround)
    (hlength : actuals.length = contents.length) :
    Repeats ctor contents.length b
      (unifyEach unify place i (TypeExpr.mapOver ctor contents) actuals b) := by
  induction contents generalizing actuals i b with
  | nil =>
    rw [TypeExpr.mapOver, List.map_nil, unifyEach]
    · exact follows_pure
    · simp
  | cons t ts ih =>
    obtain _ | ⟨a, as⟩ := actuals
    · cases hlength
    · have ha := hground a (by simp)
      rw [TypeExpr.mapOver, List.map_cons, unifyEach]
      refine Repeats.cons ?_ ?_
      · rw [← replay_apply_of_isGround (hcontents t (by simp))]
        exact meets_under.2 (hu a (by simp) _ a b (Nat.le_refl _) (.inl trivial) (fun _ => ha)
          fun _ => hb)
      · intro b' hb'
        rw [result_under, within_eq_ok_iff] at hb'
        exact ih (hu.mono (by simp +contextual)) (fun x hx => hcontents x (by simp [hx]))
          (fun x hx => hground x (by simp [hx])) ((solved_of_unify ha hb).of_ok hb').ground
          (by simpa using hlength)

/-! ### One slot -/

/-- If the sequence is known, then its length says whether the constructor is matched at all. -/
theorem follows_of_mapped_known {ctor : TypeExpr} {ts : TupleVar} {run : Run}
    {contents : List TypeExpr} (hu : FollowsOn True run.types)
    (hground : ∀ a ∈ run.types, a.IsGround) (hb : b.IsGround) (hts : b.tuple? ts = some contents)
    (hlength : run.length = contents.length) :
    Follows ((Slot.mapped ctor ts).replay b.shape)
      (unifyEach unify place i (TypeExpr.mapOver ctor contents) run.types b) := by
  have hrepeats : Repeats ctor contents.length b
      (unifyEach unify place i (TypeExpr.mapOver ctor contents) run.types b) :=
    repeats_unifyEach hu (hb.tuples ts contents hts) hground hb hlength
  rw [Slot.replay, Shape.settleMapped, shape_of_some hts]
  cases contents with
  | nil => exact hrepeats
  | cons t ts => exact hrepeats

/-- The tuple variable is bound after the constructor has been matched, once or never. -/
theorem follows_of_mapped_assign {ctor : TypeExpr} {ts : TupleVar} {operands : List TypeExpr}
    {b₁ : Binding} (hts : b.shape ts = none)
    (hshape : .ok b₁.shape ∈
      if operands.length = 0 then [.ok b.shape] else ctor.replay b.shape) :
    Follows ((Slot.mapped ctor ts).replay b.shape) (assignTuple ts operands b₁) := by
  rw [Slot.replay, Shape.settleMapped, hts]
  cases operands with
  | nil =>
    have hshape : b₁.shape = b.shape := by simpa using hshape
    refine meets_assignTuple ?_ ?_ fun _ _ _ => isOutcome_of_ne (by simp)
    · intro _
      simp [shape_bindTuple, hshape]
    · intro h
      simp [← hshape, shape_of_some h] at hts
  | cons t operands =>
    have hctor : .ok b₁.shape ∈ ctor.replay b.shape := by simpa using hshape
    refine meets_assignTuple ?_ ?_ fun _ _ _ => isOutcome_of_ne (by simp)
    · intro h
      refine List.mem_cons_of_mem _ (ok_mem_andThen.2 ⟨b₁.shape, hctor, ?_⟩)
      simp [shape_of_none h, shape_bindTuple]
    · intro h
      refine List.mem_cons_of_mem _ (ok_mem_andThen.2 ⟨b₁.shape, hctor, ?_⟩)
      simp [shape_of_some h]

theorem follows_of_mapped_open {ctor : TypeExpr} {ts : TupleVar} {run : Run}
    (hu : FollowsOn True run.types) (hground : ∀ a ∈ run.types, a.IsGround) (hb : b.IsGround)
    (hts : b.tuple? ts = none) :
    (stripEach unify place ctor ts i run.types b).Meets
      (fun b₁ => Follows ((Slot.mapped ctor ts).replay b.shape)
        (assignTuple ts (run.types.filterMap fun t => t.unary?.map Prod.snd) b₁))
      (IsOutcome ((Slot.mapped ctor ts).replay b.shape)) := by
  have hopen := shape_of_none hts
  have hrepeats : Repeats ctor run.types.length b
      (stripEach unify place ctor ts i run.types b) := repeats_stripEach hu hground hb
  have hstrip := hrepeats.and (solved_of_stripEach solvesOn_unify hground hb)
  refine hstrip.mono ?_ ?_
  · intro b₁ h
    obtain ⟨hshape, -, -, hoperands⟩ := h
    -- There are as many operands as types, since mapping the constructor gives the types back.
    have hlength := congrArg List.length (hoperands b₁ b₁.le_refl)
    rw [TypeExpr.mapOver, List.length_map] at hlength
    rw [← hlength] at hshape
    exact follows_of_mapped_assign hopen hshape
  · intro e he us hus
    have hmem := he.1 us hus
    rw [Slot.replay, Shape.settleMapped, hopen]
    split at hmem
    · simp at hmem
    · exact List.mem_cons_of_mem _ (error_mem_andThen.2 (.inl hmem))

/-- A slot takes its run, which has to be as long as the slot is known to be. -/
theorem follows_of_matchSlot {slot : Slot} {run : Run} (hu : FollowsOn maps run.types)
    (hslot : maps ∨ slot.toType.MapFree) (hground : maps → ∀ a ∈ run.types, a.IsGround)
    (hb : maps → b.IsGround) (hfit : slot.isOpen b = false → run.length = slot.width b) :
    Follows (slot.replay b.shape) (matchSlot unify place slot run b) := by
  cases slot with
  | single formal =>
    obtain ⟨a, ha⟩ : ∃ a, run.types = [a] := List.length_eq_one_iff.1 (hfit rfl)
    rw [ha] at hu hground
    have hformal := hu a (by simp) formal a b (Nat.le_refl _) hslot
      (fun hm => hground hm a (by simp)) hb
    rw [matchSlot, ha, unifyEach]
    refine meets_bind.2 (meets_under.2 (hformal.imp ?_))
    intro b' hb'
    rw [unifyEach]
    · exact hb'
    · simp
  | spread ts =>
    rw [matchSlot]
    exact meets_under.2 follows_assignTuple
  | mapped ctor ts =>
    have hmaps : maps := hslot.resolve_right fun h => by cases h.self
    have hu : FollowsOn True run.types := fun x hx f a b hle _ ha hb =>
      hu x hx f a b hle (.inl hmaps) (fun _ => ha trivial) fun _ => hb trivial
    rw [matchSlot]
    split
    · rename_i contents hts
      have hlength : run.length = contents.length := by
        rw [hfit (by simp [Slot.isOpen, Slot.length?, hts]), Slot.width_of_bound rfl hts]
      exact meets_bind.2 (meets_log.2
        (follows_of_mapped_known hu (hground hmaps) (hb hmaps) hts hlength))
    · rename_i hts
      exact meets_bind.2 (meets_log.2 (meets_bind.2
        (follows_of_mapped_open hu (hground hmaps) (hb hmaps) hts)))

end slots

/-! ### Rows of slots -/

section rows

variable {maps : Prop} {place : Nat → Segment} {slots : List Slot} {arguments : List TypeExpr}
  {b : Binding}

/-- All that can come of a window is an outcome of the whole row. -/
structure KeepsStep (maps : Prop) (slots : List Slot) (arguments : List TypeExpr)
    (outcomes : List Outcome) (w : Window) : Prop where
  ground : maps → w.binding.IsGround
  arguments_subset : ∀ t ∈ w.run.types, t ∈ arguments
  slots_subset : ∀ s ∈ w.slots, s ∈ slots
  outcomes_subset : ∀ o ∈ replayFrom w.side w.slots w.binding.shape, o ∈ outcomes

/-- Taking a slot is a step of the replay, whichever run is taken and whichever rest is left. -/
theorem keepsStep_of_matchSlot (hu : FollowsOn maps arguments)
    (hslots : ∀ s ∈ slots, maps ∨ s.toType.MapFree) (hground : maps → ∀ t ∈ arguments, t.IsGround)
    {outcomes : List Outcome} {w : Window} (hw : KeepsStep maps slots arguments outcomes w)
    {slot : Slot} {run rest' : Run} {rest : List Slot} {side : Side} (hslot : slot ∈ w.slots)
    (hrest : ∀ s ∈ rest, s ∈ w.slots) (hrun : ∀ t ∈ run.types, t ∈ w.run.types)
    (hrest' : ∀ t ∈ rest'.types, t ∈ w.run.types)
    (hfit : slot.isOpen w.binding = false → run.length = slot.width w.binding)
    (hreplay : replayFrom w.side w.slots w.binding.shape =
      andThen (slot.replay w.binding.shape) (replayFrom side rest)) :
    (matchSlot unify place slot run w.binding).Meets
      (fun b' => KeepsStep maps slots arguments outcomes ⟨side, rest, rest', b'⟩)
      (IsOutcome outcomes) := by
  have hmem : ∀ t ∈ run.types, t ∈ arguments := fun t ht => hw.arguments_subset t (hrun t ht)
  have hout := hw.outcomes_subset
  rw [hreplay] at hout
  have hfollow : Follows (slot.replay w.binding.shape)
      (matchSlot unify place slot run w.binding) :=
    follows_of_matchSlot (hu.mono hmem) (hslots slot (hw.slots_subset slot hslot))
      (fun hm t ht => hground hm t (hmem t ht)) hw.ground hfit
  rw [meets_iff]
  constructor
  · intro b' hb'
    refine ⟨?_, fun t ht => hw.arguments_subset t (hrest' t ht),
      fun s hs => hw.slots_subset s (hrest s hs), ?_⟩
    · intro hm
      have hsolved : (matchSlot unify place slot run w.binding).Meets
          (Solved [slot] run.types w.binding) fun _ => True :=
        solved_of_matchSlot solvesOn_unify (fun t ht => hground hm t (hmem t ht)) (hw.ground hm)
          hfit
      exact (hsolved.of_ok hb').ground
    · intro o ho
      exact hout o (mem_andThen.2 (.inr ⟨b'.shape, hfollow.of_ok hb', ho⟩))
  · intro e he ts hts
    exact hout _ (error_mem_andThen.2 (.inl (hfollow.of_error he ts hts)))

/-- Each move of a match is a move of the replay. -/
theorem follows_of_takeSlot (hu : FollowsOn maps arguments)
    (hslots : ∀ s ∈ slots, maps ∨ s.toType.MapFree) (hground : maps → ∀ t ∈ arguments, t.IsGround)
    {outcomes : List Outcome} {w : Window} (hw : KeepsStep maps slots arguments outcomes w) :
    (takeSlot unify place w).Meets (KeepsStep maps slots arguments outcomes)
      (IsOutcome outcomes) := by
  refine meets_takeSlot (fun _ => hw) (fun _ _ _ _ => isOutcome_of_ne (by simp)) ?front ?back ?stuck
  case front =>
    intro slot rest hm hle
    obtain ⟨heq, hknown⟩ := nextMove_eq_front hm
    rw [← Slot.isSettled_shape] at hm
    exact keepsStep_of_matchSlot hu hslots hground hw (by simp [heq]) (by simp +contextual [heq])
      (fun t => List.mem_of_mem_take) (fun t => List.mem_of_mem_drop)
      (fun _ => Run.length_first hle) (replayFrom_front hm)
  case back =>
    intro rest slot hm hle
    obtain ⟨heq, hknown⟩ := nextMove_eq_back hm
    rw [← Slot.isSettled_shape] at hm
    refine keepsStep_of_matchSlot hu hslots hground hw (by simp [heq]) (by simp +contextual [heq])
      (fun t => List.mem_of_mem_drop) (fun t => List.mem_of_mem_take) ?_ (replayFrom_back hm)
    intro _
    rw [Run.length_after]
    omega
  case stuck =>
    intro slot rest hm
    obtain ⟨heq, hopen, -⟩ := nextMove_eq_stuck hm
    rw [← Slot.isSettled_shape] at hm
    have hreplay := replayFrom_stuck hm
    rw [unsettledTuples_shape] at hreplay
    refine meets_evenShare ?ambiguous (fun _ _ => isOutcome_of_ne (by simp))
      (fun _ _ => isOutcome_of_ne (by simp)) ?share
    case ambiguous =>
      intro hseveral ts hts
      cases hts
      apply hw.outcomes_subset
      rw [hreplay, if_pos hseveral]
      exact List.mem_singleton_self _
    case share =>
      intro hone _ _
      rw [if_neg (by omega)] at hreplay
      exact keepsStep_of_matchSlot hu hslots hground hw (by simp [heq])
        (by simp +contextual [heq]) (fun t => List.mem_of_mem_take)
        (fun t => List.mem_of_mem_drop) (fun h => by simp [h] at hopen) hreplay

theorem follows_of_matchList (hu : FollowsOn maps arguments)
    (hslots : ∀ s ∈ slots, maps ∨ s.toType.MapFree) (hground : maps → ∀ t ∈ arguments, t.IsGround)
    (hb : maps → b.IsGround) :
    Follows (replayFrom .front slots b.shape) (matchList unify place slots arguments b) := by
  refine meets_matchList (fun _ => isOutcome_of_ne (by simp))
    (fun _ => ⟨hb, fun t ht => ht, fun s hs => hs, fun o ho => ho⟩)
    (fun w hw => follows_of_takeSlot hu hslots hground hw) ?_
    fun _ _ _ _ => isOutcome_of_ne (by simp)
  intro w hw hnil _
  refine hw.outcomes_subset _ ?_
  rw [hnil, replayFrom_nil]
  exact List.mem_singleton_self _

end rows

/-! ### Two types -/

section types

variable {maps : Prop} {b : Binding}

theorem TypeExpr.mapFree_slots {ts : List TypeExpr} (h : maps ∨ ∀ t ∈ ts, t.MapFree) :
    ∀ s ∈ ts.map Slot.ofType, maps ∨ s.toType.MapFree := by
  intro s hs
  obtain ⟨t, ht, rfl⟩ := List.mem_map.1 hs
  rw [Slot.toType_ofType]
  exact h.imp_right fun h => h t ht

/-- A type is matched as its replay says. -/
theorem follows_of_unify {f a : TypeExpr} (hf : maps ∨ f.MapFree) (ha : maps → a.IsGround)
    (hb : maps → b.IsGround) : Follows (f.replay b.shape) (unify f a b) := by
  induction hn : a.weight using Nat.strongRecOn generalizing f a b with
  | ind n ih =>
    have row (place : Nat → Segment) (ts arguments : List TypeExpr) {b : Binding}
        (hl : ∀ x ∈ arguments, x.weight < n) (hf : maps ∨ ∀ t ∈ ts, t.MapFree)
        (ha : maps → ∀ t ∈ arguments, t.IsGround) (hb : maps → b.IsGround) :
        Follows (replayFrom .front (ts.map Slot.ofType) b.shape)
          (matchList unify place (ts.map Slot.ofType) arguments b) := by
      have hlighter : FollowsOn maps arguments := by
        intro x hx f a b hle hf ha hb
        have hlt : a.weight < n := Nat.lt_of_le_of_lt hle (hl x hx)
        exact ih a.weight hlt hf ha hb rfl
      exact follows_of_matchList hlighter (TypeExpr.mapFree_slots hf) ha hb
    subst hn
    refine meets_unify ?var ?packed ?unpack ?apply ?arrow ?union ?named ?spliced
      (isOutcome_of_ne (by simp))
    case var =>
      intro v heq
      subst heq
      refine meets_assignScalar ?_ ?_ fun _ _ _ => isOutcome_of_ne (by simp)
      · intro h
        exact List.mem_singleton_self _
      · intro h
        exact List.mem_singleton_self _
    case packed =>
      intro ts elements heq helements
      subst heq
      have hrow := row .element [.spread ts] elements
        (fun x => TypeExpr.weight_lt_of_mem_tupleElements helements)
        (.inr (by simp [TypeExpr.MapFree, TypeExpr.isMap]))
        (fun hm => ((ha hm).tupleElements helements).2) hb
      rw [List.map_singleton, replayFrom_singleton] at hrow
      exact hrow
    case unpack =>
      intro args us heq hus
      subst heq hus
      have hargs : maps ∨ ∀ t ∈ args, t.MapFree :=
        hf.imp_right fun h => (TypeExpr.everywhere_apply.1 h).2.2
      have hrow := row .element args [.spread us]
        (by simp [TypeExpr.weight]) hargs (fun hm => by simpa using ha hm) hb
      rw [TypeExpr.tuple, TypeExpr.replay_apply,
        TypeExpr.replay_of_tupleMentions TypeExpr.tupleMentions_named, andThen_ok]
      exact hrow
    case apply =>
      intro head args head' args' heq hfa
      subst heq hfa
      have hparts := hf.imp_right TypeExpr.everywhere_apply.1
      have hground := fun hm => TypeExpr.isGround_apply.1 (ha hm)
      have hhead := ih _ TypeExpr.weight_head_lt (hparts.imp_right fun h => h.2.1)
        (fun hm => (hground hm).1) hb rfl
      rw [TypeExpr.replay_apply]
      refine hhead.andThen ?_
      intro b' hb'
      have hground' : maps → b'.IsGround := by
        intro hm
        have hsolved := (solved_of_unify (hground hm).1 (hb hm)).of_ok hb'
        exact hsolved.ground
      exact row .arg args args' (fun x => TypeExpr.weight_lt_apply)
        (hparts.imp_right fun h => h.2.2) (fun hm => (hground hm).2) hground'
    case arrow =>
      intro params result params' result' heq hfa
      subst heq hfa
      have hparts := hf.imp_right TypeExpr.everywhere_arrow.1
      have hground := fun hm => TypeExpr.isGround_arrow.1 (ha hm)
      have hparams := row .callableParam params params' (fun x => TypeExpr.weight_lt_arrow)
        (hparts.imp_right fun h => h.2.1) (fun hm => (hground hm).1) hb
      rw [TypeExpr.replay_arrow]
      refine hparams.andThen ?_
      intro b' hb'
      have hground' : maps → b'.IsGround := by
        intro hm
        have hsolved := (solved_of_matchList solvesOn_unify (hground hm).1 (hb hm)).of_ok hb'
        exact hsolved.ground
      exact ih _ TypeExpr.weight_result_lt (hparts.imp_right fun h => h.2.2)
        (fun hm => (hground hm).2) hground' rfl
    case union =>
      intro members members' heq hfa
      subst heq hfa
      rw [TypeExpr.replay_union]
      exact row .member members members' (fun x => TypeExpr.weight_lt_union)
        (hf.imp_right fun h => (TypeExpr.everywhere_union.1 h).2)
        (fun hm => TypeExpr.isGround_union.1 (ha hm)) hb
    case named =>
      intro name heq hfa
      subst heq
      exact List.mem_singleton_self _
    case spliced =>
      intro hspliced hfa
      cases f with
      | spread | spreadMap => exact List.mem_singleton_self _
      | _ => cases hspliced

end types

/-- A parameter list is matched as its replay says. -/
theorem follows_of_matchParameters {maps : Prop} {list : ParameterList}
    {arguments : List TypeExpr} (hlist : ∀ s ∈ list.slots, maps ∨ s.toType.MapFree)
    (hground : maps → ∀ t ∈ arguments, t.IsGround) :
    Follows list.replay (matchParameters list arguments) := by
  rw [matchParameters, matchAnchored, solveAnchors, Follows, meets_bind, meets_pure]
  rw [ParameterList.replay, ← shape_empty]
  exact follows_of_matchList (fun _ _ _ _ _ _ hf ha hb => follows_of_unify hf ha hb) hlist hground
    fun _ => Binding.isGround_empty

end Polyadic
