import Polyadic.Proofs.Inversion
import Polyadic.Proofs.WrappedForms

/-! # The spelling of an argument

A wrapped tuple variable among the arguments stands for `tuple[*Ts]` as one in a parameter list
does, but there the spelling matters.  An argument is compared as it is written with what a variable
is bound to already.  And a wrapped tuple variable is not read as an application by a mapped slot, or
where the constructor of a type is a variable, which would be bound to `tuple`.  These are the
clashes of spelling (`Cause.IsSpelling`), and they are the only difference: unless a match fails on
one, it comes to the same with its arguments spelled out, up to the spelling of what is bound
(`wrapped_arguments_alike`).

The proof goes through the match with everything spelled out, the formal side and the binding
included.  What a mapped slot expands to comes from the binding, so that with it both sides stay
translations of each other (`spellsTo_unify`). -/

namespace Polyadic

open Attempt

/-! ### Bindings, runs and windows -/

section spelling

open TypeExpr

variable {b : Binding} {slots : List Slot}

theorem TypeExpr.spellOut_idem (t : TypeExpr) : t.spellOut.spellOut = t.spellOut := by
  have list {ts : List TypeExpr} (h : ∀ t ∈ ts, t.spellOut.spellOut = t.spellOut) :
      spellOutAll (spellOutAll ts) = spellOutAll ts := by
    simp only [spellOutAll_eq_map, List.map_map]
    exact List.map_congr_left h
  induction t using induct with
  | named | var | packed | spread => rfl
  | spreadMap ctor ts ih => rw [spellOut, spellOut, ih]
  | apply head args hhead hargs => rw [spellOut, spellOut, hhead, list hargs]
  | union members hmembers => rw [spellOut, spellOut, list hmembers]
  | arrow params result hparams hresult => rw [spellOut, spellOut, hresult, list hparams]

theorem TypeExpr.spellOutAll_idem (ts : List TypeExpr) :
    spellOutAll (spellOutAll ts) = spellOutAll ts := by
  simp only [spellOutAll_eq_map, List.map_map]
  exact List.map_congr_left fun t _ => t.spellOut_idem

namespace Binding

/-- The binding with every assigned type spelled out. -/
def spellOut (b : Binding) : Binding :=
  ⟨b.scalars.map fun _ t => t.spellOut, b.tuples.map fun _ contents => spellOutAll contents⟩

@[simp] theorem scalar?_spellOut (b : Binding) (v : TypeVar) :
    b.spellOut.scalar? v = (b.scalar? v).map TypeExpr.spellOut :=
  Std.ExtTreeMap.getElem?_map

@[simp] theorem tuple?_spellOut (b : Binding) (ts : TupleVar) :
    b.spellOut.tuple? ts = (b.tuple? ts).map spellOutAll :=
  Std.ExtTreeMap.getElem?_map

theorem spellOut_empty : empty.spellOut = empty := ext_lookup (by simp) (by simp)

theorem spellOut_bindScalar (b : Binding) (v : TypeVar) (t : TypeExpr) :
    (b.bindScalar v t).spellOut = b.spellOut.bindScalar v t.spellOut := by
  refine ext_lookup (fun w => ?_) fun ts => by simp
  simp only [scalar?_spellOut, scalar?_bindScalar]
  split <;> rfl

theorem spellOut_bindTuple (b : Binding) (ts : TupleVar) (contents : List TypeExpr) :
    (b.bindTuple ts contents).spellOut = b.spellOut.bindTuple ts (spellOutAll contents) := by
  refine ext_lookup (fun v => by simp) fun us => ?_
  simp only [tuple?_spellOut, tuple?_bindTuple]
  split <;> rfl

end Binding

theorem Slot.length?_spelled (b : Binding) (slot : Slot) :
    slot.length? b.spellOut = slot.length? b := by
  cases slot with
  | single t => rfl
  | spread ts | mapped ctor ts =>
    rw [length?, length?, Binding.tuple?_spellOut, Option.map_map]
    refine congrFun (congrArg _ (funext fun contents => ?_)) _
    simp [spellOutAll_eq_map]

theorem Slot.isOpen_spelled (b : Binding) : Slot.isOpen b.spellOut = Slot.isOpen b := by
  funext slot
  rw [isOpen, isOpen, length?_spelled]

theorem Slot.width_spelled (b : Binding) (slot : Slot) : slot.width b.spellOut = slot.width b := by
  rw [width, width, length?_spelled]

theorem requiredLength_spelled : requiredLength b.spellOut slots = requiredLength b slots := by
  induction slots with
  | nil => rfl
  | cons slot rest ih => rw [requiredLength, requiredLength, ih, Slot.width_spelled]

theorem openTuples_spelled : openTuples b.spellOut slots = openTuples b slots := by
  rw [openTuples, openTuples, Slot.isOpen_spelled]

theorem openCount_spelled : openCount b.spellOut slots = openCount b slots := by
  rw [openCount, openCount, Slot.isOpen_spelled]

theorem listArity_spelled : listArity b.spellOut slots = listArity b slots := by
  rw [listArity, listArity, openCount_spelled, requiredLength_spelled]

/-- The run with its types spelled out. -/
def Run.spellOut (run : Run) : Run := ⟨run.start, spellOutAll run.types⟩

theorem Run.spellOut_first (run : Run) (n : Nat) :
    (run.first n).spellOut = run.spellOut.first n := by
  simp [spellOut, first, spellOutAll_eq_map, List.map_take]

theorem Run.spellOut_after (run : Run) (n : Nat) :
    (run.after n).spellOut = run.spellOut.after n := by
  simp [spellOut, after, spellOutAll_eq_map, List.map_drop]

@[simp] theorem Run.length_spellOut (run : Run) : run.spellOut.length = run.length := by
  simp [spellOut, length, spellOutAll_eq_map]

/-- The window with everything spelled out, its arguments and its binding included. -/
def Window.spelled (w : Window) : Window :=
  ⟨w.side, w.slots.map Slot.spellOut, w.run.spellOut, w.binding.spellOut⟩

end spelling

/-! ### Clashes of spelling -/

/-- Whether a constructor may be matched with `tuple`. -/
def TypeExpr.mayBeTuple : TypeExpr → Bool
  | .named name => name = tupleName
  | .var _ => true
  | _ => false

/-- A failure is one of spelling if the types that clash are the same spelled out, or if the actual
type is a wrapped tuple variable where an application is expected whose constructor may be
`tuple`. -/
def Cause.IsSpelling : Cause → Prop
  | .conflict _ previous found => previous.spellOut = found.spellOut
  | .mismatch expected actual => expected.spellOut = actual.spellOut ∨
    ∃ head args us, expected = .apply head args ∧ head.mayBeTuple = true ∧ actual = .packed us
  | _ => False

namespace Attempt

variable {α β γ δ : Type} {s : α → β} {s' : γ → δ} {x : Attempt α} {y : Attempt β}

/-- An attempt fails on a clash of spelling. -/
def ClashesInSpelling (x : Attempt α) : Prop := ∃ e, x.result = .error e ∧ e.cause.IsSpelling

/-- Unless it fails on a clash of spelling, an attempt ends as the other one does, up to the
spelling `s` of the value. -/
def SpellsTo (s : α → β) (x : Attempt α) (y : Attempt β) : Prop :=
  x.ClashesInSpelling ∨ y.kind = x.kind.map s

theorem SpellsTo.pure (s : α → β) (a : α) :
    SpellsTo s (Pure.pure a) (Pure.pure (s a)) := .inr rfl

theorem SpellsTo.of_error {e e' : Failure} (hx : x.result = .error e) (hy : y.result = .error e')
    (h : e'.cause.category = e.cause.category) : SpellsTo s x y := by
  refine .inr ?_
  rw [kind_of_error hx, kind_of_error hy, h]
  rfl

theorem not_clashes_of_ok {a : α} (h : x.result = .ok a) : ¬x.ClashesInSpelling := by
  rintro ⟨e, he, -⟩
  rw [h] at he
  cases he

theorem SpellsTo.result_eq_ok (h : SpellsTo s x y) {a : α} (ha : x.result = .ok a) :
    y.result = .ok (s a) := by
  have hkind := h.resolve_left (not_clashes_of_ok ha)
  rw [kind_of_ok ha] at hkind
  exact kind_eq_ok_iff.1 hkind

theorem SpellsTo.exists_ok (h : SpellsTo s x y) (hclash : ¬x.ClashesInSpelling) {c : β}
    (hc : y.result = .ok c) : ∃ a, x.result = .ok a := by
  have hkind := h.resolve_left hclash
  rw [kind_of_ok hc] at hkind
  cases hx : x.result with
  | ok a => exact ⟨a, rfl⟩
  | error e =>
    rw [kind_of_error hx] at hkind
    cases hkind

theorem SpellsTo.of_kind {z : Attempt β} (h : SpellsTo s x y) (hz : z.kind = y.kind) :
    SpellsTo s x z := h.imp_right hz.trans

theorem SpellsTo.bind {f : α → Attempt γ} {g : β → Attempt δ} (hx : SpellsTo s x y)
    (hf : ∀ a, x.result = .ok a → SpellsTo s' (f a) (g (s a))) :
    SpellsTo s' (x >>= f) (y >>= g) := by
  rcases hx with ⟨e, he, hspelling⟩ | hkind
  · exact .inl ⟨e, result_bind_eq_error_iff.2 (.inl he), hspelling⟩
  · cases h : x.result with
    | error e =>
      refine .inr ?_
      rw [kind_bind, kind_bind, hkind, kind_of_error h]
      rfl
    | ok a =>
      rw [kind_of_ok h] at hkind
      rcases hf a h with ⟨e, he, hspelling⟩ | hgf
      · exact .inl ⟨e, result_bind_eq_error_iff.2 (.inr ⟨a, h, he⟩), hspelling⟩
      · refine .inr ?_
        rw [kind_bind, kind_bind, hkind, kind_of_ok h]
        exact hgf

theorem SpellsTo.under (hx : SpellsTo s x y) (segment segment' : Segment) :
    SpellsTo s (x.under segment) (y.under segment') := by
  rcases hx with ⟨e, he, hspelling⟩ | hkind
  · refine .inl ⟨e.under segment, ?_, hspelling⟩
    rw [result_under, he]
    rfl
  · refine .inr ?_
    rw [kind_under, kind_under, hkind]

theorem SpellsTo.log {f : Unit → Attempt α} {g : Unit → Attempt β} (e e' : Event)
    (h : SpellsTo s (f ()) (g ())) : SpellsTo s (Attempt.log e >>= f) (Attempt.log e' >>= g) := by
  exact .bind (s := id) (.inr rfl) fun _ _ => h

end Attempt

/-! ### Leaves -/

theorem spellsTo_assignScalar (v : TypeVar) (t : TypeExpr) (b : Binding) :
    SpellsTo Binding.spellOut (assignScalar v t b) (assignScalar v t.spellOut b.spellOut) := by
  unfold assignScalar
  rw [Binding.scalar?_spellOut]
  cases b.scalar? v with
  | none =>
    refine .log _ _ ?_
    rw [← Binding.spellOut_bindScalar]
    exact .pure _ _
  | some previous =>
    simp only [Option.map_some]
    by_cases h : previous = t
    · rw [if_pos h, if_pos (congrArg _ h)]
      exact .pure _ _
    · rw [if_neg h]
      by_cases hspelled : previous.spellOut = t.spellOut
      · exact .inl ⟨_, rfl, hspelled⟩
      · rw [if_neg hspelled]
        exact .of_error rfl rfl rfl

theorem spellsTo_assignTuple (ts : TupleVar) (contents : List TypeExpr) (b : Binding) :
    SpellsTo Binding.spellOut (assignTuple ts contents b)
      (assignTuple ts (TypeExpr.spellOutAll contents) b.spellOut) := by
  unfold assignTuple
  rw [Binding.tuple?_spellOut]
  cases b.tuple? ts with
  | none =>
    refine .log _ _ ?_
    rw [← Binding.spellOut_bindTuple]
    exact .pure _ _
  | some previous =>
    simp only [Option.map_some]
    by_cases h : previous = contents
    · rw [if_pos h, if_pos (congrArg _ h)]
      exact .pure _ _
    · rw [if_neg h]
      by_cases hspelled : TypeExpr.spellOutAll previous = TypeExpr.spellOutAll contents
      · refine .inl ⟨_, rfl, ?_⟩
        show (TypeExpr.tuple previous).spellOut = (TypeExpr.tuple contents).spellOut
        simp only [TypeExpr.tuple, TypeExpr.spellOut, hspelled]
      · rw [if_neg hspelled]
        exact .of_error rfl rfl rfl

/-! ### Single slots -/

/-- Matches with types on a list, and with everything at most as heavy, come to the same spelled
out. -/
def SpellsOn (types : List TypeExpr) : Prop :=
  ∀ x ∈ types, ∀ f a b, a.weight ≤ x.weight →
    SpellsTo Binding.spellOut (unify f a b) (unify f.spellOut a.spellOut b.spellOut)

theorem SpellsOn.mono {ts us : List TypeExpr} (h : SpellsOn us) (hs : ∀ t ∈ ts, t ∈ us) :
    SpellsOn ts := fun x hx => h x (hs x hx)

section slots

variable {place place' : Nat → Segment} {b : Binding}

theorem spellsTo_unifyEach {formals actuals : List TypeExpr} (hu : SpellsOn actuals)
    (i j : Nat) (b : Binding) :
    SpellsTo Binding.spellOut (unifyEach unify place i formals actuals b)
      (unifyEach unify place' j (TypeExpr.spellOutAll formals) (TypeExpr.spellOutAll actuals)
        b.spellOut) := by
  induction formals generalizing i j actuals b with
  | nil =>
    simp only [TypeExpr.spellOutAll, unifyEach]
    exact .pure _ _
  | cons f fs ih =>
    cases actuals with
    | nil =>
      simp only [TypeExpr.spellOutAll, unifyEach]
      exact .pure _ _
    | cons a as =>
      simp only [TypeExpr.spellOutAll, unifyEach]
      refine .bind ((hu a (by simp) f a b (Nat.le_refl _)).under _ _) fun b' _ => ?_
      exact ih (hu.mono (by simp +contextual)) (i + 1) (j + 1) b'

/-- A constructor that cannot be `tuple` does not match it. -/
theorem kind_unify_tupleName {ctor : TypeExpr} (h : ctor.mayBeTuple = false) (b : Binding) :
    (unify ctor.spellOut (.named TypeExpr.tupleName) b).kind = .error .typeMismatch := by
  rw [unify_eq]
  cases ctor with
  | named name =>
    have hne : name ≠ TypeExpr.tupleName := by simpa [TypeExpr.mayBeTuple] using h
    simp [TypeExpr.spellOut, unifyStep, hne]
  | var v => cases h
  | _ => simp [TypeExpr.spellOut, TypeExpr.tuple, unifyStep]

theorem TypeExpr.unary?_spellOut {t head operand : TypeExpr} (h : t.unary? = some (head, operand)) :
    t.spellOut.unary? = some (head.spellOut, operand.spellOut) := by
  rw [unary?_eq_some_iff.1 h]
  rfl

theorem TypeExpr.unary?_spellOut_of_none {t : TypeExpr} (h : t.unary? = none)
    (hpacked : ∀ us, t ≠ .packed us) : t.spellOut.unary? = none := by
  cases t with
  | packed us => exact absurd rfl (hpacked us)
  | apply head args =>
    match args with
    | [] | _ :: _ :: _ => rfl
    | [_] => cases h
  | _ => rfl

theorem TypeExpr.spellOutAll_mapOver (ctor : TypeExpr) (sequence : List TypeExpr) :
    spellOutAll (mapOver ctor sequence) = mapOver ctor.spellOut (spellOutAll sequence) := by
  simp [spellOutAll_eq_map, mapOver, spellOut]

theorem operands_spellOutAll {types : List TypeExpr}
    (h : ∀ t ∈ types, ∃ head operand, t = .apply head [operand]) :
    TypeExpr.operands (TypeExpr.spellOutAll types) =
      TypeExpr.spellOutAll (TypeExpr.operands types) := by
  induction types with
  | nil => rfl
  | cons t types ih =>
    obtain ⟨head, operand, rfl⟩ := h t (by simp)
    rw [operands_cons, TypeExpr.spellOutAll, TypeExpr.spellOutAll,
      ← ih fun u hu => h u (by simp [hu])]
    rfl

theorem spellsTo_stripEach {ctor : TypeExpr} {ts : TupleVar} {actuals : List TypeExpr}
    (hu : SpellsOn actuals) (i j : Nat) (b : Binding) :
    SpellsTo Binding.spellOut (stripEach unify place ctor ts i actuals b)
      (stripEach unify place' ctor.spellOut ts j (TypeExpr.spellOutAll actuals) b.spellOut) := by
  induction actuals generalizing i j b with
  | nil => exact .pure _ _
  | cons a as ih =>
    rw [TypeExpr.spellOutAll, stripEach, stripEach]
    refine .bind (.under ?_ _ _) fun b' _ => ih (hu.mono (by simp +contextual)) _ _ b'
    cases ha : a.unary? with
    | some parts =>
      obtain ⟨head, operand⟩ := parts
      rw [TypeExpr.unary?_spellOut ha]
      have hweight := Nat.le_of_lt (TypeExpr.weight_lt_of_unary ha)
      exact (hu a (by simp) ctor head b hweight).under _ _
    | none =>
      by_cases hpacked : ∃ us, a = .packed us
      · obtain ⟨us, rfl⟩ := hpacked
        cases hctor : ctor.mayBeTuple with
        | true => exact .inl ⟨_, rfl, .inr ⟨_, _, us, rfl, hctor, rfl⟩⟩
        | false =>
          refine .inr ?_
          change ((unify ctor.spellOut (.named TypeExpr.tupleName) b.spellOut).under .ctor).kind = _
          rw [kind_under, kind_unify_tupleName hctor]
          rfl
      · rw [TypeExpr.unary?_spellOut_of_none ha fun us heq => hpacked ⟨us, heq⟩]
        exact .of_error rfl rfl rfl

theorem spellsTo_matchSlot {slot : Slot} {run : Run} (hu : SpellsOn run.types) (b : Binding) :
    SpellsTo Binding.spellOut (matchSlot unify place slot run b)
      (matchSlot unify place' slot.spellOut run.spellOut b.spellOut) := by
  cases slot with
  | single f => exact spellsTo_unifyEach hu _ _ b
  | spread ts => exact (spellsTo_assignTuple ts run.types b).under _ _
  | mapped ctor ts =>
    rw [Slot.spellOut, matchSlot, matchSlot, Binding.tuple?_spellOut]
    cases b.tuple? ts with
    | some contents =>
      refine .log _ _ ?_
      rw [← TypeExpr.spellOutAll_mapOver]
      exact spellsTo_unifyEach hu _ _ b
    | none =>
      refine .log _ _ (.bind (spellsTo_stripEach hu _ _ b) fun b' hb' => ?_)
      -- Only applications have come through, so that no operand appears by spelling out.
      have hunary := exists_of_stripEach (value?_eq_some hb')
      change SpellsTo _ (assignTuple ts (TypeExpr.operands run.types) b')
        (assignTuple ts (TypeExpr.operands (TypeExpr.spellOutAll run.types)) b'.spellOut)
      rw [operands_spellOutAll hunary]
      exact spellsTo_assignTuple ts _ b'

end slots

/-! ### Rows of slots -/

section rows

variable {place place' : Nat → Segment} {b : Binding}

theorem kind_evenShare_spelled (slots : List Slot) (run : Run) (b : Binding) :
    (evenShare (slots.map Slot.spellOut) run.spellOut b.spellOut).kind =
      (evenShare slots run b).kind := by
  rw [kind_evenShare_spellOut]
  simp only [evenShare, shareEvenly, wrongArity, openTuples_spelled, requiredLength_spelled,
    openCount_spelled, listArity_spelled, Run.length_spellOut]
  split
  · rfl
  · split
    · rfl
    · split
      · rfl
      · split <;> rfl

theorem spellsTo_takeSlot {w : Window} (hu : SpellsOn w.run.types) :
    SpellsTo Window.spelled (takeSlot unify place w) (takeSlot unify place' w.spelled) := by
  have take {slot : Slot} {rest : List Slot} {run rest' : Run} (side : Side)
      (hrun : ∀ t ∈ run.types, t ∈ w.run.types) :
      SpellsTo Window.spelled
        (matchSlot unify place slot run w.binding >>= fun b => pure ⟨side, rest, rest', b⟩)
        (matchSlot unify place' slot.spellOut run.spellOut w.binding.spellOut >>= fun b =>
          pure ⟨side, rest.map Slot.spellOut, rest'.spellOut, b⟩) :=
    .bind (spellsTo_matchSlot (hu.mono hrun) w.binding) fun b _ => .pure _ _
  have hmove : nextMove (fun s => !s.isOpen w.binding.spellOut) w.side
      (w.slots.map Slot.spellOut) =
      (nextMove (fun s => !s.isOpen w.binding) w.side w.slots).map Slot.spellOut := by
    rw [nextMove_map, Slot.isOpen_spelled]
    simp only [Slot.isOpen_spellOut]
  rw [takeSlot, takeSlot, Window.spelled, hmove]
  cases hm : nextMove (fun s => !s.isOpen w.binding) w.side w.slots with
  | done => exact .pure Window.spelled w
  | front slot rest =>
    simp only [Move.map, Slot.width_spelled, Slot.width_spellOut, Run.length_spellOut,
      ← Run.spellOut_first, ← Run.spellOut_after]
    split
    · exact .of_error rfl rfl rfl
    · exact take .front fun t => List.mem_of_mem_take
  | back rest slot =>
    simp only [Move.map, Slot.width_spelled, Slot.width_spellOut, Run.length_spellOut,
      ← Run.spellOut_first, ← Run.spellOut_after]
    split
    · exact .of_error rfl rfl rfl
    · exact take .back fun t => List.mem_of_mem_drop
  | stuck slot rest =>
    simp only [Move.map]
    refine .bind (s := id) (.inr ?_) fun width _ => ?_
    · rw [kind_evenShare_spelled]
      cases (evenShare w.slots w.run w.binding).kind <;> rfl
    · simp only [id, ← Run.spellOut_first, ← Run.spellOut_after]
      exact take .front fun t => List.mem_of_mem_take

theorem spellsOn_of_takeSlot {w : Window} (hu : SpellsOn w.run.types) :
    (takeSlot unify place w).Meets (fun w' => SpellsOn w'.run.types) fun _ => True :=
  (keepsSoFar_of_takeSlot (keepsSoFar_self w)).mono (fun _ hw' => hu.mono hw'.arguments_subset)
    fun _ _ => trivial

theorem spellsTo_takeSlots {n : Nat} {w : Window} (hu : SpellsOn w.run.types) :
    SpellsTo Window.spelled (takeSlots unify place n w) (takeSlots unify place' n w.spelled) := by
  induction n generalizing w with
  | zero => exact .pure _ _
  | succ n ih =>
    rw [takeSlots, takeSlots]
    exact .bind (spellsTo_takeSlot hu) fun w' hw' => ih ((spellsOn_of_takeSlot hu).of_ok hw')

/-- A row comes to the same with everything spelled out, wherever its arguments stand. -/
theorem spellsTo_matchList {slots : List Slot} {arguments : List TypeExpr}
    (hu : SpellsOn arguments) (b : Binding) :
    SpellsTo Binding.spellOut (matchList unify place slots arguments b)
      (matchList unify place' (slots.map Slot.spellOut) (TypeExpr.spellOutAll arguments)
        b.spellOut) := by
  have hlength : (TypeExpr.spellOutAll arguments).length = arguments.length := by
    simp [TypeExpr.spellOutAll_eq_map]
  simp only [matchList, wrongArity, listArity_spellOut, listArity_spelled, hlength,
    List.length_map]
  split
  · have hwhole : SpellsOn (Window.whole slots arguments b).run.types := hu
    refine .bind (spellsTo_takeSlots hwhole) fun w _ => ?_
    have hempty : w.spelled.run.types.isEmpty = w.run.types.isEmpty := by
      simp [Window.spelled, Run.spellOut, TypeExpr.spellOutAll_eq_map]
    rw [hempty]
    split
    · exact .pure _ _
    · exact .of_error rfl rfl rfl
  · exact .of_error rfl rfl rfl

end rows

/-! ### Types -/

/-- A type that is neither a variable nor made of parts matches itself only, as one in spread form
does out of its place. -/
theorem unify_of_compared {f : TypeExpr} (hf : (∃ name, f = .named name) ∨ f.isSpliced = true)
    (a : TypeExpr) (b : Binding) :
    unify f a b = if f = a then (do log (.identity f); return b) else mismatch f a := by
  rw [unify_eq]
  rcases hf with ⟨name, rfl⟩ | hf
  · cases a <;> rfl
  · cases f with
    | spread | spreadMap => cases a <;> rfl
    | _ => cases hf

theorem spellsTo_unify_compared {f : TypeExpr}
    (hf : (∃ name, f = .named name) ∨ f.isSpliced = true) (a : TypeExpr) (b : Binding) :
    SpellsTo Binding.spellOut (unify f a b) (unify f.spellOut a.spellOut b.spellOut) := by
  have hspelled : (∃ name, f.spellOut = .named name) ∨ f.spellOut.isSpliced = true := by
    rcases hf with ⟨name, rfl⟩ | hf
    · exact .inl ⟨name, rfl⟩
    · cases f with
      | spread | spreadMap => exact .inr rfl
      | _ => cases hf
  rw [unify_of_compared hf, unify_of_compared hspelled]
  by_cases h : f = a
  · rw [if_pos h, if_pos (congrArg _ h)]
    exact .log _ _ (.pure _ _)
  · rw [if_neg h]
    by_cases hsame : f.spellOut = a.spellOut
    · exact .inl ⟨_, rfl, .inl hsame⟩
    · rw [if_neg hsame]
      exact .of_error rfl rfl rfl

theorem TypeExpr.tupleElements?_spellOut (t : TypeExpr) :
    t.spellOut.tupleElements? = t.tupleElements?.map spellOutAll := by
  cases t with
  | packed us => rfl
  | apply head args =>
    cases head with
    | named name =>
      simp only [spellOut, tupleElements?]
      split <;> rfl
    | _ => rfl
  | _ => rfl

/-- An application against the spelling of a wrapped tuple variable. -/
theorem kind_unify_apply_tuple (head : TypeExpr) (args elements : List TypeExpr) (b : Binding) :
    (unify (.apply head args) (.tuple elements) b).kind =
      (unify head (.named TypeExpr.tupleName) b).kind >>= fun b =>
        (matchList unify .arg (args.map Slot.ofType) elements b).kind := by
  rw [unify_eq, TypeExpr.tuple]
  simp only [unifyStep, kind_log_bind]
  rw [kind_bind, kind_under]

/-- An application against a wrapped tuple variable, whose element is matched with the arguments if
the constructor is `tuple`. -/
theorem spellsTo_unify_apply_packed {head : TypeExpr} {args : List TypeExpr} {us : TupleVar}
    {b : Binding} (hrow : SpellsTo Binding.spellOut
      (matchList unify .element (args.map Slot.ofType) [.spread us] b)
      (matchList unify .arg ((TypeExpr.spellOutAll args).map Slot.ofType) [.spread us]
        b.spellOut)) :
    SpellsTo Binding.spellOut (unify (.apply head args) (.packed us) b)
      (unify (.apply head.spellOut (TypeExpr.spellOutAll args)) (.tuple [.spread us])
        b.spellOut) := by
  rw [unify_eq (.apply head args), unifyStep]
  by_cases hname : head = .named TypeExpr.tupleName
  · rw [if_pos hname]
    refine hrow.of_kind ?_
    rw [hname, kind_unify_apply_tuple, TypeExpr.spellOut, kind_unify_named, if_pos rfl]
    rfl
  · rw [if_neg hname]
    cases hhead : head.mayBeTuple with
    | true => exact .inl ⟨_, rfl, .inr ⟨head, args, us, rfl, hhead, rfl⟩⟩
    | false =>
      refine .inr ?_
      rw [kind_unify_apply_tuple, kind_unify_tupleName hhead]
      rfl

theorem spellsTo_of_mismatch {f a f' a' : TypeExpr} {b b' : Binding}
    (h : unify f a b = mismatch f a) (h' : unify f' a' b' = mismatch f' a') :
    SpellsTo Binding.spellOut (unify f a b) (unify f' a' b') := by
  rw [h, h']
  exact .of_error rfl rfl rfl

/-- A match of two types comes to the same with both of them and the binding spelled out. -/
theorem spellsTo_unify (f a : TypeExpr) (b : Binding) :
    SpellsTo Binding.spellOut (unify f a b) (unify f.spellOut a.spellOut b.spellOut) := by
  induction hn : a.weight using Nat.strongRecOn generalizing f a b with
  | ind n ih =>
    subst hn
    have row (types : List TypeExpr) {arguments : List TypeExpr} (place place' : Nat → Segment)
        (hlighter : ∀ x ∈ arguments, x.weight < a.weight) (b : Binding) :
        SpellsTo Binding.spellOut (matchList unify place (types.map Slot.ofType) arguments b)
          (matchList unify place' ((TypeExpr.spellOutAll types).map Slot.ofType)
            (TypeExpr.spellOutAll arguments) b.spellOut) := by
      rw [TypeExpr.map_ofType_spellOutAll]
      exact spellsTo_matchList (fun x hx f c b hle =>
        ih c.weight (Nat.lt_of_le_of_lt hle (hlighter x hx)) f c b rfl) b
    cases f with
    | named name => exact spellsTo_unify_compared (.inl ⟨name, rfl⟩) a b
    | spread | spreadMap => exact spellsTo_unify_compared (.inr rfl) a b
    | var v =>
      rw [unify_eq, unify_eq]
      exact spellsTo_assignScalar v a b
    | packed ts =>
      -- The formal type may stay as it is, and then the elements are read at once on both sides.
      have hplaced : (TypeExpr.packed ts).WellPlaced := by
        simp [TypeExpr.WellPlaced, TypeExpr.isSpliced, TypeExpr.placesWell]
      refine .of_kind ?_ (kind_unify_spellOut hplaced b.spellOut)
      rw [unify_eq, unify_eq, unifyStep, unifyStep, TypeExpr.tupleElements?_spellOut]
      cases helements : a.tupleElements? with
      | none => exact .of_error rfl rfl rfl
      | some elements =>
        have hlighter : ∀ x ∈ elements, x.weight < a.weight := fun x =>
          TypeExpr.weight_lt_of_mem_tupleElements helements
        exact .log _ _ (row [.spread ts] _ _ hlighter b)
    | apply head args =>
      cases a with
      | packed us => exact spellsTo_unify_apply_packed (row args _ _ (by simp [TypeExpr.weight]) b)
      | apply head' args' =>
        rw [unify_eq, unify_eq]
        refine .log _ _ (.bind ((ih _ TypeExpr.weight_head_lt head head' b rfl).under _ _)
          fun b' _ => ?_)
        exact row args _ _ (fun x => TypeExpr.weight_lt_apply) b'
      | _ =>
        refine spellsTo_of_mismatch ?_ ?_ <;>
          simp [unify_eq, unifyStep, TypeExpr.spellOut]
    | union members =>
      cases a with
      | union members' =>
        rw [unify_eq, unify_eq]
        exact .log _ _ (row members _ _ (fun x => TypeExpr.weight_lt_union) b)
      | _ =>
        refine spellsTo_of_mismatch ?_ ?_ <;>
          simp [unify_eq, unifyStep, TypeExpr.spellOut, TypeExpr.tuple]
    | arrow params result =>
      cases a with
      | arrow params' result' =>
        rw [unify_eq, unify_eq]
        refine .log _ _ (.bind (row params _ _ (fun x => TypeExpr.weight_lt_arrow) b) fun b' _ => ?_)
        exact (ih _ TypeExpr.weight_result_lt result result' b' rfl).under _ _
      | _ =>
        refine spellsTo_of_mismatch ?_ ?_ <;>
          simp [unify_eq, unifyStep, TypeExpr.spellOut, TypeExpr.tuple]

/-! ### Parameter lists -/

/-- A match with a parameter list comes to the same with both sides spelled out. -/
theorem spellsTo_matchParameters (list : ParameterList) (arguments : List TypeExpr) :
    SpellsTo Binding.spellOut (matchParameters list arguments)
      (matchParameters list.spellOut (TypeExpr.spellOutAll arguments)) := by
  rw [matchParameters_eq, matchParameters_eq, ← Binding.spellOut_empty]
  exact spellsTo_matchList (fun _ _ f a b _ => spellsTo_unify f a b) .empty

/-- With a well placed list the arguments alone may be spelled out. -/
theorem spellsTo_arguments {list : ParameterList} (hplaced : list.WellPlaced)
    (arguments : List TypeExpr) : SpellsTo Binding.spellOut (matchParameters list arguments)
      (matchParameters list (TypeExpr.spellOutAll arguments)) := by
  refine (spellsTo_matchParameters list arguments).of_kind ?_
  rw [matchParameters_eq, matchParameters_eq]
  exact (kind_matchList_spellOut hplaced fun _ _ _ _ _ hf b => kind_unify_spellOut hf b).symm

/-- Wrapped tuple variables among the arguments may be spelled out, but for clashes of spelling.
If neither spelling fails on one, then both end with the same binding, up to its spelling, or in
failures of one category.  If the list is well placed, then what goes through does so spelled out;
and of what goes through spelled out, only what fails on a clash of spelling does not. -/
theorem wrapped_arguments_alike (list : ParameterList) (arguments : List TypeExpr) :
    (¬(matchParameters list arguments).ClashesInSpelling →
      ¬(matchParameters list (TypeExpr.spellOutAll arguments)).ClashesInSpelling →
      (matchParameters list (TypeExpr.spellOutAll arguments)).kind.map Binding.spellOut =
        (matchParameters list arguments).kind.map Binding.spellOut) ∧
    (list.WellPlaced →
      (∀ b, (matchParameters list arguments).result = .ok b →
        (matchParameters list (TypeExpr.spellOutAll arguments)).result = .ok b.spellOut) ∧
      ((∃ b, (matchParameters list arguments).result = .ok b) ↔
        (∃ b, (matchParameters list (TypeExpr.spellOutAll arguments)).result = .ok b) ∧
          ¬(matchParameters list arguments).ClashesInSpelling)) := by
  constructor
  · intro hclash hclash'
    have hx := (spellsTo_matchParameters list arguments).resolve_left hclash
    have hy := (spellsTo_matchParameters list (TypeExpr.spellOutAll arguments)).resolve_left hclash'
    rw [TypeExpr.spellOutAll_idem] at hy
    exact hy.symm.trans hx
  · intro hplaced
    have hspells := spellsTo_arguments hplaced arguments
    have hgoes (b : Binding) (hb : (matchParameters list arguments).result = .ok b) :
        (matchParameters list (TypeExpr.spellOutAll arguments)).result = .ok b.spellOut :=
      hspells.result_eq_ok hb
    refine ⟨hgoes, fun ⟨b, hb⟩ => ?_, fun ⟨⟨_, hb'⟩, hclash⟩ => hspells.exists_ok hclash hb'⟩
    exact ⟨⟨b.spellOut, hgoes b hb⟩, not_clashes_of_ok hb⟩

/-- A wrapped `Ts5` is bound as a whole, taken for its element, and bound under a constructor. -/
theorem wrapped_arguments_alike_bound :
    (matchParameters ⟨[.single (.var ⟨0⟩), .single (.packed ⟨0⟩), .mapped (.named "list") ⟨1⟩]⟩
        [.tuple [.spread ⟨5⟩], .tuple [.spread ⟨5⟩],
          .apply (.named "list") [.tuple [.spread ⟨5⟩]]]).result =
      .ok (((Binding.empty.bindScalar ⟨0⟩ (.packed ⟨5⟩)).bindTuple ⟨0⟩ [.spread ⟨5⟩]).bindTuple ⟨1⟩
        [.packed ⟨5⟩]).spellOut ∧
    (matchParameters ⟨[.single (.var ⟨0⟩), .single (.packed ⟨0⟩), .mapped (.named "list") ⟨1⟩]⟩
        [.tuple [.spread ⟨5⟩], .tuple [.spread ⟨5⟩],
          .apply (.named "list") [.tuple [.spread ⟨5⟩]]]).kind.map Binding.spellOut =
      (matchParameters ⟨[.single (.var ⟨0⟩), .single (.packed ⟨0⟩), .mapped (.named "list") ⟨1⟩]⟩
        [.packed ⟨5⟩, .packed ⟨5⟩, .apply (.named "list") [.packed ⟨5⟩]]).kind.map
          Binding.spellOut := by
  have h := wrapped_arguments_alike
    ⟨[.single (.var ⟨0⟩), .single (.packed ⟨0⟩), .mapped (.named "list") ⟨1⟩]⟩
    [.packed ⟨5⟩, .packed ⟨5⟩, .apply (.named "list") [.packed ⟨5⟩]]
  exact ⟨(h.2 (by decide)).1 _ rfl, h.1 (not_clashes_of_ok rfl) (not_clashes_of_ok rfl)⟩

/-- Three clashes of spelling.  `T0[*Ts0]` and `*Map[tuple, Ts0]` do not match a wrapped `Ts5`, and
`(T0, T0)` does not match its two spellings.  Spelled out, all of them go through. -/
theorem wrapped_argument_clashes :
    (matchParameters ⟨[.single (.apply (.var ⟨0⟩) [.spread ⟨0⟩])]⟩ [.packed ⟨5⟩]).result =
      .error ⟨.mismatch (.apply (.var ⟨0⟩) [.spread ⟨0⟩]) (.packed ⟨5⟩), [.param 0]⟩ ∧
    (matchParameters ⟨[.single (.apply (.var ⟨0⟩) [.spread ⟨0⟩])]⟩
        (TypeExpr.spellOutAll [.packed ⟨5⟩])).result =
      .ok ((Binding.empty.bindScalar ⟨0⟩ (.named "tuple")).bindTuple ⟨0⟩ [.spread ⟨5⟩]) ∧
    (matchParameters ⟨[.mapped (.named "tuple") ⟨0⟩]⟩ [.packed ⟨5⟩]).result =
      .error ⟨.mismatch (.tuple [.spread ⟨0⟩]) (.packed ⟨5⟩), [.param 0]⟩ ∧
    (matchParameters ⟨[.mapped (.named "tuple") ⟨0⟩]⟩
        (TypeExpr.spellOutAll [.packed ⟨5⟩])).result =
      .ok (Binding.empty.bindTuple ⟨0⟩ [.spread ⟨5⟩]) ∧
    (matchParameters ⟨[.single (.var ⟨0⟩), .single (.var ⟨0⟩)]⟩
        [.packed ⟨5⟩, .tuple [.spread ⟨5⟩]]).result =
      .error ⟨.conflict (.scalar ⟨0⟩) (.packed ⟨5⟩) (.tuple [.spread ⟨5⟩]), [.param 1]⟩ ∧
    (matchParameters ⟨[.single (.var ⟨0⟩), .single (.var ⟨0⟩)]⟩
        (TypeExpr.spellOutAll [.packed ⟨5⟩, .tuple [.spread ⟨5⟩]])).result =
      .ok (Binding.empty.bindScalar ⟨0⟩ (.tuple [.spread ⟨5⟩])) :=
  ⟨rfl, rfl, rfl, rfl, rfl, rfl⟩

end Polyadic
