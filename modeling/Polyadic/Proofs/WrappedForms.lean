import Polyadic.Matching.Call
import Polyadic.Proofs.Checking
import Polyadic.Proofs.Hygiene
import Polyadic.Proofs.Positions

/-! # Two spellings of a wrapped tuple variable

A wrapped tuple variable stands for `tuple[*Ts]`, and may be written so: `spellOut` replaces the one
by the other throughout.  On the formal side the spellings are interchangeable.  A match takes other
steps, for it reads the elements of a wrapped tuple at once in the one spelling and takes an
application apart in the other, but it ends alike (`kind_unify_spellOut`): with the same binding, or
with failures of one category.  The check of a declaration does not tell them apart
(`checkSplits_spellOut`).

What a mapped slot expands to is spelled out in its constructor only, since its arguments come from
the binding.  So the case of an application is stated for two heads that match alike
(`kind_unify_apply`). -/

namespace Polyadic

open Attempt

/-! ### Spelling out -/

namespace TypeExpr

mutual

/-- The type with every wrapped tuple variable written as the wrapped tuple of its spread form. -/
def spellOut : TypeExpr → TypeExpr
  | .named name => .named name
  | .var v => .var v
  | .packed ts => .tuple [.spread ts]
  | .spread ts => .spread ts
  | .spreadMap ctor ts => .spreadMap ctor.spellOut ts
  | .apply head args => .apply head.spellOut (spellOutAll args)
  | .union members => .union (spellOutAll members)
  | .arrow params result => .arrow (spellOutAll params) result.spellOut

/-- The types of a list, spelled out. -/
def spellOutAll : List TypeExpr → List TypeExpr
  | [] => []
  | t :: ts => t.spellOut :: spellOutAll ts

end

theorem spellOutAll_eq_map (ts : List TypeExpr) : spellOutAll ts = ts.map spellOut := by
  induction ts with
  | nil => rfl
  | cons t ts ih => rw [spellOutAll, ih, List.map_cons]

theorem spellOut_eq_named_iff {t : TypeExpr} {name : String} :
    t.spellOut = .named name ↔ t = .named name := by
  cases t <;> simp [spellOut, tuple]

end TypeExpr

namespace Slot

/-- The slot with its type or its constructor spelled out. -/
def spellOut : Slot → Slot
  | .single t => .single t.spellOut
  | .spread ts => .spread ts
  | .mapped ctor ts => .mapped ctor.spellOut ts

theorem ofType_spellOut (t : TypeExpr) : ofType t.spellOut = (ofType t).spellOut := by
  cases t <;> rfl

@[simp] theorem tuple?_spellOut (slot : Slot) : slot.spellOut.tuple? = slot.tuple? := by
  cases slot <;> rfl

@[simp] theorem length?_spellOut (b : Binding) (slot : Slot) :
    slot.spellOut.length? b = slot.length? b := by
  cases slot <;> rfl

@[simp] theorem isOpen_spellOut (b : Binding) (slot : Slot) :
    slot.spellOut.isOpen b = slot.isOpen b := by
  rw [isOpen, isOpen, length?_spellOut]

@[simp] theorem width_spellOut (b : Binding) (slot : Slot) :
    slot.spellOut.width b = slot.width b := by
  rw [width, width, length?_spellOut]

end Slot

theorem TypeExpr.map_ofType_spellOutAll (ts : List TypeExpr) :
    (spellOutAll ts).map Slot.ofType = (ts.map Slot.ofType).map Slot.spellOut := by
  rw [spellOutAll_eq_map, List.map_map, List.map_map]
  exact List.map_congr_left fun t _ => Slot.ofType_spellOut t

/-- The parameter list with every slot spelled out. -/
def ParameterList.spellOut (list : ParameterList) : ParameterList := ⟨list.slots.map Slot.spellOut⟩

section lengths

variable {b : Binding} {slots : List Slot}

theorem requiredLength_spellOut :
    requiredLength b (slots.map Slot.spellOut) = requiredLength b slots := by
  induction slots with
  | nil => rfl
  | cons slot rest ih => rw [List.map_cons, requiredLength, requiredLength, ih, Slot.width_spellOut]

theorem openCount_spellOut : openCount b (slots.map Slot.spellOut) = openCount b slots := by
  simp [openCount, List.countP_map, Function.comp_def]

theorem openTuples_spellOut : openTuples b (slots.map Slot.spellOut) = openTuples b slots := by
  simp [openTuples, List.filter_map, List.filterMap_map, Function.comp_def]

theorem listArity_spellOut : listArity b (slots.map Slot.spellOut) = listArity b slots := by
  rw [listArity, listArity, openCount_spellOut, requiredLength_spellOut]

end lengths

/-! ### Kinds of ends -/

namespace Attempt

variable {α β : Type}

/-- How an attempt ends: with its value, or with the category of its failure. -/
def kind (x : Attempt α) : Except Category α := x.verdict.mapError Cause.category

theorem kind_of_ok {x : Attempt α} {a : α} (h : x.result = .ok a) : x.kind = .ok a := by
  rw [kind, verdict_of_ok h]
  rfl

theorem kind_of_error {x : Attempt α} {e : Failure} (h : x.result = .error e) :
    x.kind = .error e.cause.category := by
  rw [kind, verdict_of_error h]
  rfl

theorem kind_eq_ok_iff {x : Attempt α} {a : α} : x.kind = .ok a ↔ x.result = .ok a := by
  cases h : x.result with
  | ok b => simp [kind_of_ok h]
  | error e => simp [kind_of_error h]

@[simp] theorem kind_mismatch (expected actual : TypeExpr) :
    (mismatch expected actual : Attempt α).kind = .error .typeMismatch := rfl

@[simp] theorem kind_log (e : Event) : (log e).kind = .ok () := rfl

@[simp] theorem kind_under (segment : Segment) (x : Attempt α) :
    (x.under segment).kind = x.kind := by
  rw [kind, verdict_under, kind]

theorem kind_bind (x : Attempt α) (f : α → Attempt β) :
    (x >>= f).kind = x.kind >>= fun a => (f a).kind := by
  rw [kind, verdict_bind, kind]
  cases x.verdict <;> rfl

@[simp] theorem kind_log_bind (e : Event) (f : Unit → Attempt β) :
    (log e >>= f).kind = (f ()).kind := by
  rw [kind_bind, kind_log]
  rfl

/-- Two attempts that end alike go on alike. -/
theorem kind_bind_congr {x y : Attempt α} {f g : α → Attempt β} (hxy : x.kind = y.kind)
    (hfg : ∀ a, (f a).kind = (g a).kind) : (x >>= f).kind = (y >>= g).kind := by
  rw [kind_bind, kind_bind, hxy]
  congr
  funext a
  exact hfg a

end Attempt

/-! ### Single slots -/

section slots

variable {place place' : Nat → Segment} {b : Binding}

/-- Lists of types that match alike one by one match alike, wherever their arguments stand. -/
theorem kind_unifyEach_map {α : Type} {f g : α → TypeExpr} {xs : List α} {actuals : List TypeExpr}
    (h : ∀ x ∈ xs, ∀ a ∈ actuals, ∀ b, (unify (g x) a b).kind = (unify (f x) a b).kind)
    (i j : Nat) (b : Binding) :
    (unifyEach unify place' j (xs.map g) actuals b).kind =
      (unifyEach unify place i (xs.map f) actuals b).kind := by
  induction xs generalizing i j actuals b with
  | nil => simp [unifyEach]
  | cons x xs ih =>
    cases actuals with
    | nil => simp [unifyEach]
    | cons a as =>
      rw [List.map_cons, List.map_cons, unifyEach, unifyEach]
      refine kind_bind_congr ?_ fun b => ?_
      · rw [kind_under, kind_under]
        exact h x (by simp) a (by simp) b
      · exact ih (fun y hy a ha => h y (by simp [hy]) a (by simp [ha])) _ _ b

theorem kind_stripEach {ctor ctor' : TypeExpr} {ts : TupleVar} {actuals : List TypeExpr}
    (h : ∀ a ∈ actuals, ∀ head operand, a.unary? = some (head, operand) →
      ∀ b, (unify ctor' head b).kind = (unify ctor head b).kind) (i j : Nat) (b : Binding) :
    (stripEach unify place' ctor' ts j actuals b).kind =
      (stripEach unify place ctor ts i actuals b).kind := by
  induction actuals generalizing i j b with
  | nil => rfl
  | cons a as ih =>
    rw [stripEach, stripEach]
    refine kind_bind_congr ?_ fun b => ih (fun x hx => h x (by simp [hx])) _ _ b
    rw [kind_under, kind_under]
    split
    · rename_i head operand ha
      rw [kind_under, kind_under]
      exact h a (by simp) head operand ha b
    · rfl

/-- Two applications match alike if their heads and their arguments do, on what is lighter than the
actual type. -/
theorem kind_unify_apply {head head' a : TypeExpr} {args args' : List TypeExpr} {b : Binding}
    (hname : head' = .named TypeExpr.tupleName ↔ head = .named TypeExpr.tupleName)
    (hhead : ∀ h, h.weight < a.weight → ∀ b, (unify head' h b).kind = (unify head h b).kind)
    (hargs : ∀ place elements, (∀ x ∈ elements, x.weight < a.weight) → ∀ b,
      (matchList unify place (args'.map Slot.ofType) elements b).kind =
        (matchList unify place (args.map Slot.ofType) elements b).kind) :
    (unify (.apply head' args') a b).kind = (unify (.apply head args) a b).kind := by
  rw [unify_eq, unify_eq]
  cases a with
  | packed us =>
    simp only [unifyStep, hname]
    split
    · exact hargs _ _ (by simp [TypeExpr.weight]) b
    · rfl
  | apply head₁ args₁ =>
    simp only [unifyStep, kind_log_bind]
    refine kind_bind_congr ?_ fun b => hargs _ _ (fun x => TypeExpr.weight_lt_apply) b
    rw [kind_under, kind_under]
    exact hhead _ TypeExpr.weight_head_lt b
  | _ => simp [unifyStep]

/-- The two spellings of a well placed type match alike, on a list of types and on everything at
most as heavy. -/
def SpelledAlikeOn (types : List TypeExpr) : Prop :=
  ∀ x ∈ types, ∀ a, a.weight ≤ x.weight → ∀ f : TypeExpr, f.WellPlaced →
    ∀ b, (unify f.spellOut a b).kind = (unify f a b).kind

theorem kind_matchSlot_spellOut {slot : Slot} {run : Run} (hplaced : slot.WellPlaced)
    (hu : SpelledAlikeOn run.types) :
    (matchSlot unify place' slot.spellOut run b).kind =
      (matchSlot unify place slot run b).kind := by
  cases slot with
  | single f =>
    have hsingle : ∀ t ∈ [f], ∀ a ∈ run.types, ∀ b,
        (unify t.spellOut a b).kind = (unify (id t) a b).kind :=
      fun t ht a ha => hu a ha a (Nat.le_refl _) t (List.mem_singleton.1 ht ▸ hplaced)
    exact kind_unifyEach_map hsingle _ _ b
  | spread ts => simp [Slot.spellOut, matchSlot]
  | mapped ctor ts =>
    have hctor : ∀ a ∈ run.types, ∀ h, h.weight < a.weight →
        ∀ b, (unify ctor.spellOut h b).kind = (unify ctor h b).kind :=
      fun a ha h hlt => hu a ha h (Nat.le_of_lt hlt) ctor hplaced
    rw [Slot.spellOut, matchSlot, matchSlot]
    split
    · rw [kind_log_bind, kind_log_bind]
      refine kind_unifyEach_map (fun x _ a ha b => ?_) _ _ b
      exact kind_unify_apply TypeExpr.spellOut_eq_named_iff (hctor a ha) fun _ _ _ _ => rfl
    · rw [kind_log_bind, kind_log_bind]
      refine kind_bind_congr (kind_stripEach (fun a ha head operand hunary => ?_) _ _ b)
        fun b => rfl
      exact hctor a ha head (TypeExpr.weight_lt_of_unary hunary)

end slots

/-! ### Rows of slots -/

section rows

variable {place place' : Nat → Segment}

/-- The window with its slots spelled out. -/
def Window.spellOut (w : Window) : Window := { w with slots := w.slots.map Slot.spellOut }

theorem kind_evenShare_spellOut (slots : List Slot) (run : Run) (b : Binding) :
    (evenShare (slots.map Slot.spellOut) run b).kind = (evenShare slots run b).kind := by
  simp only [evenShare, shareEvenly, wrongArity, openTuples_spellOut, requiredLength_spellOut,
    openCount_spellOut, listArity_spellOut]
  split
  · rfl
  · split
    · rfl
    · split
      · rfl
      · split <;> rfl

/-- The slots of a window are well placed, and their spellings match alike on its arguments. -/
structure Window.SpelledAlike (w : Window) : Prop where
  wellPlaced : ∀ slot ∈ w.slots, slot.WellPlaced
  types : SpelledAlikeOn w.run.types

theorem kind_takeSlot_spellOut {w : Window} (hw : w.SpelledAlike) :
    (takeSlot unify place' w.spellOut).kind =
      (takeSlot unify place w).kind.map Window.spellOut := by
  have take {slot : Slot} {rest : List Slot} {run rest' : Run} (side : Side)
      (hslot : slot ∈ w.slots) (hrun : ∀ t ∈ run.types, t ∈ w.run.types) :
      (matchSlot unify place' slot.spellOut run w.binding >>= fun b =>
          (pure ⟨side, rest.map Slot.spellOut, rest', b⟩ : Attempt Window)).kind =
        (matchSlot unify place slot run w.binding >>= fun b =>
          (pure ⟨side, rest, rest', b⟩ : Attempt Window)).kind.map Window.spellOut := by
    have hkind : (matchSlot unify place' slot.spellOut run w.binding).kind =
        (matchSlot unify place slot run w.binding).kind :=
      kind_matchSlot_spellOut (hw.wellPlaced slot hslot) fun x hx => hw.types x (hrun x hx)
    rw [kind_bind, kind_bind, hkind]
    cases (matchSlot unify place slot run w.binding).kind <;> rfl
  have hmove : nextMove (fun s => !s.isOpen w.binding) w.side (w.slots.map Slot.spellOut) =
      (nextMove (fun s => !s.isOpen w.binding) w.side w.slots).map Slot.spellOut := by
    rw [nextMove_map]
    simp only [Slot.isOpen_spellOut]
  rw [takeSlot, takeSlot, Window.spellOut, hmove]
  cases hm : nextMove (fun s => !s.isOpen w.binding) w.side w.slots with
  | done => rfl
  | front slot rest =>
    simp only [Move.map, Slot.width_spellOut, wrongArity, listArity_spellOut]
    split
    · rfl
    · exact take .front (by simp [(nextMove_eq_front hm).1]) fun t => List.mem_of_mem_take
  | back rest slot =>
    simp only [Move.map, Slot.width_spellOut, wrongArity, listArity_spellOut]
    split
    · rfl
    · exact take .back (by simp [(nextMove_eq_back hm).1]) fun t => List.mem_of_mem_drop
  | stuck slot rest =>
    simp only [Move.map]
    rw [kind_bind, kind_bind, kind_evenShare_spellOut]
    cases (evenShare w.slots w.run w.binding).kind with
    | error c => rfl
    | ok width =>
      exact take .front (by simp [(nextMove_eq_stuck hm).1]) fun t => List.mem_of_mem_take

theorem spelledAlike_of_takeSlot {w : Window} (hw : w.SpelledAlike) :
    (takeSlot unify place w).Meets Window.SpelledAlike fun _ => True :=
  (keepsSoFar_of_takeSlot (keepsSoFar_self w)).mono
    (fun _ hw' => ⟨fun s hs => hw.wellPlaced s (hw'.slots_subset s hs),
      fun x hx => hw.types x (hw'.arguments_subset x hx)⟩) fun _ _ => trivial

theorem kind_takeSlots_spellOut {n : Nat} {w : Window} (hw : w.SpelledAlike) :
    (takeSlots unify place' n w.spellOut).kind =
      (takeSlots unify place n w).kind.map Window.spellOut := by
  induction n generalizing w with
  | zero => rfl
  | succ n ih =>
    rw [takeSlots, takeSlots, kind_bind, kind_bind, kind_takeSlot_spellOut hw]
    cases hr : (takeSlot unify place w).result with
    | error e =>
      rw [kind_of_error hr]
      rfl
    | ok w' =>
      rw [kind_of_ok hr]
      exact ih ((spelledAlike_of_takeSlot hw).of_ok hr)

/-- The two spellings of a row match alike, wherever the arguments stand. -/
theorem kind_matchList_spellOut {slots : List Slot} {arguments : List TypeExpr} {b : Binding}
    (hplaced : ∀ slot ∈ slots, slot.WellPlaced) (hu : SpelledAlikeOn arguments) :
    (matchList unify place' (slots.map Slot.spellOut) arguments b).kind =
      (matchList unify place slots arguments b).kind := by
  have hwhole : (takeSlots unify place' slots.length
        (.whole (slots.map Slot.spellOut) arguments b)).kind =
      (takeSlots unify place slots.length (.whole slots arguments b)).kind.map Window.spellOut :=
    kind_takeSlots_spellOut (w := .whole slots arguments b) ⟨hplaced, hu⟩
  simp only [matchList, wrongArity, listArity_spellOut, List.length_map, requiredLength_spellOut]
  split
  · rw [kind_bind, kind_bind, hwhole]
    cases (takeSlots unify place slots.length (.whole slots arguments b)).kind with
    | error c => rfl
    | ok w => rfl
  · rfl

end rows

/-! ### Types and parameter lists -/

theorem kind_unify_named (name : String) (a : TypeExpr) (b : Binding) :
    (unify (.named name) a b).kind = if a = .named name then .ok b else .error .typeMismatch := by
  rw [unify_eq]
  cases a with
  | named name' =>
    by_cases h : name = name'
    · subst h
      simp only [unifyStep, if_true, kind_log_bind]
      rfl
    · simp [unifyStep, h, Ne.symm h]
  | _ => simp [unifyStep]

/-- The two spellings of a wrapped tuple variable match alike if its elements do, which stand at
other positions. -/
theorem kind_unify_packed {ts : TupleVar} {a : TypeExpr} {b : Binding}
    (h : ∀ elements, (∀ x ∈ elements, x.weight < a.weight) → ∀ b,
      (matchList unify .arg [.spread ts] elements b).kind =
        (matchList unify .element [.spread ts] elements b).kind) :
    (unify (.tuple [.spread ts]) a b).kind = (unify (.packed ts) a b).kind := by
  rw [unify_eq (.packed ts), unify_eq, TypeExpr.tuple]
  cases a with
  | packed us => simp [unifyStep, TypeExpr.tupleElements?, Slot.ofType]
  | apply head args =>
    have hargs := h args (fun x => TypeExpr.weight_lt_apply)
    simp only [unifyStep, kind_log_bind]
    rw [kind_bind, kind_under, kind_unify_named]
    by_cases hhead : head = .named TypeExpr.tupleName
    · rw [if_pos hhead, hhead]
      exact hargs b
    · have hnone : (TypeExpr.apply head args).tupleElements? = none := by
        cases head <;> simp_all [TypeExpr.tupleElements?]
      rw [if_neg hhead, hnone]
      rfl
  | _ => simp [unifyStep, TypeExpr.tupleElements?]

/-- The two spellings of a well placed type match alike. -/
theorem kind_unify_spellOut {f a : TypeExpr} (hplaced : f.WellPlaced) (b : Binding) :
    (unify f.spellOut a b).kind = (unify f a b).kind := by
  induction hn : a.weight using Nat.strongRecOn generalizing f a b with
  | ind n ih =>
    subst hn
    have row {place place' : Nat → Segment} {slots : List Slot} {elements : List TypeExpr}
        (hslots : ∀ s ∈ slots, s.WellPlaced) (hlighter : ∀ x ∈ elements, x.weight < a.weight)
        (b : Binding) :
        (matchList unify place' (slots.map Slot.spellOut) elements b).kind =
          (matchList unify place slots elements b).kind :=
      kind_matchList_spellOut hslots fun x hx c hle f hf b =>
        ih c.weight (Nat.lt_of_le_of_lt hle (hlighter x hx)) hf b rfl
    cases f with
    | named | var => rfl
    | packed ts =>
      have hspread : ∀ s ∈ [Slot.spread ts], s.WellPlaced := by simp [Slot.WellPlaced]
      refine kind_unify_packed fun elements hlighter b => ?_
      exact row hspread hlighter b
    | spread | spreadMap => simp at hplaced
    | apply head args =>
      rw [TypeExpr.wellPlaced_apply] at hplaced
      refine kind_unify_apply TypeExpr.spellOut_eq_named_iff
        (fun h hlt b => ih h.weight hlt hplaced.1 b rfl) fun place elements hlighter b => ?_
      rw [TypeExpr.map_ofType_spellOutAll]
      exact row hplaced.2 hlighter b
    | union members =>
      rw [TypeExpr.wellPlaced_union] at hplaced
      rw [unify_eq, unify_eq]
      cases a with
      | union members' =>
        simp only [TypeExpr.spellOut, unifyStep, kind_log_bind, TypeExpr.map_ofType_spellOutAll]
        exact row hplaced (fun x => TypeExpr.weight_lt_union) b
      | _ => simp [TypeExpr.spellOut, unifyStep]
    | arrow params result =>
      rw [TypeExpr.wellPlaced_arrow] at hplaced
      rw [unify_eq, unify_eq]
      cases a with
      | arrow params' result' =>
        simp only [TypeExpr.spellOut, unifyStep, kind_log_bind, TypeExpr.map_ofType_spellOutAll]
        refine kind_bind_congr (row hplaced.1 (fun x => TypeExpr.weight_lt_arrow) b) fun b => ?_
        rw [kind_under, kind_under]
        exact ih _ TypeExpr.weight_result_lt hplaced.2 b rfl
      | _ => simp [TypeExpr.spellOut, unifyStep]

/-! ### The check of a declaration -/

section checks

open TypeExpr

theorem TypeExpr.tupleMentions_spellOut (t : TypeExpr) :
    t.spellOut.tupleMentions = t.tupleMentions := by
  have list {ts : List TypeExpr} (h : ∀ t ∈ ts, t.spellOut.tupleMentions = t.tupleMentions) :
      (spellOutAll ts).flatMap tupleMentions = ts.flatMap tupleMentions := by
    rw [spellOutAll_eq_map, List.flatMap_map, List.flatMap_def, List.flatMap_def,
      List.map_congr_left h]
  induction t using induct with
  | named | var | packed | spread => simp [spellOut, tuple]
  | spreadMap ctor ts ih => simp [spellOut, ih]
  | apply head args hhead hargs => simp [spellOut, hhead, list hargs]
  | union members hmembers => simp [spellOut, list hmembers]
  | arrow params result hparams hresult => simp [spellOut, hresult, list hparams]

theorem Slot.gain_spellOut (slot : Slot) : slot.spellOut.gain = slot.gain := by
  cases slot with
  | single t => exact t.tupleMentions_spellOut
  | spread | mapped => rfl

@[simp] theorem Slot.isKnown_spellOut (known : Known) (slot : Slot) :
    slot.spellOut.isKnown known = slot.isKnown known := by
  rw [isKnown, isKnown, tuple?_spellOut]

theorem unknownTuples_spellOut (known : Known) (slots : List Slot) :
    unknownTuples known (slots.map Slot.spellOut) = unknownTuples known slots := by
  have htuple : Slot.tuple? ∘ Slot.spellOut = Slot.tuple? := funext Slot.tuple?_spellOut
  rw [unknownTuples, unknownTuples, List.filterMap_map, htuple]

/-- A row whose slots are checked alike in both spellings is so as a whole. -/
theorem checkFrom_spellOut {place : Nat → Segment} {slots : List Slot}
    (h : ∀ s ∈ slots, s.spellOut.checkSplits = s.checkSplits) (side : Side) (start : Nat)
    (known : Known) :
    checkFrom place side start (slots.map Slot.spellOut) known =
      checkFrom place side start slots known := by
  have hmove (side : Side) (slots : List Slot) (known : Known) :
      nextMove (Slot.isKnown known) side (slots.map Slot.spellOut) =
        (nextMove (Slot.isKnown known) side slots).map Slot.spellOut := by
    rw [nextMove_map]
    simp only [Slot.isKnown_spellOut]
  induction side, start, slots, known using checkFrom_induct with
  | nil side start known => rfl
  | front side start slots known slot rest hm ih =>
    have hslots := (nextMove_eq_front hm).1
    rw [checkFrom_front ((hmove _ _ _).trans (by rw [hm, Move.map])), checkFrom_front hm,
      h slot (by simp [hslots]), Slot.gain_spellOut, ih fun s hs => h s (by simp [hslots, hs])]
  | back side start slots known slot rest hm ih =>
    have hslots := (nextMove_eq_back hm).1
    rw [checkFrom_back ((hmove _ _ _).trans (by rw [hm, Move.map])), checkFrom_back hm,
      h slot (by simp [hslots]), Slot.gain_spellOut, List.length_map,
      ih fun s hs => h s (by simp [hslots, hs])]
  | stuck side start slots known slot rest hm ih =>
    have hslots := (nextMove_eq_stuck hm).1
    rw [checkFrom_stuck ((hmove _ _ _).trans (by rw [hm, Move.map])), checkFrom_stuck hm,
      unknownTuples_spellOut, h slot (by simp [hslots])]
    simp only [Slot.gain_spellOut]
    rw [ih fun s hs => h s (by simp [hslots, hs])]

theorem Slot.checkSplits_spellOut {slot : Slot}
    (h : ∀ t ∈ slot.inner?, t.spellOut.checkSplits = t.checkSplits) :
    slot.spellOut.checkSplits = slot.checkSplits := by
  funext known
  cases slot with
  | single t => exact congrFun (h t rfl) known
  | spread ts => rfl
  | mapped ctor ts => rw [spellOut, checkSplits, checkSplits, h ctor rfl]

/-- The split between the occurrences of one tuple variable is determined. -/
theorem checkSplits_tuple_spread (ts : TupleVar) (known : Known) :
    (TypeExpr.tuple [.spread ts]).checkSplits known = .ok () := by
  have hlist : checkFrom .arg .front 0 [.spread ts] known = .ok () := by
    by_cases h : ts ∈ known
    · have hm : nextMove (Slot.isKnown known) .front [.spread ts] = .front (.spread ts) [] := by
        simp [nextMove, Slot.isKnown, Slot.tuple?, h]
      rw [checkFrom_front hm]
      rfl
    · have hm : nextMove (Slot.isKnown known) .front [.spread ts] = .stuck (.spread ts) [] := by
        simp [nextMove, Slot.isKnown, Slot.tuple?, h]
      rw [checkFrom_stuck hm, if_neg (by simp [unknownTuples, Slot.tuple?, h, List.eraseDups_cons])]
      rfl
  rw [TypeExpr.tuple, TypeExpr.checkSplits_apply]
  exact hlist

/-- The check does not tell the spellings of a type apart. -/
theorem checkSplits_spellOut (t : TypeExpr) : t.spellOut.checkSplits = t.checkSplits := by
  have list {place : Nat → Segment} {ts : List TypeExpr} (known : Known)
      (h : ∀ s ∈ ts.map Slot.ofType, ∀ t ∈ s.inner?, t.spellOut.checkSplits = t.checkSplits) :
      checkSlots place ((TypeExpr.spellOutAll ts).map Slot.ofType) known =
        checkSlots place (ts.map Slot.ofType) known := by
    rw [TypeExpr.map_ofType_spellOutAll]
    exact checkFrom_spellOut (fun s hs => Slot.checkSplits_spellOut (h s hs)) .front 0 known
  induction t using TypeExpr.inductSlots with
  | named | var | spread => rfl
  | packed ts =>
    funext known
    exact checkSplits_tuple_spread ts known
  | spreadMap ctor ts ih =>
    funext known
    rw [TypeExpr.spellOut, TypeExpr.checkSplits, TypeExpr.checkSplits, ih]
  | apply head args hhead hargs =>
    funext known
    rw [TypeExpr.spellOut, TypeExpr.checkSplits_apply, TypeExpr.checkSplits_apply, hhead,
      list known hargs]
  | union members hmembers =>
    funext known
    rw [TypeExpr.spellOut, TypeExpr.checkSplits_union, TypeExpr.checkSplits_union,
      list known hmembers]
  | arrow params result hparams hresult =>
    funext known
    rw [TypeExpr.spellOut, TypeExpr.checkSplits_arrow, TypeExpr.checkSplits_arrow, hresult,
      list known hparams]

end checks

/-- The spellings of a wrapped tuple variable are interchangeable in a parameter list.  With any
arguments, the list and the list spelled out end with the same binding or in failures of one
category; and the check, with any siblings, comes to the same verdict on both. -/
theorem spellOut_interchangeable {list : ParameterList} (hplaced : list.WellPlaced)
    (arguments siblings : List TypeExpr) :
    (matchParameters list.spellOut arguments).kind = (matchParameters list arguments).kind ∧
      list.spellOut.check siblings = list.check siblings := by
  constructor
  · rw [matchParameters_eq, matchParameters_eq]
    exact kind_matchList_spellOut hplaced fun _ _ _ _ _ hf b => kind_unify_spellOut hf b
  · have hslots : ∀ known, checkSlots .param list.spellOut.slots known =
        checkSlots .param list.slots known := by
      intro known
      refine checkFrom_spellOut (fun s _ => ?_) .front 0 known
      exact Slot.checkSplits_spellOut fun t _ => checkSplits_spellOut t
    simp only [ParameterList.check, hslots]

/-- In `(*Map[F[Ts1], Ts0], list[Ts1] | int)` the wrapped `Ts1` stands inside a constructor that is
mapped and inside a union.  The argument `list[Ts5] | int` has a wrapped tuple variable where the
elements of `Ts1` are known to be `int`, and the spellings fail alike. -/
theorem spellOut_interchangeable_nested :
    (ParameterList.mk [.mapped (.apply (.named "F") [.packed ⟨1⟩]) ⟨0⟩,
        .single (.union [.apply (.named "list") [.packed ⟨1⟩], .named "int"])]).WellPlaced ∧
      (matchParameters (ParameterList.mk [.mapped (.apply (.named "F") [.packed ⟨1⟩]) ⟨0⟩,
          .single (.union [.apply (.named "list") [.packed ⟨1⟩], .named "int"])]).spellOut
        [.apply (.apply (.named "F") [.tuple [.named "int"]]) [.named "str"],
          .union [.apply (.named "list") [.packed ⟨5⟩], .named "int"]]).kind =
        .error .inconsistent ∧
      (ParameterList.mk [.mapped (.apply (.named "F") [.packed ⟨1⟩]) ⟨0⟩,
          .single (.union [.apply (.named "list") [.packed ⟨1⟩],
            .named "int"])]).spellOut.check [] = .ok () :=
  ⟨by decide, (spellOut_interchangeable (by decide) _ []).1.trans rfl,
    (spellOut_interchangeable (by decide) [] _).2.trans rfl⟩

end Polyadic
