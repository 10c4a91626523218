import Polyadic.Matching.Call
import Polyadic.Proofs.Extension
import Polyadic.Proofs.Rules

/-! # Invariants of matching

A match changes its binding in two ways only: it gives a scalar variable of the formal side a type
of the actual side, or a tuple variable of the formal side a sequence of such types.  What these two
steps keep, every match keeps (`keeps_of_unify`, `keeps_of_matchAnchored`), whatever its arguments
are.  The rules here also say for which causes a match may fail (`Cause.isClash`).

Types change sides in one place: a mapped slot whose tuple variable is bound is expanded, and what
the variable is bound to becomes a formal type then.  So an invariant has to account for the formal
types that a binding gives rise to (`MatchInvariant.formal_expansion`). -/

namespace Polyadic

open Attempt

/-- The types at which a match goes on when it takes a type apart. -/
def TypeExpr.parts : TypeExpr → List TypeExpr
  | .packed ts => [.spread ts]
  | .apply head args => head :: args
  | .union members => members
  | .arrow params result => result :: params
  | .named _ | .var _ | .spread _ | .spreadMap _ _ => []

theorem TypeExpr.mem_parts_of_tupleElements {t e : TypeExpr} {elements : List TypeExpr}
    (h : t.tupleElements? = some elements) (he : e ∈ elements) : e ∈ t.parts := by
  unfold tupleElements? at h
  split at h
  · split at h
    · cases h
      exact List.mem_cons_of_mem _ he
    · cases h
  · cases h
    exact he
  · cases h

/-- The causes for which a match fails. -/
def Cause.isClash : Cause → Bool
  | .arity _ _ | .mismatch _ _ | .conflict _ _ _ | .ambiguousSplit _ => true
  | _ => false

/-- The failure of a match. -/
def Failure.IsClash (e : Failure) : Prop := e.cause.isClash = true

theorem isClash_anchorCause {bound : List TupleVar} {cause : Cause} (h : cause.isClash = true) :
    (anchorCause bound cause).isClash = true := by
  unfold anchorCause
  split
  · split <;> rfl
  · split <;> rfl
  · exact h

/-- A statement `kept` about bindings, with what it takes to be kept: a condition on the types of
the actual side and one on the types of the formal side, which are handed on to the parts of these
types. -/
structure MatchInvariant where
  actual : TypeExpr → Prop
  formal : Binding → TypeExpr → Prop
  kept : Binding → Prop
  actual_parts : ∀ {t p : TypeExpr}, actual t → p ∈ t.parts → actual p
  formal_parts : ∀ {b : Binding} {t p : TypeExpr}, formal b t → p ∈ t.parts → formal b p
  formal_ctor : ∀ {b : Binding} {ctor : TypeExpr} {ts : TupleVar},
    formal b (.spreadMap ctor ts) → formal b ctor
  formal_expansion : ∀ {b : Binding} {ctor : TypeExpr} {ts : TupleVar} {contents : List TypeExpr},
    kept b → formal b (.spreadMap ctor ts) → b.tuple? ts = some contents →
    ∀ x ∈ contents, formal b (.apply ctor [x])
  formal_later : ∀ {b c : Binding} {t : TypeExpr}, b ≤ c → formal b t → formal c t
  bindScalar : ∀ {b : Binding} {v : TypeVar} {t : TypeExpr},
    kept b → formal b (.var v) → actual t → b.scalar? v = none → kept (b.bindScalar v t)
  bindTuple : ∀ {b : Binding} {f : TypeExpr} {ts : TupleVar} {contents : List TypeExpr},
    kept b → formal b f → f.ownTuple? = some ts → (∀ t ∈ contents, actual t) →
    b.tuple? ts = none → kept (b.bindTuple ts contents)

namespace MatchInvariant

/-- The binding has grown, and the statement holds of it still. -/
def Keeps (I : MatchInvariant) (b b' : Binding) : Prop := b ≤ b' ∧ I.kept b'

variable {I : MatchInvariant} {b : Binding}

theorem Keeps.refl (h : I.kept b) : I.Keeps b b := ⟨b.le_refl, h⟩

theorem Keeps.trans {b' b'' : Binding} (h : I.Keeps b b') (h' : I.Keeps b' b'') : I.Keeps b b'' :=
  ⟨Binding.le_trans h.1 h'.1, h'.2⟩

/-! ### Assigning -/

theorem keeps_of_assignScalar {v : TypeVar} {t : TypeExpr} (hb : I.kept b)
    (hv : I.formal b (.var v)) (ht : I.actual t) :
    (assignScalar v t b).Meets (I.Keeps b) Failure.IsClash := by
  refine meets_assignScalar ?_ (fun _ => .refl hb) fun _ _ _ => rfl
  intro h
  exact ⟨Binding.le_bindScalar h t, I.bindScalar hb hv ht h⟩

theorem keeps_of_assignTuple {f : TypeExpr} {ts : TupleVar} {contents : List TypeExpr}
    (hb : I.kept b) (hf : I.formal b f) (hts : f.ownTuple? = some ts)
    (hcontents : ∀ t ∈ contents, I.actual t) :
    (assignTuple ts contents b).Meets (I.Keeps b) Failure.IsClash := by
  refine meets_assignTuple ?_ (fun _ => .refl hb) fun _ _ _ => rfl
  intro h
  exact ⟨Binding.le_bindTuple h contents, I.bindTuple hb hf hts hcontents h⟩

/-! ### One slot -/

section slots

/-- Matching with `u` keeps the invariant, on a list of types and on everything at most as heavy. -/
def KeepsOn (I : MatchInvariant) (u : Unifier) (arguments : List TypeExpr) : Prop :=
  ∀ x ∈ arguments, ∀ f a b, a.weight ≤ x.weight → I.actual a → I.formal b f → I.kept b →
    (u f a b).Meets (I.Keeps b) Failure.IsClash

variable {u : Unifier} {place : Nat → Segment} {i : Nat}

theorem KeepsOn.mono {as bs : List TypeExpr} (h : I.KeepsOn u bs) (hs : ∀ a ∈ as, a ∈ bs) :
    I.KeepsOn u as := fun x hx => h x (hs x hx)

theorem keeps_of_unifyEach {formals actuals : List TypeExpr} (hu : I.KeepsOn u actuals)
    (hactual : ∀ a ∈ actuals, I.actual a) (hformal : ∀ f ∈ formals, I.formal b f)
    (hb : I.kept b) :
    (unifyEach u place i formals actuals b).Meets (I.Keeps b) Failure.IsClash := by
  refine meets_unifyEach (I := fun fs as b' => I.Keeps b b' ∧ (∀ f ∈ fs, f ∈ formals) ∧
    ∀ a ∈ as, a ∈ actuals) ?_ (fun _ _ _ h _ => h.1) ⟨.refl hb, fun f hf => hf, fun a ha => ha⟩
  intro j f fs a as b' h
  obtain ⟨hkeeps, hfs, has⟩ := h
  have ha := has a (by simp)
  have hf := I.formal_later hkeeps.1 (hformal f (hfs f (by simp)))
  refine (hu a ha f a b' (Nat.le_refl _) (hactual a ha) hf hkeeps.2).imp ?_
  intro b'' h'
  exact ⟨hkeeps.trans h', fun g hg => hfs g (by simp [hg]), fun x hx => has x (by simp [hx])⟩

theorem keeps_of_stripEach {ctor : TypeExpr} {ts : TupleVar} {actuals : List TypeExpr}
    (hu : I.KeepsOn u actuals) (hactual : ∀ a ∈ actuals, I.actual a) (hctor : I.formal b ctor)
    (hb : I.kept b) :
    (stripEach u place ctor ts i actuals b).Meets (I.Keeps b) Failure.IsClash := by
  refine meets_stripEach (I := fun as b' => I.Keeps b b' ∧ ∀ a ∈ as, a ∈ actuals) ?_
    (fun _ _ _ _ _ _ => rfl) (fun _ h => h.1) ⟨.refl hb, fun a ha => ha⟩
  intro j a as b' head operand h heq
  obtain ⟨hkeeps, has⟩ := h
  have ha := has a (by simp)
  have hhead : I.actual head := I.actual_parts (hactual a ha) (by simp [heq, TypeExpr.parts])
  have hweight : head.weight ≤ a.weight :=
    Nat.le_of_lt (TypeExpr.weight_lt_of_unary (TypeExpr.unary?_eq_some_iff.2 heq))
  refine (hu a ha ctor head b' hweight hhead (I.formal_later hkeeps.1 hctor) hkeeps.2).imp ?_
  intro b'' h'
  exact ⟨hkeeps.trans h', fun x hx => has x (by simp [hx])⟩

theorem actual_operands {types : List TypeExpr} (hactual : ∀ a ∈ types, I.actual a) :
    ∀ t ∈ types.filterMap fun t => t.unary?.map Prod.snd, I.actual t := by
  intro t ht
  obtain ⟨a, ha, hat⟩ := List.mem_filterMap.1 ht
  obtain ⟨⟨head, operand⟩, hop, rfl⟩ := Option.map_eq_some_iff.1 hat
  refine I.actual_parts (hactual a ha) ?_
  simp [TypeExpr.unary?_eq_some_iff.1 hop, TypeExpr.parts]

theorem keeps_of_matchSlot {slot : Slot} {run : Run} (hu : I.KeepsOn u run.types)
    (hactual : ∀ a ∈ run.types, I.actual a) (hslot : I.formal b slot.toType) (hb : I.kept b) :
    (matchSlot u place slot run b).Meets (I.Keeps b) Failure.IsClash := by
  cases slot with
  | single formal =>
    have hformal : ∀ f ∈ [formal], I.formal b f := List.forall_mem_singleton.2 hslot
    exact keeps_of_unifyEach hu hactual hformal hb
  | spread ts =>
    rw [matchSlot, meets_under]
    exact keeps_of_assignTuple hb hslot rfl hactual
  | mapped ctor ts =>
    rw [matchSlot]
    split
    · rename_i contents hts
      have hformal : ∀ f ∈ TypeExpr.mapOver ctor contents, I.formal b f := by
        intro f hf
        obtain ⟨x, hx, rfl⟩ := List.mem_map.1 hf
        exact I.formal_expansion hb hslot hts x hx
      rw [meets_bind, meets_log]
      exact keeps_of_unifyEach hu hactual hformal hb
    · rw [meets_bind, meets_log, meets_bind]
      refine (keeps_of_stripEach hu hactual (I.formal_ctor hslot) hb).imp ?_
      intro b' h
      refine (keeps_of_assignTuple h.2 (I.formal_later h.1 hslot) rfl
        (actual_operands hactual)).imp ?_
      intro b'' h'
      exact h.trans h'

end slots

/-! ### Rows of slots -/

section rows

variable {u : Unifier} {place : Nat → Segment} {slots : List Slot} {arguments : List TypeExpr}

/-- The window is a part of the row and its arguments, and the invariant has been kept so far. -/
structure KeepsSoFar (I : MatchInvariant) (slots : List Slot) (arguments : List TypeExpr)
    (b : Binding) (w : Window) : Prop where
  keeps : I.Keeps b w.binding
  slots_subset : ∀ s ∈ w.slots, s ∈ slots
  arguments_subset : ∀ t ∈ w.run.types, t ∈ arguments

/-- Each move keeps the invariant, whichever slot it takes with whichever run. -/
theorem keeps_of_takeSlot (hu : I.KeepsOn u arguments) (hactual : ∀ a ∈ arguments, I.actual a)
    (hslots : ∀ s ∈ slots, I.formal b s.toType) {w : Window}
    (hw : I.KeepsSoFar slots arguments b w) :
    (takeSlot u place w).Meets (I.KeepsSoFar slots arguments b) Failure.IsClash := by
  have take {slot : Slot} {rest : List Slot} {run rest' : Run} (side : Side)
      (hmem : ∀ s, s = slot ∨ s ∈ rest → s ∈ w.slots) (hrun : ∀ t ∈ run.types, t ∈ w.run.types)
      (hrest : ∀ t ∈ rest'.types, t ∈ w.run.types) :
      (matchSlot u place slot run w.binding).Meets
        (fun b' => I.KeepsSoFar slots arguments b ⟨side, rest, rest', b'⟩) Failure.IsClash := by
    have hsub : ∀ t ∈ run.types, t ∈ arguments := fun t ht => hw.arguments_subset t (hrun t ht)
    have hslot := hslots slot (hw.slots_subset slot (hmem slot (.inl rfl)))
    refine (keeps_of_matchSlot (hu.mono hsub) (fun t ht => hactual t (hsub t ht))
      (I.formal_later hw.keeps.1 hslot) hw.keeps.2).imp ?_
    intro b' h
    exact ⟨hw.keeps.trans h, fun s hs => hw.slots_subset s (hmem s (.inr hs)),
      fun t ht => hw.arguments_subset t (hrest t ht)⟩
  refine meets_takeSlot (fun _ => hw) (fun _ _ _ _ => rfl) ?front ?back ?stuck
  case front =>
    intro slot rest hm _
    exact take .front (by simp [(nextMove_eq_front hm).1]) (fun t => List.mem_of_mem_take)
      fun t => List.mem_of_mem_drop
  case back =>
    intro rest slot hm _
    exact take .back (by simp [(nextMove_eq_back hm).1, or_comm]) (fun t => List.mem_of_mem_drop)
      fun t => List.mem_of_mem_take
  case stuck =>
    intro slot rest hm
    exact meets_evenShare (fun _ => rfl) (fun _ _ => rfl) (fun _ _ => rfl)
      fun _ _ _ => take .front (by simp [(nextMove_eq_stuck hm).1])
        (fun t => List.mem_of_mem_take) fun t => List.mem_of_mem_drop

theorem keeps_of_matchList (hu : I.KeepsOn u arguments) (hactual : ∀ a ∈ arguments, I.actual a)
    (hslots : ∀ s ∈ slots, I.formal b s.toType) (hb : I.kept b) :
    (matchList u place slots arguments b).Meets (I.Keeps b) Failure.IsClash :=
  meets_matchList (fun _ => rfl) (fun _ => ⟨.refl hb, fun _ hs => hs, fun _ ht => ht⟩)
    (fun _ hw => keeps_of_takeSlot hu hactual hslots hw) (fun _ hw _ _ => hw.keeps)
    fun _ _ _ _ => rfl

end rows

/-! ### Two types -/

theorem formal_ofType {types : List TypeExpr} (h : ∀ t ∈ types, I.formal b t) :
    ∀ s ∈ types.map Slot.ofType, I.formal b s.toType := by
  intro s hs
  obtain ⟨t, ht, rfl⟩ := List.mem_map.1 hs
  rw [Slot.toType_ofType]
  exact h t ht

theorem keeps_of_unify {f a : TypeExpr} (ha : I.actual a) (hf : I.formal b f) (hb : I.kept b) :
    (unify f a b).Meets (I.Keeps b) Failure.IsClash := by
  induction hn : a.weight using Nat.strongRecOn generalizing f a b with
  | ind n ih =>
    have row (place : Nat → Segment) {types arguments : List TypeExpr} {b : Binding}
        (hl : ∀ x ∈ arguments, x.weight < n) (ha : ∀ x ∈ arguments, I.actual x)
        (hf : ∀ t ∈ types, I.formal b t) (hb : I.kept b) :
        (matchList unify place (types.map Slot.ofType) arguments b).Meets (I.Keeps b)
          Failure.IsClash := by
      have hlighter : I.KeepsOn unify arguments := by
        intro x hx f a b hle ha hf hb
        exact ih a.weight (Nat.lt_of_le_of_lt hle (hl x hx)) ha hf hb rfl
      exact keeps_of_matchList hlighter ha (formal_ofType hf) hb
    subst hn
    refine meets_unify ?var ?packed ?unpack ?apply ?arrow ?union (fun _ _ _ => .refl hb)
      (fun _ _ => .refl hb) rfl
    case var =>
      intro v heq
      subst heq
      exact keeps_of_assignScalar hb hf ha
    case packed =>
      intro ts elements heq helements
      subst heq
      have hspread : ∀ t ∈ [TypeExpr.spread ts], I.formal b t := fun t ht => I.formal_parts hf ht
      exact row .element (fun x => TypeExpr.weight_lt_of_mem_tupleElements helements)
        (fun x hx => I.actual_parts ha (TypeExpr.mem_parts_of_tupleElements helements hx))
        hspread hb
    case unpack =>
      intro args us heq hus
      subst heq hus
      exact row .element (by simp [TypeExpr.weight]) (fun x hx => I.actual_parts ha hx)
        (fun t ht => I.formal_parts hf (List.mem_cons_of_mem _ ht)) hb
    case apply =>
      intro head args head' args' heq hfa
      subst heq hfa
      refine (ih _ TypeExpr.weight_head_lt (I.actual_parts ha List.mem_cons_self)
        (I.formal_parts hf List.mem_cons_self) hb rfl).imp ?_
      intro b' h
      refine (row .arg (fun x => TypeExpr.weight_lt_apply)
        (fun x hx => I.actual_parts ha (List.mem_cons_of_mem _ hx))
        (fun t ht => I.formal_later h.1 (I.formal_parts hf (List.mem_cons_of_mem _ ht))) h.2).imp ?_
      intro b'' h'
      exact h.trans h'
    case arrow =>
      intro params result params' result' heq hfa
      subst heq hfa
      refine (row .callableParam (fun x => TypeExpr.weight_lt_arrow)
        (fun x hx => I.actual_parts ha (List.mem_cons_of_mem _ hx))
        (fun t ht => I.formal_parts hf (List.mem_cons_of_mem _ ht)) hb).imp ?_
      intro b' h
      refine (ih _ TypeExpr.weight_result_lt (I.actual_parts ha List.mem_cons_self)
        (I.formal_later h.1 (I.formal_parts hf List.mem_cons_self)) h.2 rfl).imp ?_
      intro b'' h'
      exact h.trans h'
    case union =>
      intro members members' heq hfa
      subst heq hfa
      exact row .member (fun x => TypeExpr.weight_lt_union)
        (fun x hx => I.actual_parts ha hx) (fun t ht => I.formal_parts hf ht) hb

theorem keepsOn_unify {arguments : List TypeExpr} : I.KeepsOn unify arguments :=
  fun _ _ _ _ _ _ ha hf hb => keeps_of_unify ha hf hb

/-! ### Anchors and lists -/

theorem keeps_of_solveAnchors {i : Nat} {anchors : List Anchor}
    (hactual : ∀ a ∈ anchors, I.actual a.actual) (hformal : ∀ a ∈ anchors, I.formal b a.formal)
    (hb : I.kept b) : (solveAnchors i anchors b).Meets (I.Keeps b) Failure.IsClash := by
  induction anchors generalizing i b with
  | nil => exact .refl hb
  | cons anchor rest ih =>
    rw [solveAnchors, meets_bind, meets_under, solveAnchor, meets_bind, meets_log, meets_recast]
    refine (keeps_of_unify (hactual anchor (by simp)) (hformal anchor (by simp)) hb).mono ?_
      fun _ => isClash_anchorCause
    intro b' h
    refine (ih (fun a ha => hactual a (by simp [ha]))
      (fun a ha => I.formal_later h.1 (hformal a (by simp [ha]))) h.2).imp ?_
    intro b'' h'
    exact h.trans h'

theorem keeps_of_matchAnchored {list : ParameterList} {arguments : List TypeExpr}
    {anchors : List Anchor} (hactual : ∀ t ∈ arguments, I.actual t)
    (hactualAnchors : ∀ a ∈ anchors, I.actual a.actual)
    (hformal : ∀ t ∈ list.toTypes, I.formal .empty t)
    (hformalAnchors : ∀ a ∈ anchors, I.formal .empty a.formal) (hempty : I.kept .empty) :
    (matchAnchored list arguments anchors).Meets I.kept Failure.IsClash := by
  rw [matchAnchored, meets_bind]
  refine (keeps_of_solveAnchors hactualAnchors hformalAnchors hempty).imp ?_
  intro b h
  have hslots : ∀ s ∈ list.slots, I.formal b s.toType := fun s hs =>
    I.formal_later h.1 (hformal _ (List.mem_map_of_mem hs))
  exact (keeps_of_matchList keepsOn_unify hactual hslots h.2).imp fun b' h' => h'.2

end MatchInvariant

end Polyadic
