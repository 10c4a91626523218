import Polyadic.Proofs.Inversion

/-! # Why a match fails

A match fails on two types that do not fit, on a variable that has another value already, on a list
that does not take as many arguments as there are, or on a row of slots with several open tuple
variables (`explained_of_unify`).  Where it reports a number of arguments, the number is one that
the reported arity refuses (`arity_refuses`).

Most of these reports compare two numbers that were counted a moment before.  The report of
arguments that are left over is another case, for it counts the whole list once more, under a
binding that has grown since the arguments were dealt out.  The invariant `Window.Accounts` carries
it: whatever lengths the open tuple variables turn out to have, the arguments that were taken are as
many as the slots that were taken go up to. -/

namespace Polyadic

open Attempt

/-! ### Causes -/

/-- An arity does not take a number of arguments.  Every number is a multiple of one. -/
def Arity.Refuses : Arity → Nat → Prop
  | .exactly n, found => found ≠ n
  | .atLeast n, found => found < n
  | .multipleOf n, found => 2 ≤ n ∧ ¬n ∣ found

/-- A cause that is about a number of arguments names one that its arity refuses. -/
def Cause.CountsRightly (cause : Cause) : Prop :=
  ∀ expected found, cause = .arity expected found → expected.Refuses found

/-- The causes for which a match fails while it keeps an invariant. -/
inductive MatchInvariant.Explains (I : MatchInvariant) : Cause → Prop
  | arity {expected found} : expected.Refuses found → Explains I (.arity expected found)
  | mismatch {expected actual} : Explains I (.mismatch expected actual)
  | conflict {subject previous found} : Explains I (.conflict subject previous found)
  | ambiguousSplit {b : Binding} {slots : List Slot} : I.kept b →
    (∀ s ∈ slots, I.formal b s.toType) → 1 < (openTuples b slots).length →
    Explains I (.ambiguousSplit (openTuples b slots))

theorem MatchInvariant.Explains.countsRightly {I : MatchInvariant} {cause : Cause}
    (h : I.Explains cause) : cause.CountsRightly := by
  rintro expected found rfl
  cases h with
  | arity h => exact h

section arities

variable {b : Binding} {slots : List Slot} {slot : Slot} {found : Nat}

theorem refuses_of_not_admits (h : ¬(listArity b slots).Admits found) :
    (listArity b slots).Refuses found := by
  unfold listArity at h ⊢
  split
  · rename_i hnone
    rw [if_pos hnone] at h
    exact h
  · rename_i hsome
    rw [if_neg hsome] at h
    show found < requiredLength b slots
    exact Nat.lt_of_not_le h

theorem refuses_of_lt (h : found < requiredLength b slots) :
    (listArity b slots).Refuses found := by
  unfold listArity
  split
  · show found ≠ requiredLength b slots
    omega
  · exact h

theorem width_le_requiredLength (h : slot ∈ slots) : slot.width b ≤ requiredLength b slots := by
  induction slots with
  | nil => cases h
  | cons s rest ih =>
    rw [requiredLength]
    rcases List.mem_cons.1 h with rfl | h
    · omega
    · have := ih h
      omega

theorem refuses_multipleOf {n available : Nat} (hpos : 0 < n) (h : available % n ≠ 0) :
    (Arity.multipleOf n).Refuses available := by
  have hne : n ≠ 1 := by
    rintro rfl
    exact h (Nat.mod_one available)
  refine ⟨by omega, fun hdvd => h ?_⟩
  exact Nat.mod_eq_zero_of_dvd hdvd

end arities

/-! ### Slots -/

namespace MatchInvariant

/-- Every failure of an attempt has a cause that the invariant explains. -/
def Explained {α : Type} (I : MatchInvariant) (x : Attempt α) : Prop :=
  x.Meets (fun _ => True) fun e => I.Explains e.cause

/-- A match of types is explained on a list of types and on everything at most as heavy. -/
def ExplainsOn (I : MatchInvariant) (types : List TypeExpr) : Prop :=
  ∀ x ∈ types, ∀ f a b, a.weight ≤ x.weight → I.actual a → I.formal b f → I.kept b →
    I.Explained (unify f a b)

theorem ExplainsOn.mono {I : MatchInvariant} {ts us : List TypeExpr} (h : I.ExplainsOn us)
    (hs : ∀ t ∈ ts, t ∈ us) : I.ExplainsOn ts := fun x hx => h x (hs x hx)

/-- What an attempt keeps and why it fails, said at once. -/
theorem Explained.keeping {I : MatchInvariant} {x : Attempt Binding} {b : Binding}
    (hx : I.Explained x) (hkeeps : x.Meets (I.Keeps b) Failure.IsClash) :
    x.Meets (I.Keeps b) fun e => I.Explains e.cause :=
  (hkeeps.and hx).mono (fun _ h => h.1) fun _ h => h.2

section slots

variable {I : MatchInvariant} {place : Nat → Segment} {b : Binding}

theorem explained_of_unifyEach {i : Nat} {formals actuals : List TypeExpr}
    (hu : I.ExplainsOn actuals) (hactual : ∀ a ∈ actuals, I.actual a)
    (hformal : ∀ f ∈ formals, I.formal b f) (hb : I.kept b) :
    I.Explained (unifyEach unify place i formals actuals b) := by
  refine meets_unifyEach (I := fun fs as b' => I.Keeps b b' ∧ (∀ f ∈ fs, f ∈ formals) ∧
    ∀ a ∈ as, a ∈ actuals) ?_ (fun _ _ _ _ _ => trivial) ⟨.refl hb, fun f hf => hf, fun a ha => ha⟩
  intro j f fs a as b' h
  obtain ⟨hkeeps, hfs, has⟩ := h
  have ha := has a (by simp)
  have hf := I.formal_later hkeeps.1 (hformal f (hfs f (by simp)))
  refine ((hu a ha f a b' (Nat.le_refl _) (hactual a ha) hf hkeeps.2).keeping
    (I.keeps_of_unify (hactual a ha) hf hkeeps.2)).imp fun b'' h' => ?_
  exact ⟨hkeeps.trans h', fun g hg => hfs g (by simp [hg]), fun x hx => has x (by simp [hx])⟩

theorem explained_of_stripEach {ctor : TypeExpr} {ts : TupleVar} {i : Nat}
    {actuals : List TypeExpr} (hu : I.ExplainsOn actuals) (hactual : ∀ a ∈ actuals, I.actual a)
    (hctor : I.formal b ctor) (hb : I.kept b) :
    I.Explained (stripEach unify place ctor ts i actuals b) := by
  refine meets_stripEach (I := fun as b' => I.Keeps b b' ∧ ∀ a ∈ as, a ∈ actuals) ?_
    (fun _ _ _ _ _ _ => .mismatch) (fun _ _ => trivial) ⟨.refl hb, fun a ha => ha⟩
  intro j a as b' head operand h heq
  obtain ⟨hkeeps, has⟩ := h
  have ha := has a (by simp)
  have hhead : I.actual head := I.actual_parts (hactual a ha) (by simp [heq, TypeExpr.parts])
  have hweight : head.weight ≤ a.weight :=
    Nat.le_of_lt (TypeExpr.weight_lt_of_unary (TypeExpr.unary?_eq_some_iff.2 heq))
  have hctor' := I.formal_later hkeeps.1 hctor
  refine ((hu a ha ctor head b' hweight hhead hctor' hkeeps.2).keeping
    (I.keeps_of_unify hhead hctor' hkeeps.2)).imp fun b'' h' => ?_
  exact ⟨hkeeps.trans h', fun x hx => has x (by simp [hx])⟩

theorem explained_of_assignTuple {ts : TupleVar} {contents : List TypeExpr} :
    I.Explained (assignTuple ts contents b) :=
  meets_assignTuple (fun _ => trivial) (fun _ => trivial) fun _ _ _ => .conflict

theorem explained_of_matchSlot {slot : Slot} {run : Run} (hu : I.ExplainsOn run.types)
    (hactual : ∀ a ∈ run.types, I.actual a) (hslot : I.formal b slot.toType) (hb : I.kept b) :
    I.Explained (matchSlot unify place slot run b) := by
  cases slot with
  | single f => exact explained_of_unifyEach hu hactual (List.forall_mem_singleton.2 hslot) hb
  | spread ts =>
    rw [matchSlot, Explained, meets_under]
    exact explained_of_assignTuple
  | mapped ctor ts =>
    rw [matchSlot]
    split
    · rename_i contents hts
      have hformal : ∀ f ∈ TypeExpr.mapOver ctor contents, I.formal b f := by
        intro f hf
        obtain ⟨x, hx, rfl⟩ := List.mem_map.1 hf
        exact I.formal_expansion hb hslot hts x hx
      rw [Explained, meets_bind, meets_log]
      exact explained_of_unifyEach hu hactual hformal hb
    · rw [Explained, meets_bind, meets_log, meets_bind]
      exact (explained_of_stripEach hu hactual (I.formal_ctor hslot) hb).imp fun b' _ =>
        explained_of_assignTuple

end slots

end MatchInvariant

/-! ### Accounts -/

/-- What is left of `n` arguments, and what the row still takes, go together: whatever lengths the
open tuple variables have, the taken slots have had their arguments. -/
def Window.Accounts (slots : List Slot) (n : Nat) (w : Window) : Prop :=
  ∀ L, Measures L w.binding → w.run.length + rowLength L slots = n + rowLength L w.slots

section accounts

variable {place : Nat → Segment} {slots : List Slot} {n : Nat} {w : Window}

theorem accounts_whole (slots : List Slot) (arguments : List TypeExpr) (b : Binding) :
    (Window.whole slots arguments b).Accounts slots arguments.length := fun _ _ => rfl

/-- A slot takes as many arguments as it is long, be that known before or found out with it. -/
theorem accounts_of_takeSlot (hw : w.Accounts slots n) :
    (takeSlot unify place w).Meets (Window.Accounts slots n) fun _ => True := by
  refine meets_takeSlot (fun _ => hw) (fun _ _ _ _ => trivial) ?front ?back ?stuck
  case front =>
    intro slot rest hm hwidth
    obtain ⟨hslots, hknown⟩ := nextMove_eq_front hm
    refine meets_iff.2 ⟨fun b' hb' L hL => ?_, fun _ _ => trivial⟩
    have hL' := hL.of_le (le_of_matchSlot (value?_eq_some hb'))
    have hsum := hw L hL'
    have hlength := Slot.lengthIn_of_known hL' (by simpa using hknown)
    rw [hslots, rowLength_cons] at hsum
    show (w.run.after _).length + rowLength L slots = n + rowLength L rest
    rw [Run.length_after]
    omega
  case back =>
    intro rest slot hm hwidth
    obtain ⟨hslots, hknown⟩ := nextMove_eq_back hm
    refine meets_iff.2 ⟨fun b' hb' L hL => ?_, fun _ _ => trivial⟩
    have hL' := hL.of_le (le_of_matchSlot (value?_eq_some hb'))
    have hsum := hw L hL'
    have hlength := Slot.lengthIn_of_known hL' (by simpa using hknown)
    rw [hslots, rowLength_append, rowLength_cons, rowLength_nil] at hsum
    show (w.run.first _).length + rowLength L slots = n + rowLength L rest
    rw [Run.length_first (by omega)]
    omega
  case stuck =>
    intro slot rest hm
    obtain ⟨hslots, hopen, -⟩ := nextMove_eq_stuck hm
    refine meets_evenShare (fun _ => trivial) (fun _ _ => trivial) (fun _ _ => trivial)
      fun _ hlong _ => ?_
    refine meets_iff.2 ⟨fun b' hb' L hL => ?_, fun _ _ => trivial⟩
    have hsum := hw L (hL.of_le (le_of_matchSlot (value?_eq_some hb')))
    -- An open slot has no width yet; its length is that of the run which the match binds it to.
    have hlength := length_of_matchSlot_open hL (by simpa using hopen) (value?_eq_some hb')
    have hshare := Nat.div_le_self (w.run.length - requiredLength w.binding w.slots)
      (openCount w.binding w.slots)
    rw [Run.length_first (by omega)] at hlength
    rw [hslots, rowLength_cons, ← hlength] at hsum
    show (w.run.after _).length + rowLength L slots = n + rowLength L rest
    rw [Run.length_after]
    omega

/-- Arguments that are left over are too many, also when the row is counted once more. -/
theorem refuses_leftover (hw : w.Accounts slots n) (hslots : w.slots = [])
    (hleft : w.run.types ≠ []) : (Arity.exactly (requiredLength w.binding slots)).Refuses n := by
  -- The count takes open slots for empty, so that it is at most what the row takes.
  have hsum := hw _ (measures_lengthOf w.binding)
  have hrequired := requiredLength_le_rowLength (measures_lengthOf w.binding) slots
  have hpos : 0 < w.run.length := List.length_pos_iff.2 hleft
  rw [hslots, rowLength_nil] at hsum
  show n ≠ requiredLength w.binding slots
  omega

end accounts

/-! ### Rows of slots -/

namespace MatchInvariant

section rows

variable {I : MatchInvariant} {place : Nat → Segment} {b : Binding} {slots : List Slot}
  {arguments : List TypeExpr}

theorem explained_of_takeSlot (hu : I.ExplainsOn arguments)
    (hactual : ∀ a ∈ arguments, I.actual a) (hslots : ∀ s ∈ slots, I.formal b s.toType)
    {w : Window} (hw : I.KeepsSoFar slots arguments b w) :
    I.Explained (takeSlot unify place w) := by
  have hformal : ∀ s ∈ w.slots, I.formal w.binding s.toType := fun s hs =>
    I.formal_later hw.keeps.1 (hslots s (hw.slots_subset s hs))
  have take {slot : Slot} {run : Run} (hslot : slot ∈ w.slots)
      (hrun : ∀ t ∈ run.types, t ∈ w.run.types) :
      I.Explained (matchSlot unify place slot run w.binding) := by
    have hsub : ∀ t ∈ run.types, t ∈ arguments := fun t ht => hw.arguments_subset t (hrun t ht)
    exact explained_of_matchSlot (hu.mono hsub) (fun t ht => hactual t (hsub t ht))
      (hformal slot hslot) hw.keeps.2
  refine meets_takeSlot (fun _ => trivial) ?short ?front ?back ?stuck
  case short =>
    intro slot hslot _ hshort
    exact .arity (refuses_of_lt (Nat.lt_of_lt_of_le hshort (width_le_requiredLength hslot)))
  case front =>
    intro slot rest hm _
    exact take (by simp [(nextMove_eq_front hm).1]) fun t => List.mem_of_mem_take
  case back =>
    intro rest slot hm _
    exact take (by simp [(nextMove_eq_back hm).1]) fun t => List.mem_of_mem_drop
  case stuck =>
    intro slot rest hm
    obtain ⟨hrow, hopen, -⟩ := nextMove_eq_stuck hm
    have hmem : slot ∈ w.slots := by simp [hrow]
    have hcount : 0 < openCount w.binding w.slots :=
      List.countP_pos_iff.2 ⟨slot, hmem, by simpa using hopen⟩
    refine meets_evenShare (fun hseveral => ?_) (fun _ hshort => ?_) (fun _ huneven => ?_)
      fun _ _ _ => take hmem fun t => List.mem_of_mem_take
    · exact .ambiguousSplit hw.keeps.2 hformal hseveral
    · exact .arity (refuses_of_lt hshort)
    · exact .arity (refuses_multipleOf hcount huneven)

theorem explained_of_matchList (hu : I.ExplainsOn arguments)
    (hactual : ∀ a ∈ arguments, I.actual a) (hslots : ∀ s ∈ slots, I.formal b s.toType)
    (hb : I.kept b) : I.Explained (matchList unify place slots arguments b) := by
  refine meets_matchList
    (I := fun w => I.KeepsSoFar slots arguments b w ∧ w.Accounts slots arguments.length)
    (fun hunfit => .arity (refuses_of_not_admits hunfit))
    (fun _ => ⟨⟨.refl hb, fun _ hs => hs, fun _ ht => ht⟩, accounts_whole slots arguments b⟩) ?step
    (fun _ _ _ _ => trivial) fun w hw hnil hleft => .arity (refuses_leftover hw.2 hnil hleft)
  case step =>
    intro w hw
    have hkeeps : (takeSlot unify place w).Meets (I.KeepsSoFar slots arguments b)
        Failure.IsClash := I.keeps_of_takeSlot I.keepsOn_unify hactual hslots hw.1
    have hexplained : I.Explained (takeSlot unify place w) :=
      explained_of_takeSlot hu hactual hslots hw.1
    exact ((hkeeps.and (accounts_of_takeSlot hw.2)).and hexplained).mono (fun _ h => h.1)
      fun _ he => he.2

end rows

/-! ### Two types -/

/-- A match of two types fails for one of the causes that its invariant explains. -/
theorem explained_of_unify {I : MatchInvariant} {f a : TypeExpr} {b : Binding} (ha : I.actual a)
    (hf : I.formal b f) (hb : I.kept b) : I.Explained (unify f a b) := by
  induction hn : a.weight using Nat.strongRecOn generalizing f a b with
  | ind n ih =>
    subst hn
    have row (place : Nat → Segment) {types arguments : List TypeExpr} {b : Binding}
        (hlighter : ∀ x ∈ arguments, x.weight < a.weight) (ha : ∀ x ∈ arguments, I.actual x)
        (hf : ∀ t ∈ types, I.formal b t) (hb : I.kept b) :
        I.Explained (matchList unify place (types.map Slot.ofType) arguments b) := by
      have hu : I.ExplainsOn arguments := fun x hx f c b hle hc hf hb =>
        ih c.weight (Nat.lt_of_le_of_lt hle (hlighter x hx)) hc hf hb rfl
      exact explained_of_matchList hu ha (formal_ofType hf) hb
    refine meets_unify ?var ?packed ?unpack ?apply ?arrow ?union (fun _ _ _ => trivial)
      (fun _ _ => trivial) .mismatch
    case var =>
      intro v _
      exact meets_assignScalar (fun _ => trivial) (fun _ => trivial) fun _ _ _ => .conflict
    case packed =>
      intro ts elements heq helements
      subst heq
      have hspread : ∀ t ∈ [TypeExpr.spread ts], I.formal b t := fun t ht => I.formal_parts hf ht
      exact row .element (fun x => TypeExpr.weight_lt_of_mem_tupleElements helements)
        (fun x hx => I.actual_parts ha (TypeExpr.mem_parts_of_tupleElements helements hx))
        hspread hb
    case unpack =>
      intro args us heq hus
      subst heq hus
      exact row .element (by simp [TypeExpr.weight]) (fun x hx => I.actual_parts ha hx)
        (fun t ht => I.formal_parts hf (List.mem_cons_of_mem _ ht)) hb
    case apply =>
      intro head args head' args' heq hfa
      subst heq hfa
      have hhead := I.actual_parts ha List.mem_cons_self
      have hfhead := I.formal_parts hf List.mem_cons_self
      have hexplained := ih _ TypeExpr.weight_head_lt hhead hfhead hb rfl
      refine (hexplained.keeping (I.keeps_of_unify hhead hfhead hb)).imp fun b' h => ?_
      exact row .arg (fun x => TypeExpr.weight_lt_apply)
        (fun x hx => I.actual_parts ha (List.mem_cons_of_mem _ hx))
        (fun t ht => I.formal_later h.1 (I.formal_parts hf (List.mem_cons_of_mem _ ht))) h.2
    case arrow =>
      intro params result params' result' heq hfa
      subst heq hfa
      have hparams : ∀ x ∈ params', I.actual x := fun x hx =>
        I.actual_parts ha (List.mem_cons_of_mem _ hx)
      have hfparams : ∀ t ∈ params, I.formal b t := fun t ht =>
        I.formal_parts hf (List.mem_cons_of_mem _ ht)
      have hexplained := row .callableParam (fun x => TypeExpr.weight_lt_arrow) hparams hfparams hb
      have hslots := formal_ofType hfparams
      refine (hexplained.keeping (I.keeps_of_matchList I.keepsOn_unify hparams hslots hb)).imp
        fun b' h => ?_
      exact ih _ TypeExpr.weight_result_lt (I.actual_parts ha List.mem_cons_self)
        (I.formal_later h.1 (I.formal_parts hf List.mem_cons_self)) h.2 rfl
    case union =>
      intro members members' heq hfa
      subst heq hfa
      exact row .member (fun x => TypeExpr.weight_lt_union) (fun x hx => I.actual_parts ha hx)
        (fun t ht => I.formal_parts hf ht) hb

theorem explainsOn_unify {I : MatchInvariant} {types : List TypeExpr} : I.ExplainsOn types :=
  fun _ _ _ _ _ _ ha hf hb => explained_of_unify ha hf hb

end MatchInvariant

/-! ### Anchors and calls -/

/-- Where an attempt fails on a number of arguments, its report is right. -/
def Attempt.CountsRightly {α : Type} (x : Attempt α) : Prop :=
  x.Meets (fun _ => True) fun e => e.cause.CountsRightly

section calls

variable {α β : Type} {x : Attempt α}

theorem Attempt.CountsRightly.bind {f : α → Attempt β} (hx : x.CountsRightly)
    (hf : ∀ a, (f a).CountsRightly) : (x >>= f).CountsRightly := by
  rw [Attempt.CountsRightly, meets_bind]
  exact hx.imp fun a _ => hf a

theorem Attempt.CountsRightly.under (hx : x.CountsRightly) (segment : Segment) :
    (x.under segment).CountsRightly := by
  rw [Attempt.CountsRightly, meets_under]
  exact hx

theorem countsRightly_unify (f a : TypeExpr) (b : Binding) : (unify f a b).CountsRightly :=
  (growth.explained_of_unify trivial trivial trivial).mono (fun _ h => h) fun _ h =>
    h.countsRightly

theorem countsRightly_matchList (place : Nat → Segment) (slots : List Slot)
    (arguments : List TypeExpr) (b : Binding) :
    (matchList unify place slots arguments b).CountsRightly :=
  (growth.explained_of_matchList growth.explainsOn_unify (fun _ _ => trivial) (fun _ _ => trivial)
    trivial).mono (fun _ h => h) fun _ h => h.countsRightly

/-- The report of a number of arguments is left as it is inside an anchor, or replaced by that of an
ambiguous split. -/
theorem countsRightly_anchorCause {bound : List TupleVar} {cause : Cause}
    (h : cause.CountsRightly) : (anchorCause bound cause).CountsRightly := by
  unfold anchorCause
  split
  · split <;> nofun
  · split
    · exact h
    · nofun
  · exact h

theorem countsRightly_solveAnchor (f a : TypeExpr) (b : Binding) :
    (solveAnchor f a b).CountsRightly := by
  rw [solveAnchor, Attempt.CountsRightly, meets_bind, meets_log, meets_recast]
  exact (countsRightly_unify f a b).mono (fun _ h => h) fun _ => countsRightly_anchorCause

theorem countsRightly_solveAnchors (i : Nat) (anchors : List Anchor) (b : Binding) :
    (solveAnchors i anchors b).CountsRightly := by
  induction anchors generalizing i b with
  | nil => exact trivial
  | cons anchor rest ih =>
    rw [solveAnchors]
    exact .bind (.under (countsRightly_solveAnchor _ _ b) _) fun b' => ih (i + 1) b'

theorem countsRightly_solveKeywords (function : String) (call : Call)
    (keywords : List (String × TypeExpr)) (b : Binding) :
    (solveKeywords function call keywords b).CountsRightly := by
  induction keywords generalizing b with
  | nil => exact trivial
  | cons keyword rest ih =>
    rw [solveKeywords]
    refine .bind (.under ?_ _) fun b' => ih b'
    cases call.keyword? keyword.1 with
    | none =>
      intro expected found h
      cases h
    | some actual => exact countsRightly_solveAnchor keyword.2 actual b

theorem countsRightly_collectKeywords (function : String) (kwargs : Option TypeExpr)
    (keywords : List (String × TypeExpr)) (b : Binding) :
    (collectKeywords function kwargs keywords b).CountsRightly := by
  induction keywords generalizing b with
  | nil => exact trivial
  | cons keyword rest ih =>
    cases kwargs with
    | none =>
      intro expected found h
      cases h
    | some formal =>
      rw [collectKeywords]
      exact .bind (.under (countsRightly_unify formal keyword.2 b) _) fun b' => ih b'

theorem countsRightly_matchAnchored (list : ParameterList) (arguments : List TypeExpr)
    (anchors : List Anchor) : (matchAnchored list arguments anchors).CountsRightly :=
  .bind (countsRightly_solveAnchors 0 anchors .empty) fun b =>
    countsRightly_matchList .param list.slots arguments b

theorem countsRightly_matchCall (s : Signature) (call : Call) :
    (matchCall s call).CountsRightly :=
  .bind (countsRightly_solveKeywords s.name call s.keywords .empty) fun b =>
    .bind (countsRightly_collectKeywords s.name s.kwargs (call.extraKeywords s) b) fun b' =>
      countsRightly_matchList .param s.positional.slots call.positional b'

/-- Whatever is matched, a type, a list, a list after its anchors or a call: where the match fails
on a number of arguments, the arity that is reported with it does not take that number. -/
theorem arity_refuses (formal actual : TypeExpr) (list : ParameterList)
    (arguments : List TypeExpr) (anchors : List Anchor) (s : Signature) (call : Call)
    (expected : Arity) (found : Nat) (path : Path) :
    ((matchType formal actual).result = .error ⟨.arity expected found, path⟩ →
      expected.Refuses found) ∧
    ((matchParameters list arguments).result = .error ⟨.arity expected found, path⟩ →
      expected.Refuses found) ∧
    ((matchAnchored list arguments anchors).result = .error ⟨.arity expected found, path⟩ →
      expected.Refuses found) ∧
    ((matchCall s call).result = .error ⟨.arity expected found, path⟩ →
      expected.Refuses found) := by
  have report {x : Attempt Binding} (hx : x.CountsRightly)
      (he : x.result = .error ⟨.arity expected found, path⟩) : expected.Refuses found :=
    hx.of_error he expected found rfl
  exact ⟨report (countsRightly_unify formal actual .empty),
    report (countsRightly_matchAnchored list arguments []),
    report (countsRightly_matchAnchored list arguments anchors),
    report (countsRightly_matchCall s call)⟩

/-- Four reports.  The type `F[T0, *Ts0]` takes one argument at least.  The two slots of
`(*Ts0, *Ts0)` do not share three arguments out evenly.  The list `(tuple[*Ts0], *Ts0, T0)` is open
until its first argument `tuple[A]` closes it, and of `(tuple[A], A, B, C)` one is left over.  The
keyword `n` makes the list of the call, `(*Ts0, T0)`, two long. -/
theorem arity_refuses_reported :
    ((matchType (.apply (.named "F") [.var ⟨0⟩, .spread ⟨0⟩]) (.apply (.named "F") [])).result =
        .error ⟨.arity (.atLeast 1) 0, []⟩ ∧ (Arity.atLeast 1).Refuses 0) ∧
    ((matchParameters ⟨[.spread ⟨0⟩, .spread ⟨0⟩]⟩
          [.named "A", .named "B", .named "C"]).result =
        .error ⟨.arity (.multipleOf 2) 3, []⟩ ∧ (Arity.multipleOf 2).Refuses 3) ∧
    ((matchAnchored ⟨[.single (.packed ⟨0⟩), .spread ⟨0⟩, .single (.var ⟨0⟩)]⟩
          [.tuple [.named "A"], .named "A", .named "B", .named "C"]
          [⟨.var ⟨1⟩, .named "D"⟩]).result =
        .error ⟨.arity (.exactly 3) 4, []⟩ ∧ (Arity.exactly 3).Refuses 4) ∧
    ((matchCall ⟨"f", ⟨[.spread ⟨0⟩, .single (.var ⟨0⟩)]⟩, [("n", .packed ⟨0⟩)], none, .named "int"⟩
          ⟨[.named "A"], [("n", .tuple [.named "A"])]⟩).result =
        .error ⟨.arity (.exactly 2) 1, []⟩ ∧ (Arity.exactly 2).Refuses 1) := by
  have htype := arity_refuses (.apply (.named "F") [.var ⟨0⟩, .spread ⟨0⟩])
    (.apply (.named "F") []) ⟨[]⟩ [] [] ⟨"f", ⟨[]⟩, [], none, .named "int"⟩ ⟨[], []⟩
  have hlist := arity_refuses (.var ⟨0⟩) (.var ⟨0⟩) ⟨[.spread ⟨0⟩, .spread ⟨0⟩]⟩
    [.named "A", .named "B", .named "C"] [] ⟨"f", ⟨[]⟩, [], none, .named "int"⟩ ⟨[], []⟩
  have hanchored := arity_refuses (.var ⟨0⟩) (.var ⟨0⟩)
    ⟨[.single (.packed ⟨0⟩), .spread ⟨0⟩, .single (.var ⟨0⟩)]⟩
    [.tuple [.named "A"], .named "A", .named "B", .named "C"] [⟨.var ⟨1⟩, .named "D"⟩]
    ⟨"f", ⟨[.spread ⟨0⟩, .single (.var ⟨0⟩)]⟩, [("n", .packed ⟨0⟩)], none, .named "int"⟩
    ⟨[.named "A"], [("n", .tuple [.named "A"])]⟩
  exact ⟨⟨rfl, (htype _ _ []).1 rfl⟩, ⟨rfl, (hlist _ _ []).2.1 rfl⟩,
    ⟨rfl, (hanchored _ _ []).2.2.1 rfl⟩, ⟨rfl, (hanchored _ _ []).2.2.2 rfl⟩⟩

end calls

end Polyadic
