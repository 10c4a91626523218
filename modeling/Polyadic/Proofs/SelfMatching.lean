import Mathlib.Data.List.Perm.Subperm
import Polyadic.Declarations
import Polyadic.Proofs.Lengths
import Polyadic.Proofs.NormalForms
import Polyadic.Proofs.Recursion

/-! # A list matched against itself

The check of the aliases of a table expands every alias for its own parameters: its formal list is
matched against the types of its own slots.  Everything in the list matches itself and binds its
variables to themselves, except for a mapped slot, which takes applications only and so not its own
type `*Map[F, Ts]`.  With one tuple variable in the list, the match goes through exactly if it
reaches no mapped slot (`meets_matchList_self`), and an alias whose body is plain is reported
exactly if the match does not go through (`checkAliases_reports`). -/

namespace Polyadic

open Attempt

/-! ### Mapped slots that a match reaches -/

namespace TypeExpr

mutual

/-- Whether a list of the type that a match takes apart holds a spliced map. -/
def reachesMap : TypeExpr → Bool
  | .apply head args => head.reachesMap || reachesMapAll args
  | .union members => reachesMapAll members
  | .arrow params result => reachesMapAll params || result.reachesMap
  | _ => false

/-- Whether a list holds a spliced map, or one of its types reaches one. -/
def reachesMapAll : List TypeExpr → Bool
  | [] => false
  | .spreadMap _ _ :: _ => true
  | t :: ts => t.reachesMap || reachesMapAll ts

end

end TypeExpr

/-- Whether a slot is mapped, or its type reaches a spliced map. -/
def Slot.reachesMap : Slot → Bool
  | .single t => t.reachesMap
  | .spread _ => false
  | .mapped _ _ => true

/-- Whether a slot of a parameter list is mapped, or its type reaches a spliced map. -/
def ParameterList.reachesMap (list : ParameterList) : Bool := list.slots.any Slot.reachesMap

namespace TypeExpr

theorem reachesMapAll_eq_any (ts : List TypeExpr) :
    reachesMapAll ts = (ts.map Slot.ofType).any Slot.reachesMap := by
  induction ts with
  | nil => rfl
  | cons t ts ih => cases t <;> simp [reachesMapAll, ih, Slot.ofType, Slot.reachesMap, reachesMap]

end TypeExpr

/-! ### Bindings of variables to themselves -/

/-- Every variable that is bound stands for itself. -/
structure Binding.IsReflexive (b : Binding) : Prop where
  scalar : ∀ v t, b.scalar? v = some t → t = .var v
  tuple : ∀ ts contents, b.tuple? ts = some contents → contents = [.spread ts]

/-- The failure of a mapped slot against its own type. -/
def Failure.IsMapClash (e : Failure) : Prop :=
  ∃ ctor ts, e.cause = .mismatch (.apply ctor [.spread ts]) (.spreadMap ctor ts)

section reflexive

variable {b : Binding}

theorem Binding.isReflexive_empty : Binding.empty.IsReflexive := ⟨by simp, by simp⟩

theorem Binding.IsReflexive.measures (h : b.IsReflexive) : Measures (fun _ => 1) b := by
  intro ts contents hb
  rw [h.tuple ts contents hb]
  rfl

theorem isReflexive_of_assignScalar (hb : b.IsReflexive) (v : TypeVar) :
    (assignScalar v (.var v) b).Meets Binding.IsReflexive fun _ => False := by
  refine meets_assignScalar (fun _ => ⟨fun w t hw => ?_, hb.tuple⟩) (fun _ => hb)
    fun previous h hne => hne (hb.scalar v previous h)
  rw [Binding.scalar?_bindScalar] at hw
  split at hw
  · rename_i heq
    cases hw
    rw [heq]
  · exact hb.scalar w t hw

theorem isReflexive_of_assignTuple (hb : b.IsReflexive) (ts : TupleVar) :
    (assignTuple ts [.spread ts] b).Meets Binding.IsReflexive fun _ => False := by
  refine meets_assignTuple (fun _ => ⟨hb.scalar, fun us contents hus => ?_⟩) (fun _ => hb)
    fun previous h hne => hne (hb.tuple ts previous h)
  rw [Binding.tuple?_bindTuple] at hus
  split at hus
  · rename_i heq
    cases hus
    rw [heq]
  · exact hb.tuple us contents hus

end reflexive

/-! ### Rows of slots -/

/-- How a match of something with itself ends, from a binding of variables to themselves: with such
a binding, or at a mapped slot. -/
def MatchesSelf (reaches : Bool) (x : Attempt Binding) : Prop :=
  x.Meets (fun b => b.IsReflexive ∧ reaches = false) fun e => reaches = true ∧ e.IsMapClash

section rows

variable {u : Unifier} {place : Nat → Segment} {slots : List Slot} {b : Binding}

/-- A mapped slot expands `[*Ts]` to `F[*Ts]`, and that is not what the list is given. -/
theorem matchesSelf_mapped (hb : b.IsReflexive) (ctor : TypeExpr) (ts : TupleVar) (i : Nat) :
    MatchesSelf true (matchSlot unify place (.mapped ctor ts) ⟨i, [.spreadMap ctor ts]⟩ b) := by
  have hclash : Failure.IsMapClash
      (.under (place i) ⟨.mismatch (.apply ctor [.spread ts]) (.spreadMap ctor ts), []⟩) :=
    ⟨ctor, ts, rfl⟩
  rw [matchSlot]
  split
  · rename_i contents hts
    rw [hb.tuple ts contents hts, MatchesSelf, meets_bind, meets_log, TypeExpr.mapOver,
      List.map_singleton, unifyEach, meets_bind, meets_under, unify_eq]
    exact meets_mismatch.2 ⟨rfl, hclash⟩
  · rw [MatchesSelf, meets_bind, meets_log, stripEach, meets_bind, meets_bind, meets_under]
    exact meets_mismatch.2 ⟨rfl, hclash⟩

theorem matchesSelf_slot {slot : Slot} (hb : b.IsReflexive)
    (hu : ∀ t, slot = .single t → MatchesSelf t.reachesMap (unify t t b)) (i : Nat) :
    MatchesSelf slot.reachesMap (matchSlot unify place slot ⟨i, [slot.toType]⟩ b) := by
  cases slot with
  | single t =>
    rw [matchSlot, Slot.toType, MatchesSelf, unifyEach, meets_bind, meets_under]
    refine (hu t rfl).mono (fun b' hb' => ?_) fun e he => he
    rw [unifyEach]
    · exact hb'
    · simp
  | spread ts =>
    rw [matchSlot, MatchesSelf, meets_under]
    exact (isReflexive_of_assignTuple hb ts).mono (fun _ hb' => ⟨hb', rfl⟩) fun _ => False.elim
  | mapped ctor ts => exact matchesSelf_mapped hb ctor ts i

/-- What is left of a row and of its own types, when none of the slots taken so far reaches a mapped
slot. -/
structure SelfWindow (slots : List Slot) (w : Window) : Prop where
  types : w.run.types = w.slots.map Slot.toType
  reflexive : w.binding.IsReflexive
  slots_subset : ∀ slot ∈ w.slots, slot ∈ slots
  taken : ∀ slot ∈ slots, slot.reachesMap = true → slot ∈ w.slots

theorem Slot.lengthIn_one (slot : Slot) : slot.lengthIn (fun _ => 1) = 1 := by cases slot <;> rfl

theorem rowLength_one (slots : List Slot) : rowLength (fun _ => 1) slots = slots.length := by
  induction slots with
  | nil => rfl
  | cons slot rest ih => rw [rowLength_cons, ih, List.length_cons, Slot.lengthIn_one, Nat.add_comm]

theorem Binding.IsReflexive.width (hb : b.IsReflexive) {slot : Slot}
    (h : slot.isOpen b = false) : slot.width b = 1 := by
  rw [← Slot.lengthIn_of_known hb.measures h, Slot.lengthIn_one]

/-- As many arguments as there are slots are one for each slot. -/
theorem meets_evenShare_self (hb : b.IsReflexive) (hle : (openTuples b slots).length ≤ 1)
    {run : Run} (hlength : run.length = slots.length) {slot : Slot} (hslot : slot ∈ slots)
    (hopen : slot.isOpen b = true) : (evenShare slots run b).Meets (· = 1) fun _ => False := by
  have hshare : run.length - requiredLength b slots = openCount b slots := by
    have := share_eq_lengthIn hb.measures hle hslot hopen
    rwa [Slot.lengthIn_one, Nat.mul_one, rowLength_one, ← hlength] at this
  have hcount : 0 < openCount b slots := List.countP_pos_iff.2 ⟨slot, hslot, hopen⟩
  refine meets_evenShare (fun h => ?_) (fun _ h => ?_) (fun _ h => ?_) fun _ _ _ => ?_
  · omega
  · omega
  · rw [hshare, Nat.mod_self] at h
    exact h rfl
  · rw [hshare, Nat.div_self hcount]

/-- Each move takes a slot with its own type, and so keeps the types that are left. -/
theorem selfWindow_of_takeSlot {ts : TupleVar}
    (hone : ∀ slot ∈ slots, ∀ us, slot.tuple? = some us → us = ts)
    (hu : ∀ t, .single t ∈ slots → ∀ b, b.IsReflexive → MatchesSelf t.reachesMap (unify t t b))
    {w : Window} (hw : SelfWindow slots w) :
    (takeSlot unify place w).Meets (SelfWindow slots) fun e =>
      slots.any Slot.reachesMap = true ∧ e.IsMapClash := by
  have hlength : w.run.length = w.slots.length := by rw [Run.length, hw.types, List.length_map]
  have take {slot : Slot} {rest : List Slot} {run rest' : Run} (side : Side)
      (hmem : ∀ s, s ∈ w.slots ↔ s = slot ∨ s ∈ rest) (hrun : run.types = [slot.toType])
      (hrest : rest'.types = rest.map Slot.toType) :
      (matchSlot unify place slot run w.binding).Meets
        (fun b' => SelfWindow slots ⟨side, rest, rest', b'⟩)
        fun e => slots.any Slot.reachesMap = true ∧ e.IsMapClash := by
    have hslot := hw.slots_subset slot ((hmem slot).2 (.inl rfl))
    obtain ⟨i, types⟩ := run
    subst hrun
    refine (matchesSelf_slot hw.reflexive (fun t ht => hu t (ht ▸ hslot) _ hw.reflexive) i).mono
      ?_ ?_
    · rintro b' ⟨hb', hnot⟩
      refine ⟨hrest, hb', fun s hs => hw.slots_subset s ((hmem s).2 (.inr hs)), ?_⟩
      intro s hs hreaches
      rcases (hmem s).1 (hw.taken s hs hreaches) with rfl | hs
      · rw [hnot] at hreaches
        cases hreaches
      · exact hs
    · rintro e ⟨hreaches, he⟩
      exact ⟨List.any_eq_true.2 ⟨slot, hslot, hreaches⟩, he⟩
  refine meets_takeSlot (fun _ => hw) ?short ?front ?back ?stuck
  case short =>
    intro slot hslot hknown hshort
    have := List.length_pos_of_mem hslot
    rw [hw.reflexive.width hknown] at hshort
    omega
  case front =>
    intro slot rest hm _
    obtain ⟨hslots, hknown⟩ := nextMove_eq_front hm
    rw [hw.reflexive.width (by simpa using hknown)]
    refine take .front (by simp [hslots]) ?_ ?_ <;> simp [Run.first, Run.after, hw.types, hslots]
  case back =>
    intro rest slot hm _
    obtain ⟨hslots, hknown⟩ := nextMove_eq_back hm
    rw [hw.reflexive.width (by simpa using hknown), hlength]
    refine take .back (by simp [hslots, or_comm]) ?_ ?_ <;>
      simp [Run.first, Run.after, hw.types, hslots]
  case stuck =>
    intro slot rest hm
    obtain ⟨hslots, hopen, -⟩ := nextMove_eq_stuck hm
    have hle : (openTuples w.binding w.slots).length ≤ 1 :=
      length_openTuples_le_one fun s hs us hus => hone s (hw.slots_subset s hs) us hus
    have hslot : slot ∈ w.slots := by simp [hslots]
    refine (meets_evenShare_self hw.reflexive hle hlength hslot (by simpa using hopen)).mono ?_
      fun _ => False.elim
    rintro _ rfl
    refine take .front (by simp [hslots]) ?_ ?_ <;> simp [Run.first, Run.after, hw.types, hslots]

/-- A row with one tuple variable is matched with its own types, unless a slot of it reaches a
spliced map. -/
theorem meets_matchList_self (ts : TupleVar)
    (hone : ∀ slot ∈ slots, ∀ us, slot.tuple? = some us → us = ts)
    (hu : ∀ t, .single t ∈ slots → ∀ b, b.IsReflexive → MatchesSelf t.reachesMap (unify t t b))
    (hb : b.IsReflexive) :
    MatchesSelf (slots.any Slot.reachesMap)
      (matchList unify place slots (slots.map Slot.toType) b) := by
  have hadmits : (listArity b slots).Admits (slots.map Slot.toType).length := by
    rw [List.length_map, ← rowLength_one]
    exact admits_rowLength hb.measures slots
  refine meets_matchList (I := SelfWindow slots) (absurd hadmits)
    (fun _ => ⟨rfl, hb, fun _ h => h, fun _ h _ => h⟩)
    (fun w hw => selfWindow_of_takeSlot hone hu hw) (fun w hw hnil _ => ⟨hw.reflexive, ?_⟩)
    fun w hw hnil hne => absurd (by rw [hw.types, hnil]; rfl) hne
  refine List.any_eq_false.2 fun slot hslot hreaches => ?_
  have := hw.taken slot hslot hreaches
  rw [hnil] at this
  cases this

end rows

/-! ### Types and parameter lists -/

section lists

variable {b : Binding} {ts : TupleVar}

theorem meets_types_self {place : Nat → Segment} {types : List TypeExpr}
    (hone : ∀ t ∈ types, ∀ us ∈ t.tupleMentions, us = ts)
    (ih : ∀ t ∈ types, ∀ b, b.IsReflexive → MatchesSelf t.reachesMap (unify t t b))
    (hb : b.IsReflexive) : MatchesSelf (TypeExpr.reachesMapAll types)
      (matchList unify place (types.map Slot.ofType) types b) := by
  have hrow : MatchesSelf ((types.map Slot.ofType).any Slot.reachesMap)
      (matchList unify place (types.map Slot.ofType)
        ((types.map Slot.ofType).map Slot.toType) b) := by
    refine meets_matchList_self ts (fun slot hslot us hus => ?_) (fun t ht => ?_) hb
    · obtain ⟨t, ht, rfl⟩ := List.mem_map.1 hslot
      exact hone t ht us (Slot.toType_ofType t ▸ Slot.mem_tupleMentions hus)
    · obtain ⟨u, hu, hut⟩ := List.mem_map.1 ht
      obtain rfl : u = t := by rw [← Slot.toType_ofType u, hut, Slot.toType]
      exact ih u hu
  have htypes : (types.map Slot.ofType).map Slot.toType = types := by simp [Function.comp_def]
  rwa [htypes, ← TypeExpr.reachesMapAll_eq_any] at hrow

/-- A type with one tuple variable matches itself, unless it reaches a spliced map. -/
theorem meets_unify_self {t : TypeExpr} (hone : ∀ us ∈ t.tupleMentions, us = ts)
    (hb : b.IsReflexive) : MatchesSelf t.reachesMap (unify t t b) := by
  induction t using TypeExpr.induct generalizing b with
  | named name => exact meets_unify_named.2 ⟨hb, rfl⟩
  | var v =>
    refine meets_unify_var.2 ((isReflexive_of_assignScalar hb v).mono ?_ fun _ => False.elim)
    exact fun _ hb' => ⟨hb', rfl⟩
  | packed us =>
    have hrow : MatchesSelf ([Slot.spread us].any Slot.reachesMap)
        (matchList unify .element [.spread us] ([Slot.spread us].map Slot.toType) b) :=
      meets_matchList_self us (by simp [Slot.tuple?]) (by simp) hb
    exact (meets_unify_packed rfl).2 hrow
  | spread | spreadMap =>
    rw [MatchesSelf, unify_eq]
    simp [unifyStep, hb, TypeExpr.reachesMap]
  | apply head args hhead hargs =>
    rw [TypeExpr.tupleMentions_apply, List.forall_mem_append, List.forall_mem_flatMap] at hone
    refine meets_unify_apply.2 ((hhead hone.1 hb).mono ?_ ?_)
    · rintro b' ⟨hb', hnot⟩
      simp only [TypeExpr.reachesMap, hnot, Bool.false_or]
      exact meets_types_self hone.2 (fun t ht b hb => hargs t ht (hone.2 t ht) hb) hb'
    · rintro e ⟨hreaches, he⟩
      exact ⟨by simp [TypeExpr.reachesMap, hreaches], he⟩
  | union members hmembers =>
    rw [TypeExpr.tupleMentions_union, List.forall_mem_flatMap] at hone
    exact meets_unify_union.2
      (meets_types_self hone (fun t ht b hb => hmembers t ht (hone t ht) hb) hb)
  | arrow params result hparams hresult =>
    rw [TypeExpr.tupleMentions_arrow, List.forall_mem_append, List.forall_mem_flatMap] at hone
    refine meets_unify_arrow.2 ((meets_types_self hone.1
      (fun t ht b hb => hparams t ht (hone.1 t ht) hb) hb).mono ?_ ?_)
    · rintro b' ⟨hb', hnot⟩
      simp only [TypeExpr.reachesMap, hnot, Bool.false_or]
      exact (hresult hone.2 hb').mono (fun _ h => h) fun e he => he
    · rintro e ⟨hreaches, he⟩
      exact ⟨by simp [TypeExpr.reachesMap, hreaches], he⟩

/-- A parameter list with one tuple variable is matched with its own types, unless a slot of it
reaches a spliced map. -/
theorem meets_matchParameters_self {list : ParameterList} (hone : list.tupleVars.length ≤ 1) :
    MatchesSelf list.reachesMap (matchParameters list list.toTypes) := by
  obtain ⟨ts, hmentions⟩ := ParameterList.exists_single_tuple hone
  rw [matchParameters_eq]
  exact meets_matchList_self ts (fun slot hslot us hus =>
      hmentions slot hslot us (Slot.mem_tupleMentions hus))
    (fun t ht b hb => meets_unify_self (hmentions _ ht) hb) Binding.isReflexive_empty

end lists

/-! ### Aliases -/

theorem ParameterList.length_scalarSlots_le (list : ParameterList) :
    list.scalarSlots.length ≤ list.toTypes.length := by
  have hsub : list.scalarSlots ⊆ list.slots.filterMap Slot.scalar? := fun v hv =>
    List.mem_eraseDups.1 hv
  calc list.scalarSlots.length ≤ (list.slots.filterMap Slot.scalar?).length :=
        ((nodup_eraseDups _).subperm hsub).length_le
    _ ≤ list.slots.length := List.length_filterMap_le _ _
    _ = list.toTypes.length := by rw [toTypes, List.length_map]

namespace Declarations

/-- What the check of the aliases reports of one of them. -/
def report? (d : Declarations) (a : Alias) : Option Diagnostic :=
  match (expandAlias d.scope defaultDepth a a.formal.toTypes).result with
  | .ok _ => none
  | .error e => some e.diagnostic

end Declarations

section aliases

variable {d : Declarations} {name : String} {a : Alias}

theorem Binding.IsReflexive.settled {scope : Scope} {b : Binding} (hb : b.IsReflexive) :
    b.Settled scope where
  scalars v t h := by
    rw [hb.scalar v t h]
    simp [Scope.Settled]
  tuples ts contents h t ht := by
    rw [hb.tuple ts contents h, List.mem_singleton] at ht
    rw [ht]
    simp [Scope.Settled]

/-- An alias of a table has enough parameters for itself, and one tuple variable. -/
theorem matchesSelf_bindArguments (ha : d.alias? name = some a) :
    MatchesSelf a.formal.reachesMap (a.bindArguments a.formal.toTypes) := by
  have hcheck := (d.alias_checked name a ha).2
  have hone : a.formal.tupleVars.length ≤ 1 := by
    rw [Alias.check, except_bind_eq_ok_iff] at hcheck
    obtain ⟨_, hsingle, -⟩ := hcheck
    unfold Alias.checkSingleTuple at hsingle
    split at hsingle
    · cases hsingle
    · omega
  have hsingle : a.checkSingleTuple = .ok () := if_neg (by omega)
  have henough := a.formal.length_scalarSlots_le
  rw [Alias.bindArguments, if_neg (by omega), hsingle]
  exact meets_matchParameters_self hone

/-- Filled with variables, a body that evokes no alias has nothing to expand. -/
theorem settled_fill_body {scope : Scope} {b : Binding} {t : TypeExpr} (hb : b.IsReflexive)
    (hnames : scope.Unnamed t)
    (htuple : scope.find? TypeExpr.tupleName = none ∨ ¬t.Evokes TypeExpr.tupleName) :
    scope.Settled (t.fill b) := by
  intro name hname
  refine Classical.byContradiction fun hfind => ?_
  have hevokes := TypeExpr.evokes_of_mem_references hb.settled hname hfind
  rcases hevokes with hnode | ⟨rfl, hwraps⟩
  · exact hfind (hnames name hnode)
  · rcases htuple with hnone | hnot
    · exact hfind hnone
    · exact hnot (.inr ⟨rfl, hwraps⟩)

theorem report_eq_match (d : Declarations) (ha : d.alias? name = some a) :
    d.report? a = match (instantiate d.scope defaultDepth [] a a.formal.toTypes).result with
      | .ok _ => none
      | .error e => some e.diagnostic := by
  have hname := (d.alias_checked name a ha).1
  have hfind : d.scope.find? a.name = some a := by rw [hname]; exact ha
  rw [Declarations.report?, expandAlias, Scope.push_of_find? hfind]

/-- The check of the aliases reports an alias whose parameters reach a spliced map, and for that
map.  Another alias is not reported, if its body has no union and names no alias; where an alias is
called `tuple`, nothing in the body may stand for a wrapped tuple either. -/
theorem checkAliases_reports (d : Declarations) :
    d.checkAliases = (d.aliases.toList.filterMap fun entry => d.report? entry.2) ∧
    ∀ name a, d.alias? name = some a →
      (a.formal.reachesMap = true → ∃ e : Failure, d.report? a = some e.diagnostic ∧ e.IsMapClash) ∧
      (a.formal.reachesMap = false → a.body.Everywhere (fun n => n.isUnion = false) →
        d.scope.Unnamed a.body →
        (d.alias? TypeExpr.tupleName = none ∨ ¬a.body.Evokes TypeExpr.tupleName) →
        d.report? a = none) := by
  refine ⟨rfl, fun name a ha => ?_⟩
  have hself := matchesSelf_bindArguments ha
  have hstep : instantiate d.scope defaultDepth [] a a.formal.toTypes = (do
      let b ← a.bindArguments a.formal.toTypes
      log (.expandAlias a.name a.formal a.formal.toTypes b)
      let body ← ofExcept (a.body.subst b)
      body.replaceReferences (d.scope.replace (instantiate d.scope 63 [a.name]))) := rfl
  rw [report_eq_match d ha, hstep]
  cases hb : (a.bindArguments a.formal.toTypes).result with
  | error e =>
    obtain ⟨hreaches, he⟩ := hself.of_error hb
    rw [bind_of_error hb, hreaches]
    exact ⟨fun _ => ⟨e, rfl, he⟩, nofun⟩
  | ok b =>
    obtain ⟨hreflexive, hnot⟩ := hself.of_ok hb
    refine ⟨fun hreaches => absurd hreaches (by simp [hnot]), fun _ hunion hnames htuple => ?_⟩
    have hsettled := settled_fill_body hreflexive hnames htuple
    rw [result_bind_of_ok hb, TypeExpr.subst_eq_ok_of_unionFree hunion,
      result_bind_of_ok (result_log _)]
    change (match (TypeExpr.replaceReferences _ (a.body.fill b)).result with
      | .ok _ => none
      | .error e => some e.diagnostic) = none
    rw [replaceReferences_of_settled hsettled]
    rfl

-- With `A[*Ts0] = Ts0`, in the wrapped form, an alias `tuple[T0, T1] = T0` is reached from the body
-- of `A`, and gets one argument.
example :
    (Declarations.empty.declareAll [.template ⟨"A", ⟨[.spread ⟨0⟩]⟩, .packed ⟨0⟩⟩,
        .template ⟨"tuple", ⟨[.single (.var ⟨0⟩), .single (.var ⟨1⟩)]⟩, .var ⟨0⟩⟩]).report?
      ⟨"A", ⟨[.spread ⟨0⟩]⟩, .packed ⟨0⟩⟩ =
        some (Failure.diagnostic ⟨.tooFewArguments "tuple" 2 1, []⟩) := rfl

/-- A table with `A[T0, list[*Ts0], *Ts0, (*Ts0) -> Ts0, *Ts0] = F[T0, *Map[list, Ts0]]`, with
`B[*Map[list, Ts0]] = F[*Ts0]` and with `C[*Ts0, G[*Map[list, Ts0]]] = int`. -/
def spreadingAliases : Declarations :=
  Declarations.empty.declareAll [
    .template ⟨"A", ⟨[.single (.var ⟨0⟩), .single (.apply (.named "list") [.spread ⟨0⟩]),
        .spread ⟨0⟩, .single (.arrow [.spread ⟨0⟩] (.packed ⟨0⟩)), .spread ⟨0⟩]⟩,
      .apply (.named "F") [.var ⟨0⟩, .spreadMap (.named "list") ⟨0⟩]⟩,
    .template ⟨"B", ⟨[.mapped (.named "list") ⟨0⟩]⟩, .apply (.named "F") [.spread ⟨0⟩]⟩,
    .template ⟨"C", ⟨[.spread ⟨0⟩,
      .single (.apply (.named "G") [.spreadMap (.named "list") ⟨0⟩])]⟩, .named "int"⟩]

theorem unnamed_spreadingAliases : ∀ t ∈ [
      TypeExpr.apply (.named "F") [.var ⟨0⟩, .spreadMap (.named "list") ⟨0⟩],
      TypeExpr.apply (.named "F") [.spread ⟨0⟩]], spreadingAliases.scope.Unnamed t := by
  have hF : spreadingAliases.scope.find? "F" = none := rfl
  have hlist : spreadingAliases.scope.find? "list" = none := rfl
  simp [Scope.Unnamed, TypeExpr.nodes, TypeExpr.allNodes, hF, hlist]

/-- `A` is not reported, though its body has a spliced map; `C` is, for the one inside `G`. -/
theorem checkAliases_reports_spreadingAliases :
    spreadingAliases.report? ⟨"A", ⟨[.single (.var ⟨0⟩),
          .single (.apply (.named "list") [.spread ⟨0⟩]), .spread ⟨0⟩,
          .single (.arrow [.spread ⟨0⟩] (.packed ⟨0⟩)), .spread ⟨0⟩]⟩,
        .apply (.named "F") [.var ⟨0⟩, .spreadMap (.named "list") ⟨0⟩]⟩ = none ∧
      ∃ e : Failure, spreadingAliases.report? ⟨"C", ⟨[.spread ⟨0⟩,
          .single (.apply (.named "G") [.spreadMap (.named "list") ⟨0⟩])]⟩, .named "int"⟩ =
        some e.diagnostic ∧ e.IsMapClash :=
  ⟨((checkAliases_reports spreadingAliases).2 "A" _ rfl).2 rfl (by decide)
      (unnamed_spreadingAliases _ (by simp)) (.inl rfl),
    ((checkAliases_reports spreadingAliases).2 "C" _ rfl).1 rfl⟩

/-- `B[*Map[list, Ts0]] = F[*Ts0]` is reported, though its body is plain and `B[list[int]]` is
expanded to `F[int]`. -/
theorem report_of_mapped :
    spreadingAliases.alias? "B" =
        some ⟨"B", ⟨[.mapped (.named "list") ⟨0⟩]⟩, .apply (.named "F") [.spread ⟨0⟩]⟩ ∧
      (TypeExpr.apply (.named "F") [.spread ⟨0⟩]).Everywhere (fun n => n.isUnion = false) ∧
      spreadingAliases.scope.Unnamed (.apply (.named "F") [.spread ⟨0⟩]) ∧
      spreadingAliases.report? ⟨"B", ⟨[.mapped (.named "list") ⟨0⟩]⟩,
          .apply (.named "F") [.spread ⟨0⟩]⟩ =
        some (Failure.diagnostic ⟨.mismatch (.apply (.named "list") [.spread ⟨0⟩])
          (.spreadMap (.named "list") ⟨0⟩), [.param 0]⟩) ∧
      (expandReferences spreadingAliases.scope defaultDepth
        (.apply (.named "B") [.apply (.named "list") [.named "int"]])).result =
          .ok (.apply (.named "F") [.named "int"]) :=
  ⟨rfl, by decide, unnamed_spreadingAliases _ (by simp), rfl, rfl⟩

end aliases

end Polyadic
