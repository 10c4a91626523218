import Polyadic.Expansion
import Polyadic.Proofs.EmptyUnions
import Polyadic.Proofs.Invariants

/-! # References to aliases

The references of a type are the names that the expansion asks its scope for.  A type none of whose
references is in scope is *settled*: there is nothing left to expand in it.  An expansion returns
settled types, and it works on settled arguments, so that what is bound to the parameters of an
alias is settled (`settled_of_bindArguments`).  The references of a body in which the parameters are
replaced are therefore those of the body itself, with one exception: where a tuple variable is
replaced as a whole, the name of the constructor of wrapped tuples comes in
(`evokes_of_mem_references`). -/

namespace Polyadic

open Attempt

namespace TypeExpr

/-! ### References -/

mutual

/-- The names that an expansion of the type asks for. -/
def references : TypeExpr → List String
  | .named name => [name]
  | .apply head args => referencesAll args ++ head.references
  | .arrow params result => referencesAll params ++ result.references
  | .union members => referencesAll members
  | .spreadMap (.named _) _ => []
  | .spreadMap ctor _ => ctor.references
  | .var _ | .packed _ | .spread _ => []

/-- The references of the types of a list, one after another. -/
def referencesAll : List TypeExpr → List String
  | [] => []
  | t :: ts => t.references ++ referencesAll ts

end

section

variable {name : String} {head result ctor : TypeExpr} {ts : TupleVar} {types : List TypeExpr}

theorem mem_referencesAll : name ∈ referencesAll types ↔ ∃ t ∈ types, name ∈ t.references := by
  induction types with
  | nil => simp [referencesAll]
  | cons t types ih => simp [referencesAll, ih]

@[simp] theorem mem_references_named {n : String} : name ∈ (named n).references ↔ name = n :=
  List.mem_singleton

@[simp] theorem references_var {v : TypeVar} : (var v).references = [] := rfl

@[simp] theorem references_packed : (packed ts).references = [] := rfl

@[simp] theorem references_spread : (spread ts).references = [] := rfl

@[simp] theorem mem_references_apply : name ∈ (apply head types).references ↔
    (∃ t ∈ types, name ∈ t.references) ∨ name ∈ head.references := by
  show name ∈ referencesAll types ++ head.references ↔ _
  rw [List.mem_append, mem_referencesAll]

@[simp] theorem mem_references_union :
    name ∈ (union types).references ↔ ∃ t ∈ types, name ∈ t.references := mem_referencesAll

@[simp] theorem mem_references_arrow : name ∈ (arrow types result).references ↔
    (∃ t ∈ types, name ∈ t.references) ∨ name ∈ result.references := by
  show name ∈ referencesAll types ++ result.references ↔ _
  rw [List.mem_append, mem_referencesAll]

theorem mem_references_ctor (h : name ∈ (spreadMap ctor ts).references) :
    name ∈ ctor.references := by
  cases ctor with
  | named => cases h
  | _ => exact h

end

end TypeExpr

/-! ### Settled types -/

/-- No reference of a type is in scope. -/
def Scope.Settled (scope : Scope) (t : TypeExpr) : Prop :=
  ∀ name ∈ t.references, scope.find? name = none

/-- The types that a binding assigns are settled. -/
structure Binding.Settled (scope : Scope) (b : Binding) : Prop where
  scalars : ∀ v t, b.scalar? v = some t → scope.Settled t
  tuples : ∀ ts contents, b.tuple? ts = some contents → ∀ t ∈ contents, scope.Settled t

instance (scope : Scope) (t : TypeExpr) : Decidable (scope.Settled t) :=
  inferInstanceAs (Decidable (∀ name ∈ t.references, scope.find? name = none))

theorem Binding.settled_iff {scope : Scope} {b : Binding} :
    b.Settled scope ↔ b.Assigns scope.Settled :=
  ⟨fun h => ⟨h.scalars, h.tuples⟩, fun h => ⟨h.scalars, h.tuples⟩⟩

instance (scope : Scope) (b : Binding) : Decidable (b.Settled scope) :=
  decidable_of_iff _ Binding.settled_iff.symm

section settled

variable {scope : Scope}

theorem Scope.Settled.part {t p : TypeExpr} (h : scope.Settled t) (hp : p ∈ t.parts) :
    scope.Settled p := by
  intro name hname
  cases t with
  | named | var | spread | spreadMap => cases hp
  | packed ts =>
    obtain rfl := List.mem_singleton.1 hp
    simp at hname
  | apply head args =>
    rcases List.mem_cons.1 hp with rfl | hp
    · exact h name (by simp [hname])
    · exact h name (TypeExpr.mem_references_apply.2 (.inl ⟨p, hp, hname⟩))
  | union members => exact h name (TypeExpr.mem_references_union.2 ⟨p, hp, hname⟩)
  | arrow params result =>
    rcases List.mem_cons.1 hp with rfl | hp
    · exact h name (by simp [hname])
    · exact h name (TypeExpr.mem_references_arrow.2 (.inl ⟨p, hp, hname⟩))

theorem Binding.settled_empty : Binding.empty.Settled scope := settled_iff.2 assigns_empty

/-- A match against settled types binds settled types. -/
def settledInvariant (scope : Scope) : MatchInvariant where
  actual := scope.Settled
  formal _ _ := True
  kept := Binding.Settled scope
  actual_parts := Scope.Settled.part
  formal_parts _ _ := trivial
  formal_ctor _ := trivial
  formal_expansion _ _ _ _ _ := trivial
  formal_later _ _ := trivial
  bindScalar {_ v _} hb _ ht _ :=
    Binding.settled_iff.2 ((Binding.settled_iff.1 hb).bindScalar ht v)
  bindTuple {_ _ ts _} hb _ _ hcontents _ :=
    Binding.settled_iff.2 ((Binding.settled_iff.1 hb).bindTuple hcontents ts)

/-- The failure of an expansion for another reason than recursion. -/
def Failure.IsNoRecursion (e : Failure) : Prop := ∀ name chain, e.cause ≠ .recursiveAlias name chain

theorem Failure.IsClash.isNoRecursion {e : Failure} (h : e.IsClash) : e.IsNoRecursion := by
  intro name chain heq
  rw [IsClash, heq] at h
  cases h

/-- What is bound to the parameters of an alias is settled if the arguments are. -/
theorem settled_of_bindArguments (a : Alias) {arguments : List TypeExpr}
    (h : ∀ t ∈ arguments, scope.Settled t) :
    (a.bindArguments arguments).Meets (Binding.Settled scope) Failure.IsNoRecursion := by
  rw [Alias.bindArguments]
  split
  · simp [Failure.IsNoRecursion]
  · rw [meets_bind, Alias.checkSingleTuple]
    split
    · exact fun _ _ => nofun
    · have hmatch : (matchParameters a.formal arguments).Meets (Binding.Settled scope)
          Failure.IsClash :=
        (settledInvariant scope).keeps_of_matchAnchored h (by simp) (fun _ _ => trivial)
          (fun _ _ => trivial) Binding.settled_empty
      exact hmatch.mono (fun _ hb => hb) fun _ he => he.isNoRecursion

end settled

/-! ### References of a body -/

namespace TypeExpr

/-- A node in whose place, or in a part of which, a tuple variable is replaced as a whole. -/
def wraps : TypeExpr → Bool
  | .packed _ => true
  | n => !n.placesWell

/-- A name is one of the names in a type, or it is the constructor of wrapped tuples and a tuple
variable of the type stands for one, in its wrapped form or as a spliced form outside a list. -/
def Evokes (t : TypeExpr) (name : String) : Prop :=
  .named name ∈ t.nodes ∨
    name = tupleName ∧ (t.isSpliced = true ∨ ∃ n ∈ t.nodes, n.wraps = true)

/-- The name is evoked by no node of a type. -/
def ShunsNode (name : String) (n : TypeExpr) : Prop :=
  n ≠ .named name ∧ (name = tupleName → n.wraps = false)

theorem not_evokes_iff {t : TypeExpr} {name : String} : ¬t.Evokes name ↔
    (name = tupleName → t.isSpliced = false) ∧ t.Everywhere (ShunsNode name) := by
  simp only [Evokes, ShunsNode, Everywhere]
  constructor
  · intro h
    refine ⟨fun heq => ?_, fun n hn => ⟨?_, fun heq => ?_⟩⟩
    · exact Bool.eq_false_iff.2 fun hs => h (.inr ⟨heq, .inl hs⟩)
    · rintro rfl
      exact h (.inl hn)
    · exact Bool.eq_false_iff.2 fun hw => h (.inr ⟨heq, .inr ⟨n, hn, hw⟩⟩)
  · rintro ⟨hroot, hnodes⟩ (hn | ⟨heq, hs | ⟨n, hn, hw⟩⟩)
    · exact (hnodes _ hn).1 rfl
    · rw [hroot heq] at hs
      cases hs
    · rw [(hnodes n hn).2 heq] at hw
      cases hw

section fill

variable {scope : Scope} {b : Binding} {name : String} {ctor : TypeExpr}

/-- What a spliced map is filled to in a list has the references of its constructor. -/
theorem not_mem_references_mapped (ts : TupleVar) (hb : b.Settled scope)
    (hname : scope.find? name ≠ none) (hctor : name ∉ (ctor.fill b).references) :
    ∀ x ∈ (Slot.mapped ctor ts).fill b, name ∉ x.references := by
  intro x hx hmem
  cases hts : b.tuple? ts with
  | none =>
    obtain rfl : x = .spreadMap (ctor.fill b) ts := by simpa [Slot.fill, hts] using hx
    exact hctor (mem_references_ctor hmem)
  | some contents =>
    obtain ⟨y, hy, rfl⟩ : ∃ y ∈ contents, .apply (ctor.fill b) [y] = x := by
      simpa [Slot.fill, hts, mapOver] using hx
    have hy : name ∉ y.references := fun h => hname (hb.tuples ts contents hts y hy name h)
    simp [hy, hctor] at hmem

/-- A wrapped tuple has the references of its elements, and its own name. -/
theorem not_mem_references_tuple {elements : List TypeExpr} (hne : name ≠ tupleName)
    (h : ∀ t ∈ elements, name ∉ t.references) : name ∉ (tuple elements).references := by
  rw [tuple, mem_references_apply]
  rintro (⟨t, ht, hmem⟩ | hmem)
  · exact h t ht hmem
  · exact hne (mem_references_named.1 hmem)

theorem not_mem_references_fill (hb : b.Settled scope) (hname : scope.find? name ≠ none)
    {t : TypeExpr} (hroot : name = tupleName → t.isSpliced = false)
    (h : t.Everywhere (ShunsNode name)) : name ∉ (t.fill b).references := by
  have contents {ts : TupleVar} {xs : List TypeExpr} (hts : b.tuple? ts = some xs) :
      ∀ x ∈ xs, name ∉ x.references := fun x hx hmem => hname (hb.tuples ts xs hts x hx name hmem)
  -- Elements of a list are not wrapped, so the root of each is looked at only if it is single.
  have slots {ts : List TypeExpr} (h : ∀ t ∈ ts, t.Everywhere (ShunsNode name))
      (ih : ∀ s ∈ ts.map Slot.ofType, ∀ t ∈ s.inner?, (name = tupleName → t.isSpliced = false) →
        t.Everywhere (ShunsNode name) → name ∉ (t.fill b).references) :
      ∀ x ∈ fillAll b ts, name ∉ x.references := by
    intro x hx
    rw [fillAll_eq_flatMap, List.mem_flatMap] at hx
    obtain ⟨s, hs, hx⟩ := hx
    obtain ⟨u, hu, rfl⟩ := List.mem_map.1 hs
    have ih := ih _ hs
    cases u with
    | spread us =>
      cases hus : b.tuple? us with
      | none =>
        obtain rfl : x = .spread us := by simpa [Slot.ofType, Slot.fill, hus] using hx
        simp
      | some xs => exact contents hus x (by simpa [Slot.ofType, Slot.fill, hus] using hx)
    | spreadMap ctor us =>
      obtain ⟨hnode, hctor⟩ := everywhere_spreadMap.1 (h _ hu)
      have hplaced : name = tupleName → ctor.isSpliced = false := fun heq => by
        simpa [wraps, placesWell] using hnode.2 heq
      exact not_mem_references_mapped _ hb hname (ih ctor rfl hplaced hctor) x hx
    | _ =>
      obtain rfl := List.mem_singleton.1 hx
      exact ih _ rfl (fun _ => rfl) (h _ hu)
  induction t using inductSlots with
  | named n =>
    have hne : name ≠ n := fun heq => (everywhere_named.1 h).1 (by rw [heq])
    simpa [fill] using hne
  | var v =>
    cases hv : b.scalar? v with
    | none => simp [fill, hv]
    | some t => simpa [fill, hv] using fun hmem => hname (hb.scalars v t hv name hmem)
  | packed ts =>
    cases hts : b.tuple? ts with
    | none => simp [fill, hts]
    | some xs =>
      have hne : name ≠ tupleName := fun heq => by cases (everywhere_packed.1 h).2 heq
      rw [fill, hts]
      exact not_mem_references_tuple hne (contents hts)
  | spread ts =>
    cases hts : b.tuple? ts with
    | none => simp [fill, hts]
    | some xs =>
      have hne : name ≠ tupleName := fun heq => by cases hroot heq
      rw [fill, hts]
      exact not_mem_references_tuple hne (contents hts)
  | spreadMap ctor ts ih =>
    have hne : name ≠ tupleName := fun heq => by cases hroot heq
    have hctor := ih (fun heq => absurd heq hne) (everywhere_spreadMap.1 h).2
    have hmapped := not_mem_references_mapped ts hb hname hctor
    cases hts : b.tuple? ts with
    | none => exact hmapped _ (by simp [Slot.fill, fill, hts])
    | some xs =>
      simp only [Slot.fill, hts, Option.map_some, Option.getD_some] at hmapped
      rw [fill, hts]
      exact not_mem_references_tuple hne hmapped
  | apply head args hhead hargs =>
    obtain ⟨hnode, hh, ha⟩ := everywhere_apply.1 h
    have hplaced : name = tupleName → head.isSpliced = false := fun heq => by
      simpa [wraps, placesWell] using hnode.2 heq
    rw [fill, mem_references_apply]
    rintro (⟨x, hx, hmem⟩ | hmem)
    · exact slots ha hargs x hx hmem
    · exact hhead hplaced hh hmem
  | union members hmembers =>
    rw [fill, mem_references_union]
    rintro ⟨x, hx, hmem⟩
    exact slots (everywhere_union.1 h).2 hmembers x hx hmem
  | arrow params result hparams hresult =>
    obtain ⟨hnode, hp, hr⟩ := everywhere_arrow.1 h
    have hplaced : name = tupleName → result.isSpliced = false := fun heq => by
      simpa [wraps, placesWell] using hnode.2 heq
    rw [fill, mem_references_arrow]
    rintro (⟨x, hx, hmem⟩ | hmem)
    · exact slots hp hparams x hx hmem
    · exact hresult hplaced hr hmem

/-- A reference to something in scope that a type has after settled types were filled in is evoked
by the type itself. -/
theorem evokes_of_mem_references (hb : b.Settled scope) {t : TypeExpr}
    (h : name ∈ (t.fill b).references) (hname : scope.find? name ≠ none) : t.Evokes name := by
  refine Classical.byContradiction fun hnot => ?_
  obtain ⟨hroot, hnodes⟩ := not_evokes_iff.1 hnot
  exact not_mem_references_fill hb hname hroot hnodes h

end fill

end TypeExpr

/-! ### Failure of substitution -/

/-- Substitution ends with what filling gives, or for another reason than recursion. -/
theorem meets_ofExcept_subst {b : Binding} (t : TypeExpr) :
    (ofExcept (t.subst b)).Meets (· = t.fill b) Failure.IsNoRecursion := by
  rw [meets_iff]
  constructor
  · intro x hx
    exact TypeExpr.fill_of_subst hx
  · intro e he name chain heq
    rw [(TypeExpr.emptiedAt_of_subst t e he).cause] at heq
    cases heq

end Polyadic
