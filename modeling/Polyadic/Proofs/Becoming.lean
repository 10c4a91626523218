import Polyadic.Proofs.Hygiene

/-! # What becomes of a type

When the open variables of a type are filled in, its references may be expanded again: what the type
then *becomes* is said by its form (`becomes_apply` and so on), where a spliced form becomes any
number of types (`becomeAll_spread`).  Two bindings are *linked* at a variable if what the one
assigns to it becomes what the other one does. -/

namespace Polyadic

open Attempt

/-- Aliases that bind the variables of their bodies, a limit for their expansion, and ground types
without references for some variables. -/
structure Setting where
  scope : Scope
  depth : Nat
  values : Binding
  bodies : scope.BindsBodies
  ground : values.IsGround
  settled : values.Settled scope

namespace Setting

variable {S : Setting}

/-! ### What becomes of a type -/

/-- The type is expanded to the other one when the variables have been filled in. -/
def Becomes (S : Setting) (t t' : TypeExpr) : Prop :=
  (expandReferences S.scope S.depth (t.fill S.values)).result = .ok t'

/-- The same for the types of a list, where spliced forms are spliced. -/
def BecomeAll (S : Setting) (ts ts' : List TypeExpr) : Prop :=
  (expandAll S.scope S.depth (TypeExpr.fillAll S.values ts)).result = .ok ts'

section laws

open TypeExpr

variable {t t' head result : TypeExpr} {ts ts' us us' : List TypeExpr}

theorem Becomes.unique {u : TypeExpr} (h : S.Becomes t t') (h' : S.Becomes t u) : t' = u :=
  Except.ok.inj (h.symm.trans h')

theorem BecomeAll.unique (h : S.BecomeAll ts ts') (h' : S.BecomeAll ts us) : ts' = us :=
  Except.ok.inj (h.symm.trans h')

theorem Becomes.settled (h : S.Becomes t t') : S.scope.Settled t' :=
  settled_of_expandReferences.of_ok h

/-- What comes of a type mentions no variable that has been filled in. -/
theorem Becomes.within (h : S.Becomes t t') : t'.Within fun x => ¬S.values.Binds x := by
  refine (within_of_expandReferences S.bodies (within_fill ?_ fun _ _ hx => hx)).of_ok h
  constructor
  · intro v t hv x hx
    exact absurd hx ((S.ground.scalars v t hv).not_mentions x)
  · intro ts contents hts t ht x hx
    exact absurd hx ((S.ground.tuples ts contents hts t ht).not_mentions x)

/-! ### Lists -/

theorem replaceAll_append {replace : String → List TypeExpr → Option (Attempt TypeExpr)} :
    replaceAll replace (ts ++ us) = do
      let xs ← replaceAll replace ts
      let ys ← replaceAll replace us
      return xs ++ ys := by
  induction ts with
  | nil => simp [replaceAll]
  | cons t ts ih => simp [replaceAll, ih]

theorem becomeAll_nil : S.BecomeAll [] ts' ↔ ts' = [] := by
  change Except.ok [] = _ ↔ _
  simp [eq_comm]

theorem becomeAll_append : S.BecomeAll (ts ++ us) ts' ↔
    ∃ xs ys, S.BecomeAll ts xs ∧ S.BecomeAll us ys ∧ ts' = xs ++ ys := by
  simp only [BecomeAll, expandAll, fillAll_eq_flatMap, List.map_append, List.flatMap_append,
    replaceAll_append, result_bind_eq_ok_iff, result_pure, Except.ok.injEq]
  constructor
  · rintro ⟨xs, hxs, ys, hys, rfl⟩
    exact ⟨xs, ys, hxs, hys, rfl⟩
  · rintro ⟨xs, ys, hxs, hys, rfl⟩
    exact ⟨xs, hxs, ys, hys, rfl⟩

/-- A type that is not spliced comes to a single one. -/
theorem becomeAll_cons (h : t.isSpliced = false) : S.BecomeAll (t :: ts) ts' ↔
    ∃ x ys, S.Becomes t x ∧ S.BecomeAll ts ys ∧ ts' = x :: ys := by
  simp only [BecomeAll, fillAll_cons h, expandAll, replaceAll, result_bind_eq_ok_iff, result_pure,
    Except.ok.injEq]
  constructor
  · rintro ⟨x, hx, ys, hys, rfl⟩
    exact ⟨x, ys, hx, hys, rfl⟩
  · rintro ⟨x, ys, hx, hys, rfl⟩
    exact ⟨x, hx, ys, hys, rfl⟩

theorem becomeAll_singleton (h : t.isSpliced = false) :
    S.BecomeAll [t] ts' ↔ ∃ x, S.Becomes t x ∧ ts' = [x] := by
  simp [becomeAll_cons h, becomeAll_nil]

/-- A sequence without spliced forms keeps its length. -/
theorem BecomeAll.length (h : S.BecomeAll ts ts') (hts : ∀ t ∈ ts, t.isSpliced = false) :
    ts'.length = ts.length := by
  induction ts generalizing ts' with
  | nil => rw [becomeAll_nil.1 h]
  | cons t ts ih =>
    obtain ⟨x, ys, -, hys, rfl⟩ := (becomeAll_cons (hts t (by simp))).1 h
    rw [List.length_cons, List.length_cons, ih hys fun u hu => hts u (by simp [hu])]

/-! ### Types -/

/-- No reference comes in where another type than a name is filled in. -/
theorem named_or_fill {scope : Scope} {b : Binding} (hb : b.Settled scope) (t : TypeExpr) :
    (∃ name, t = .named name) ∨ ∀ name, t.fill b = .named name → scope.find? name = none := by
  cases t with
  | named name => exact .inl ⟨name, rfl⟩
  | var v =>
    cases hv : b.scalar? v with
    | none => simp [fill, hv]
    | some u =>
      refine .inr fun name hname => ?_
      obtain rfl : u = .named name := by simpa [fill, hv] using hname
      exact hb.scalars v _ hv name (by simp)
  | packed ts | spread ts =>
    cases hts : b.tuple? ts <;> simp [fill, hts, tuple]
  | spreadMap ctor ts =>
    cases hts : b.tuple? ts <;> simp [fill, hts, tuple]
  | apply | union | arrow => simp [fill]

theorem find?_of_fill (h : S.scope.Settled t) {name : String}
    (hname : t.fill S.values = .named name) : S.scope.find? name = none := by
  rcases named_or_fill S.settled t with ⟨_, rfl⟩ | hfill
  · cases hname
    exact h name (by simp)
  · exact hfill name hname

theorem becomes_apply (h : S.scope.Settled head) : S.Becomes (.apply head ts) t' ↔
    ∃ head' ts', S.Becomes head head' ∧ S.BecomeAll ts ts' ∧ t' = .apply head' ts' := by
  have heq : expandReferences S.scope S.depth ((apply head ts).fill S.values) = do
      let args ← expandAll S.scope S.depth (fillAll S.values ts)
      let head ← expandReferences S.scope S.depth (head.fill S.values)
      return .apply head args := by
    rw [fill]
    exact replaceReferences_apply (fun _ => find?_of_fill h) _
  rw [Becomes, heq]
  simp only [result_bind_eq_ok_iff, result_pure, Except.ok.injEq]
  constructor
  · rintro ⟨ts', hts', head', hhead', rfl⟩
    exact ⟨head', ts', hhead', hts', rfl⟩
  · rintro ⟨head', ts', hhead', hts', rfl⟩
    exact ⟨ts', hts', head', hhead', rfl⟩

theorem becomes_union : S.Becomes (.union ts) t' ↔ ∃ ts', S.BecomeAll ts ts' ∧ t' = .union ts' := by
  rw [Becomes, fill, expandReferences, replaceReferences]
  simp only [result_bind_eq_ok_iff, result_pure, Except.ok.injEq]
  constructor
  · rintro ⟨ts', hts', rfl⟩
    exact ⟨ts', hts', rfl⟩
  · rintro ⟨ts', hts', rfl⟩
    exact ⟨ts', hts', rfl⟩

theorem becomes_arrow : S.Becomes (.arrow ts result) t' ↔
    ∃ ts' result', S.BecomeAll ts ts' ∧ S.Becomes result result' ∧ t' = .arrow ts' result' := by
  rw [Becomes, fill, expandReferences, replaceReferences]
  simp only [result_bind_eq_ok_iff, result_pure, Except.ok.injEq]
  constructor
  · rintro ⟨ts', hts', result', hresult', rfl⟩
    exact ⟨ts', result', hts', hresult', rfl⟩
  · rintro ⟨ts', result', hts', hresult', rfl⟩
    exact ⟨ts', hts', result', hresult', rfl⟩

theorem BecomeAll.within (h : S.BecomeAll ts ts') :
    ∀ t ∈ ts', t.Within fun x => ¬S.values.Binds x := by
  have hunion : S.Becomes (.union ts) (.union ts') := becomes_union.2 ⟨ts', h, rfl⟩
  exact fun t ht => hunion.within.part ht

theorem BecomeAll.settled (h : S.BecomeAll ts ts') : ∀ t ∈ ts', S.scope.Settled t := by
  have hunion : S.Becomes (.union ts) (.union ts') := becomes_union.2 ⟨ts', h, rfl⟩
  exact fun t ht => hunion.settled.part ht

theorem becomeAll_spread {us : TupleVar} {contents : List TypeExpr}
    (h : S.values.tuple? us = some contents) : S.BecomeAll [.spread us] contents := by
  rw [BecomeAll, fillAll, h, fillAll, Option.getD_some, List.append_nil,
    expandAll_of_settled S.depth (S.settled.tuples us contents h), result_pure]

theorem becomeAll_spread_open {us : TupleVar} (h : S.values.tuple? us = none) :
    S.BecomeAll [.spread us] [.spread us] := by
  rw [BecomeAll, fillAll, h, fillAll]
  rfl

theorem becomes_named {name : String} (h : S.scope.find? name = none) :
    S.Becomes (.named name) t' ↔ t' = .named name := by
  rw [Becomes, fill, expandReferences, replaceReferences, h, Option.map_none, Option.getD_none,
    result_pure, Except.ok.injEq, eq_comm]

/-- What a filled in tuple variable becomes is a wrapped tuple only if it is the same one. -/
theorem becomes_packed {us : TupleVar} {contents elements : List TypeExpr}
    (hus : S.values.tuple? us = some contents) (h : S.Becomes (.packed us) t')
    (he : t'.tupleElements? = some elements) : elements = contents := by
  have hresult : (expandReferences S.scope S.depth (.tuple contents)).result = .ok t' := by
    simpa [Becomes, fill, hus] using h
  cases hfind : S.scope.find? tupleName with
  | none =>
    have hsettled : S.scope.Settled (.tuple contents) := by
      intro name hname
      rcases mem_references_apply.1 hname with ⟨t, ht, hname⟩ | hname
      · exact S.settled.tuples us contents hus t ht name hname
      · rwa [mem_references_named.1 hname]
    rw [expandReferences_of_settled S.depth hsettled, result_pure, Except.ok.injEq] at hresult
    simpa [← hresult, eq_comm] using he
  | some a =>
    have hground : t'.Within fun _ => False := by
      refine (within_of_expandReferences S.bodies (within_tuple ?_)).of_ok hresult
      intro t ht x hx
      exact (S.ground.tuples us contents hus t ht).not_mentions x hx
    rcases tupleElements?_eq_some_iff.1 he with rfl | ⟨vs, rfl, -⟩
    · have hnone : S.scope.find? tupleName = none := h.settled tupleName (by simp [tuple])
      rw [hnone] at hfind
      cases hfind
    · exact (hground (.tuple vs) (by simp)).elim

/-- The elements of a wrapped tuple become the elements of what the tuple becomes. -/
theorem becomeAll_elements {elements elements' : List TypeExpr} (ht : S.scope.Settled t)
    (h : S.Becomes t t') (he : t.tupleElements? = some elements)
    (he' : t'.tupleElements? = some elements') : S.BecomeAll elements elements' := by
  rcases tupleElements?_eq_some_iff.1 he with rfl | ⟨us, rfl, rfl⟩
  · have hname : S.scope.Settled (.named tupleName) := ht.part List.mem_cons_self
    obtain ⟨head', args', hhead, hargs, rfl⟩ := (becomes_apply hname).1 h
    obtain rfl := (becomes_named (hname tupleName (by simp))).1 hhead
    rw [← tuple, tupleElements?_tuple, Option.some.injEq] at he'
    exact he' ▸ hargs
  · cases hus : S.values.tuple? us with
    | some contents => exact becomes_packed hus h he' ▸ becomeAll_spread hus
    | none =>
      have hsame : t' = .packed us := by
        simpa [Becomes, fill, hus, expandReferences, replaceReferences, eq_comm] using h
      obtain rfl : elements' = [.spread us] := by
        simpa [hsame, tupleElements?, eq_comm] using he'
      exact becomeAll_spread_open hus

end laws

/-! ### Bindings in step -/

section linked

variable {b b' c c' : Binding} {ts : TupleVar}

/-- What one binding assigns to a variable becomes what the other one assigns to it. -/
def Linked (S : Setting) (b c : Binding) : Variable → Prop
  | .scalar v => ∃ t t', b.scalar? v = some t ∧ c.scalar? v = some t' ∧ S.Becomes t t'
  | .tuple ts => ∃ xs ys, b.tuple? ts = some xs ∧ c.tuple? ts = some ys ∧ S.BecomeAll xs ys

/-- The tuple variable is open in both bindings, or it is linked. -/
def InSync (S : Setting) (ts : TupleVar) (b c : Binding) : Prop :=
  (b.tuple? ts = none ∧ c.tuple? ts = none) ∨ S.Linked b c (.tuple ts)

theorem Linked.later {x : Variable} (h : S.Linked b c x) (hb : b ≤ b') (hc : c ≤ c') :
    S.Linked b' c' x := by
  cases x with
  | scalar v =>
    obtain ⟨t, t', ht, ht', hbecomes⟩ := h
    exact ⟨t, t', Binding.scalar?_of_le hb ht, Binding.scalar?_of_le hc ht', hbecomes⟩
  | tuple us =>
    obtain ⟨xs, ys, hxs, hys, hbecome⟩ := h
    exact ⟨xs, ys, Binding.tuple?_of_le hb hxs, Binding.tuple?_of_le hc hys, hbecome⟩

theorem InSync.linked {xs : List TypeExpr} (h : S.InSync ts b c) (hb : b.tuple? ts = some xs) :
    S.Linked b c (.tuple ts) := by
  rcases h with ⟨hnone, -⟩ | h
  · rw [hnone] at hb
    cases hb
  · exact h

theorem InSync.tuple?_eq_none (h : S.InSync ts b c) (hb : b.tuple? ts = none) :
    c.tuple? ts = none := by
  rcases h with ⟨-, hnone⟩ | ⟨xs, ys, hxs, -, -⟩
  · exact hnone
  · rw [hb] at hxs
    cases hxs

end linked

end Setting

end Polyadic
