import Polyadic.Proofs.Invariants
import Polyadic.Proofs.Lockstep

/-! # The variables that a match binds

A match takes the formal types apart and binds the variables that it comes to.  It comes to other
types as well: what a tuple variable is bound to becomes part of a formal type when a slot mapped
over the variable is expanded (`Reached`).  Every variable that is bound has been come to in one of
these two ways (`BindsReached`), so it occurs in a formal type if there are no spliced maps, or
nothing but ground types to expand them to.  An actual type with variables can be expanded too, and
then its variables are bound (`binds_expanded`). -/

namespace Polyadic

open Attempt

/-! ### Mentioned and bound variables -/

/-- A variable occurs in a type, in whatever form. -/
def TypeExpr.Mentions (t : TypeExpr) : Variable → Prop
  | .scalar v => v ∈ t.scalarMentions
  | .tuple ts => ts ∈ t.tupleMentions

instance (t : TypeExpr) : DecidablePred t.Mentions
  | .scalar v => inferInstanceAs (Decidable (v ∈ t.scalarMentions))
  | .tuple ts => inferInstanceAs (Decidable (ts ∈ t.tupleMentions))

/-- A variable has a value. -/
def Binding.Binds (b : Binding) : Variable → Prop
  | .scalar v => ∃ t, b.scalar? v = some t
  | .tuple ts => ∃ contents, b.tuple? ts = some contents

/-- A node itself is or mentions a variable. -/
def TypeExpr.Owns (n : TypeExpr) : Variable → Prop
  | .scalar v => n.ownScalar? = some v
  | .tuple ts => n.ownTuple? = some ts

section mentions

open TypeExpr

variable {x : Variable} {t p head result ctor : TypeExpr} {ts : TupleVar} {types : List TypeExpr}

theorem TypeExpr.mentions_iff : t.Mentions x ↔ ∃ n ∈ t.nodes, n.Owns x := by
  cases x <;> simp [Mentions, Owns, scalarMentions, tupleMentions]

theorem TypeExpr.Owns.mentions (h : t.Owns x) : t.Mentions x :=
  mentions_iff.2 ⟨t, t.self_mem_nodes, h⟩

theorem TypeExpr.IsGround.not_mentions (h : t.IsGround) (x : Variable) : ¬t.Mentions x := by
  rw [mentions_iff]
  rintro ⟨n, hn, hx⟩
  cases x <;> simp [Owns, h n hn] at hx

theorem TypeExpr.exists_mem_allNodes_iff :
    (∃ n ∈ allNodes types, n.Owns x) ↔ ∃ t ∈ types, t.Mentions x := by
  simp only [allNodes_eq_flatMap, List.mem_flatMap, mentions_iff]
  constructor
  · rintro ⟨n, ⟨t, ht, hn⟩, hx⟩
    exact ⟨t, ht, n, hn, hx⟩
  · rintro ⟨t, ht, n, hn, hx⟩
    exact ⟨n, ⟨t, ht, hn⟩, hx⟩

@[simp] theorem TypeExpr.mentions_apply :
    (apply head types).Mentions x ↔ head.Mentions x ∨ ∃ t ∈ types, t.Mentions x := by
  rw [← exists_mem_allNodes_iff]
  cases x <;> simp [mentions_iff, nodes, Owns, ownScalar?, ownTuple?, or_and_right, exists_or]

@[simp] theorem TypeExpr.mentions_union :
    (union types).Mentions x ↔ ∃ t ∈ types, t.Mentions x := by
  rw [← exists_mem_allNodes_iff]
  cases x <;> simp [mentions_iff, nodes, Owns, ownScalar?, ownTuple?]

@[simp] theorem TypeExpr.mentions_arrow :
    (arrow types result).Mentions x ↔ (∃ t ∈ types, t.Mentions x) ∨ result.Mentions x := by
  rw [← exists_mem_allNodes_iff]
  cases x <;> simp [mentions_iff, nodes, Owns, ownScalar?, ownTuple?, or_and_right, exists_or]

theorem TypeExpr.mentions_ctor (h : ctor.Mentions x) : (spreadMap ctor ts).Mentions x := by
  obtain ⟨n, hn, hx⟩ := mentions_iff.1 h
  exact mentions_iff.2 ⟨n, by simp [nodes, hn], hx⟩

theorem TypeExpr.mentions_of_mem_parts (hp : p ∈ t.parts) (h : p.Mentions x) : t.Mentions x := by
  cases t with
  | named | var | spread | spreadMap => cases hp
  | packed ts =>
    obtain rfl := List.mem_singleton.1 hp
    cases x with
    | scalar v => simp [mentions_iff, nodes, Owns, ownScalar?] at h
    | tuple us => simpa [mentions_iff, nodes, Owns, ownTuple?] using h
  | apply head args =>
    rcases List.mem_cons.1 hp with rfl | hp
    · exact mentions_apply.2 (.inl h)
    · exact mentions_apply.2 (.inr ⟨p, hp, h⟩)
  | union members => exact mentions_union.2 ⟨p, hp, h⟩
  | arrow params result =>
    rcases List.mem_cons.1 hp with rfl | hp
    · exact mentions_arrow.2 (.inr h)
    · exact mentions_arrow.2 (.inl ⟨p, hp, h⟩)

theorem TypeExpr.mapFree_of_mem_parts (h : t.MapFree) (hp : p ∈ t.parts) : p.MapFree := by
  cases t with
  | named | var | spread | spreadMap => cases hp
  | packed ts =>
    obtain rfl := List.mem_singleton.1 hp
    simp [MapFree, isMap]
  | apply head args =>
    obtain ⟨-, hhead, hargs⟩ := everywhere_apply.1 h
    rcases List.mem_cons.1 hp with rfl | hp
    · exact hhead
    · exact hargs p hp
  | union members => exact (everywhere_union.1 h).2 p hp
  | arrow params result =>
    obtain ⟨-, hparams, hresult⟩ := everywhere_arrow.1 h
    rcases List.mem_cons.1 hp with rfl | hp
    · exact hresult
    · exact hparams p hp

end mentions

/-! ### What a match comes to -/

/-- The types that a match may come to on the formal side, when it ends with the given binding. -/
inductive Reached (b : Binding) (formals : List TypeExpr) : TypeExpr → Prop
  | formal {t} : t ∈ formals → Reached b formals t
  | part {t p} : Reached b formals t → p ∈ t.parts → Reached b formals p
  | ctor {ctor ts} : Reached b formals (.spreadMap ctor ts) → Reached b formals ctor
  | expansion {ctor ts contents t} : Reached b formals (.spreadMap ctor ts) →
    b.tuple? ts = some contents → t ∈ contents → Reached b formals (.apply ctor [t])

namespace Reached

variable {b c : Binding} {formals : List TypeExpr} {t : TypeExpr}

theorem mono (hle : b ≤ c) (h : Reached b formals t) : Reached c formals t := by
  induction h with
  | formal ht => exact .formal ht
  | part _ hp ih => exact .part ih hp
  | ctor _ ih => exact .ctor ih
  | expansion _ hts ht ih => exact .expansion ih (Binding.tuple?_of_le hle hts) ht

/-- A match that starts without spliced maps never comes to one. -/
theorem mapFree (hfree : ∀ f ∈ formals, f.MapFree) (h : Reached b formals t) : t.MapFree := by
  induction h with
  | formal ht => exact hfree _ ht
  | part _ hp ih => exact TypeExpr.mapFree_of_mem_parts ih hp
  | ctor _ ih => cases ih.self
  | expansion _ _ _ ih => cases ih.self

/-- Where spliced maps are expanded to ground types only, nothing new is mentioned. -/
theorem exists_formal_mentions (hground : ∀ ctor ts contents,
      Reached b formals (.spreadMap ctor ts) → b.tuple? ts = some contents →
      ∀ t ∈ contents, t.IsGround)
    (h : Reached b formals t) {x : Variable} (hx : t.Mentions x) : ∃ f ∈ formals, f.Mentions x := by
  induction h with
  | formal ht => exact ⟨_, ht, hx⟩
  | part _ hp ih => exact ih (TypeExpr.mentions_of_mem_parts hp hx)
  | ctor _ ih => exact ih (TypeExpr.mentions_ctor hx)
  | expansion hmap hts ht ih =>
    rcases TypeExpr.mentions_apply.1 hx with hctor | ⟨u, hu, hoperand⟩
    · exact ih (TypeExpr.mentions_ctor hctor)
    · obtain rfl := List.mem_singleton.1 hu
      exact absurd hoperand ((hground _ _ _ hmap hts _ ht).not_mentions x)

end Reached

/-! ### Invariant -/

/-- Every bound variable is mentioned by a type that the match has come to. -/
def Binding.BindsReached (formals : List TypeExpr) (b : Binding) : Prop :=
  ∀ x, b.Binds x → ∃ t, Reached b formals t ∧ t.Mentions x

section invariant

variable {b : Binding} {formals : List TypeExpr}

theorem bindsReached_bindScalar {v : TypeVar} {t : TypeExpr} (hb : b.BindsReached formals)
    (hv : Reached b formals (.var v)) (hnone : b.scalar? v = none) :
    (b.bindScalar v t).BindsReached formals := by
  have hle := Binding.le_bindScalar hnone t
  have old {x : Variable} (h : b.Binds x) :
      ∃ t', Reached (b.bindScalar v t) formals t' ∧ t'.Mentions x := by
    obtain ⟨t', ht', hx⟩ := hb x h
    exact ⟨t', ht'.mono hle, hx⟩
  intro x hx
  cases x with
  | tuple ts => exact old hx
  | scalar w =>
    by_cases heq : v = w
    · subst heq
      exact ⟨.var v, hv.mono hle, TypeExpr.Owns.mentions (x := .scalar v) rfl⟩
    · simp only [Binding.Binds, Binding.scalar?_bindScalar, if_neg heq] at hx
      exact old hx

theorem bindsReached_bindTuple {f : TypeExpr} {ts : TupleVar} {contents : List TypeExpr}
    (hb : b.BindsReached formals) (hf : Reached b formals f) (hts : f.ownTuple? = some ts)
    (hnone : b.tuple? ts = none) : (b.bindTuple ts contents).BindsReached formals := by
  have hle := Binding.le_bindTuple hnone contents
  have old {x : Variable} (h : b.Binds x) :
      ∃ t', Reached (b.bindTuple ts contents) formals t' ∧ t'.Mentions x := by
    obtain ⟨t', ht', hx⟩ := hb x h
    exact ⟨t', ht'.mono hle, hx⟩
  intro x hx
  cases x with
  | scalar v => exact old hx
  | tuple us =>
    by_cases heq : ts = us
    · subst heq
      exact ⟨f, hf.mono hle, TypeExpr.Owns.mentions (x := .tuple ts) hts⟩
    · simp only [Binding.Binds, Binding.tuple?_bindTuple, if_neg heq] at hx
      exact old hx

end invariant

/-- A match binds only variables of types that it has come to, whatever its arguments are. -/
def bindsReachedInvariant (formals : List TypeExpr) : MatchInvariant where
  actual _ := True
  formal b := Reached b formals
  kept := Binding.BindsReached formals
  actual_parts _ _ := trivial
  formal_parts := .part
  formal_ctor := .ctor
  formal_expansion _ h hts _ := .expansion h hts
  formal_later := Reached.mono
  bindScalar hb hv _ := bindsReached_bindScalar hb hv
  bindTuple hb hf hts _ := bindsReached_bindTuple hb hf hts

theorem bindsReached_empty (formals : List TypeExpr) : Binding.empty.BindsReached formals := by
  rintro (v | ts) ⟨_, h⟩ <;> simp at h

/-! ### Matches -/

/-- The types of the formal side of an anchored match. -/
def formalTypes (list : ParameterList) (anchors : List Anchor) : List TypeExpr :=
  list.toTypes ++ anchors.map Anchor.formal

/-- Every bound variable occurs in one of the given types. -/
def Binding.BindsOnly (formals : List TypeExpr) (b : Binding) : Prop :=
  ∀ x, b.Binds x → ∃ f ∈ formals, f.Mentions x

section whole

variable {b : Binding} {formals : List TypeExpr}

theorem Binding.BindsReached.bindsOnly (h : b.BindsReached formals)
    (hexpand : (∀ f ∈ formals, f.MapFree) ∨ b.IsGround) : b.BindsOnly formals := by
  intro x hx
  obtain ⟨t, ht, hmention⟩ := h x hx
  refine ht.exists_formal_mentions ?_ hmention
  intro ctor ts contents hmap hts
  cases hexpand with
  | inl hfree => cases (hmap.mapFree hfree).self
  | inr hground => exact hground.tuples ts contents hts

theorem isGround_of_matchAnchored {list : ParameterList} {arguments : List TypeExpr}
    {anchors : List Anchor} (hground : ∀ t ∈ arguments, t.IsGround)
    (hanchors : ∀ a ∈ anchors, a.actual.IsGround)
    (h : (matchAnchored list arguments anchors).result = .ok b) : b.IsGround := by
  rw [matchAnchored, result_bind_eq_ok_iff] at h
  obtain ⟨b₁, h₁, h₂⟩ := h
  obtain ⟨hb₁, -, -⟩ := (solved_of_solveAnchors hanchors Binding.isGround_empty).of_ok h₁
  exact ((solved_of_matchList solvesOn_unify hground hb₁).of_ok h₂).ground

end whole

/-- Every variable that a match binds is mentioned by a type that it has come to.  It occurs in the
formal types if these contain no spliced maps, or if the actual types are ground. -/
theorem match_binds (list : ParameterList) (arguments : List TypeExpr) (anchors : List Anchor)
    (formal actual : TypeExpr) (b : Binding) :
    ((matchAnchored list arguments anchors).result = .ok b →
      b.BindsReached (formalTypes list anchors) ∧
        ((∀ f ∈ formalTypes list anchors, f.MapFree) ∨
            ((∀ t ∈ arguments, t.IsGround) ∧ ∀ a ∈ anchors, a.actual.IsGround) →
          b.BindsOnly (formalTypes list anchors))) ∧
    ((matchType formal actual).result = .ok b →
      b.BindsReached [formal] ∧ (formal.MapFree ∨ actual.IsGround → b.BindsOnly [formal])) := by
  constructor
  · intro h
    have hreached : b.BindsReached (formalTypes list anchors) := by
      refine ((bindsReachedInvariant (formalTypes list anchors)).keeps_of_matchAnchored
        (fun _ _ => trivial) (fun _ _ => trivial) ?_ ?_ (bindsReached_empty _)).of_ok h
      · intro t ht
        exact .formal (List.mem_append_left _ ht)
      · intro a ha
        exact .formal (List.mem_append_right _ (List.mem_map_of_mem ha))
    refine ⟨hreached, fun hexpand => hreached.bindsOnly (hexpand.imp_right ?_)⟩
    rintro ⟨hground, hanchors⟩
    exact isGround_of_matchAnchored hground hanchors h
  · intro h
    have hreached : b.BindsReached [formal] :=
      ((bindsReachedInvariant [formal]).keeps_of_unify trivial (.formal (List.mem_singleton_self _))
        (bindsReached_empty _)).of_ok h |>.2
    refine ⟨hreached, fun hexpand => hreached.bindsOnly (hexpand.imp ?_ ?_)⟩
    · intro hfree
      exact List.forall_mem_singleton.2 hfree
    · intro hground
      exact ((solved_of_unify hground Binding.isGround_empty).of_ok h).ground

/-- Three matches that succeed: the list `*Map[list, Ts0]` behind the anchor `Ts0` with ground
types, `F[T0]` with a type that has variables, and the wrapped form of a tuple variable against
another one. -/
theorem match_binds_succeeding :
    (Binding.empty.bindTuple ⟨0⟩ [.named "int"]).BindsOnly
        (formalTypes ⟨[.mapped (.named "list") ⟨0⟩]⟩ [⟨.packed ⟨0⟩, .tuple [.named "int"]⟩]) ∧
      (Binding.empty.bindScalar ⟨0⟩ (.var ⟨5⟩)).BindsOnly
        [.apply (.named "F") [.var ⟨0⟩]] ∧
      (Binding.empty.bindTuple ⟨0⟩ [.spread ⟨5⟩]).BindsReached [.packed ⟨0⟩] := by
  have hlist := (match_binds ⟨[.mapped (.named "list") ⟨0⟩]⟩
    [.apply (.named "list") [.named "int"]] [⟨.packed ⟨0⟩, .tuple [.named "int"]⟩]
    (.named "int") (.named "int") (Binding.empty.bindTuple ⟨0⟩ [.named "int"])).1 rfl
  have htype := (match_binds ⟨[]⟩ [] [] (.apply (.named "F") [.var ⟨0⟩])
    (.apply (.named "F") [.var ⟨5⟩]) (Binding.empty.bindScalar ⟨0⟩ (.var ⟨5⟩))).2 rfl
  have hpacked := (match_binds ⟨[]⟩ [] [] (.packed ⟨0⟩) (.packed ⟨5⟩)
    (Binding.empty.bindTuple ⟨0⟩ [.spread ⟨5⟩])).2 rfl
  exact ⟨hlist.2 (.inr ⟨by simp, by simp [TypeExpr.tuple]⟩), htype.2 (.inl (by decide)), hpacked.1⟩

/-- Variables of the actual side are bound where a slot is mapped over what it was bound to: the
scalar variable `T5` when `(Ts0, *Map[list, Ts0])` meets `(tuple[T5], list[int])`, and the tuple
variable `Ts5` when the same list, wrapped, meets `tuple[tuple[Ts5], list[tuple[int]]]`. -/
theorem binds_expanded :
    (∃ b, (matchParameters ⟨[.single (.packed ⟨0⟩), .mapped (.named "list") ⟨0⟩]⟩
        [.tuple [.var ⟨5⟩], .apply (.named "list") [.named "int"]]).result = .ok b ∧
      b.Binds (.scalar ⟨5⟩) ∧
      ¬b.BindsOnly (formalTypes ⟨[.single (.packed ⟨0⟩), .mapped (.named "list") ⟨0⟩]⟩ [])) ∧
    ∃ b, (matchType (.tuple [.packed ⟨0⟩, .spreadMap (.named "list") ⟨0⟩])
        (.tuple [.tuple [.packed ⟨5⟩],
          .apply (.named "list") [.tuple [.named "int"]]])).result = .ok b ∧
      b.Binds (.tuple ⟨5⟩) ∧
      ¬b.BindsOnly [.tuple [.packed ⟨0⟩, .spreadMap (.named "list") ⟨0⟩]] := by
  constructor
  · have hbinds : ((Binding.empty.bindTuple ⟨0⟩ [.var ⟨5⟩]).bindScalar ⟨5⟩ (.named "int")).Binds
        (.scalar ⟨5⟩) := ⟨.named "int", rfl⟩
    refine ⟨_, rfl, hbinds, ?_⟩
    intro h
    exact absurd (h _ hbinds) (by decide)
  · have hbinds : ((Binding.empty.bindTuple ⟨0⟩ [.packed ⟨5⟩]).bindTuple ⟨5⟩ [.named "int"]).Binds
        (.tuple ⟨5⟩) := ⟨[.named "int"], rfl⟩
    refine ⟨_, rfl, hbinds, ?_⟩
    intro h
    exact absurd (h _ hbinds) (by decide)

end Polyadic
