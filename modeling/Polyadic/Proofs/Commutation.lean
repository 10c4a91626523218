import Polyadic.Proofs.Carrying

/-! # Expanding open types

A type with open variables may be expanded before they are filled in or after.  Both come to the
same if no alias is bound in between to a spliced form as if that were a single type
(`expandReferences_subst`).  Two expansions are followed side by side: that of the open type, and
that of the filled in type.  Wherever they are, what the first one returns becomes what the second one
returns (`becomes_of_instantiate`). -/

namespace Polyadic

open Attempt

/-! ### Plain events -/

/-- The name of the alias whose parameters an event has bound, and what they are bound to. -/
def Event.expansion? : Event → Option (String × Binding)
  | .expandAlias name _ _ b => some (name, b)
  | _ => none

/-- If an event has bound the parameters of an alias, then as if every argument were a single
type. -/
def Event.IsPlain (scope : Scope) (e : Event) : Prop :=
  ∀ p ∈ e.expansion?, ∀ a ∈ scope.find? p.1, a.BindsPlainly p.2

instance (scope : Scope) : DecidablePred (Event.IsPlain scope) := fun e =>
  inferInstanceAs (Decidable (∀ p ∈ e.expansion?, ∀ a ∈ scope.find? p.1, a.BindsPlainly p.2))

namespace Setting

variable {S : Setting}

/-! ### Linked nodes -/

section linked

open TypeExpr

variable {b c : Binding} {t : TypeExpr}

/-- The variable of a node is linked.  If the node is the variable, then it is bound to a single
type; and if the node is a spliced map, then sequences are bound to single types. -/
structure LinkedAt (S : Setting) (b c : Binding) (n : TypeExpr) : Prop where
  linked : ∀ x, n.Owns x → S.Linked b c x
  scalars : ∀ v, n = .var v → ∀ t, b.scalar? v = some t → t.isSpliced = false
  maps : n.isMap = true →
    ∀ ts contents, b.tuple? ts = some contents → ∀ t ∈ contents, t.isSpliced = false

theorem LinkedAt.isSpliced_fill (h : S.LinkedAt b c t) : (t.fill b).isSpliced = false := by
  cases t with
  | var v =>
    obtain ⟨t, t', ht, -, -⟩ := h.linked (.scalar v) rfl
    simpa [fill, ht] using h.scalars v rfl t ht
  | packed ts | spread ts | spreadMap ctor ts =>
    obtain ⟨xs, ys, hxs, -, -⟩ := h.linked (.tuple ts) rfl
    simp [fill, hxs, tuple, isSpliced]
  | named | apply | union | arrow => rfl

end linked

/-! ### Two expansions side by side -/

/-- Two ways to expand aliases.  What the first one returns becomes what the second one returns, if
the arguments of the first become those of the second. -/
structure Pair (S : Setting) where
  first : Alias → List TypeExpr → Attempt TypeExpr
  second : Alias → List TypeExpr → Attempt TypeExpr
  settles : ∀ a args, (first a args).Meets S.scope.Settled fun _ => True
  becomes : ∀ name a, S.scope.find? name = some a → ∀ args args' t t',
    (∀ u ∈ args, S.scope.Settled u) → S.BecomeAll args args' →
      (first a args).Yields (Event.IsPlain S.scope) t → (second a args').result = .ok t' →
        t.isSpliced = false ∧ S.Becomes t t'

namespace Pair

variable (P : S.Pair)

/-- When both types have been expanded, the first becomes the second, and a single type comes of a
single type. -/
def Agree (t t' : TypeExpr) : Prop :=
  ∀ x x', (t.replaceReferences (S.scope.replace P.first)).Yields (Event.IsPlain S.scope) x →
    (t'.replaceReferences (S.scope.replace P.second)).result = .ok x' →
      (t.isSpliced = false → x.isSpliced = false) ∧ S.Becomes x x'

/-- When the types of both lists have been expanded, the first ones become the second ones. -/
def AgreeAll (ts ts' : List TypeExpr) : Prop :=
  ∀ xs xs', (TypeExpr.replaceAll (S.scope.replace P.first) ts).Yields (Event.IsPlain S.scope) xs →
    (TypeExpr.replaceAll (S.scope.replace P.second) ts').result = .ok xs' → S.BecomeAll xs xs'

section congruence

open TypeExpr

variable {P : S.Pair} {t t' head head' : TypeExpr} {ts ts' us us' : List TypeExpr}

theorem settled_of_first {x : TypeExpr}
    (h : (t.replaceReferences (S.scope.replace P.first)).Yields (Event.IsPlain S.scope) x) :
    S.scope.Settled x :=
  (settles_of_replaceReferences P.first fun _ _ a _ args _ => P.settles a args).of_ok h.1

theorem settledAll_of_first {xs : List TypeExpr}
    (h : (replaceAll (S.scope.replace P.first) ts).Yields (Event.IsPlain S.scope) xs) :
    ∀ x ∈ xs, S.scope.Settled x :=
  forall_of_forall₂ <| (meets_replaceAll fun _ _ =>
    settles_of_replaceReferences P.first fun _ _ a _ args _ => P.settles a args).of_ok h.1

/-! #### Lists -/

theorem agreeAll_nil : P.AgreeAll [] [] := by
  intro xs xs' hxs hxs'
  rw [replaceAll, yields_pure] at hxs
  rw [replaceAll, result_pure, Except.ok.injEq] at hxs'
  rw [hxs, ← hxs']
  exact becomeAll_nil.2 rfl

theorem agreeAll_cons (ht : t.isSpliced = false) (h : P.Agree t t') (hs : P.AgreeAll ts ts') :
    P.AgreeAll (t :: ts) (t' :: ts') := by
  intro xs xs' hxs hxs'
  simp only [replaceAll, yields_bind, yields_pure] at hxs
  obtain ⟨y, hy, ys, hys, rfl⟩ := hxs
  simp only [replaceAll, result_bind_eq_ok_iff, result_pure, Except.ok.injEq] at hxs'
  obtain ⟨y', hy', ys', hys', rfl⟩ := hxs'
  obtain ⟨hsingle, hbecomes⟩ := h y y' hy hy'
  exact (becomeAll_cons (hsingle ht)).2 ⟨y', ys', hbecomes, hs ys ys' hys hys', rfl⟩

/-- Settled types stay as they are, on both sides. -/
theorem agreeAll_of_settled (hs : ∀ t ∈ ts, S.scope.Settled t) (hs' : ∀ t ∈ ts', S.scope.Settled t)
    (h : S.BecomeAll ts ts') : P.AgreeAll ts ts' := by
  intro xs xs' hxs hxs'
  rw [replaceAll_of_forall fun t ht => replaceReferences_of_settled (hs t ht), yields_pure] at hxs
  rw [replaceAll_of_forall fun t ht => replaceReferences_of_settled (hs' t ht), result_pure,
    Except.ok.injEq] at hxs'
  rwa [hxs, ← hxs']

theorem agreeAll_append (h : P.AgreeAll ts ts') (hs : P.AgreeAll us us') :
    P.AgreeAll (ts ++ us) (ts' ++ us') := by
  intro xs xs' hxs hxs'
  simp only [replaceAll_append, yields_bind, yields_pure] at hxs
  obtain ⟨ys, hys, zs, hzs, rfl⟩ := hxs
  simp only [replaceAll_append, result_bind_eq_ok_iff, result_pure, Except.ok.injEq] at hxs'
  obtain ⟨ys', hys', zs', hzs', rfl⟩ := hxs'
  exact becomeAll_append.2 ⟨ys', zs', h ys ys' hys hys', hs zs zs' hzs hzs', rfl⟩

/-! #### Types -/

theorem agree_of_settled (ht : S.scope.Settled t) (ht' : S.scope.Settled t')
    (h : S.Becomes t t') : P.Agree t t' := by
  intro x x' hx hx'
  rw [replaceReferences_of_settled ht, yields_pure] at hx
  rw [replaceReferences_of_settled ht', result_pure, Except.ok.injEq] at hx'
  subst hx hx'
  exact ⟨id, h⟩

/-- A name agrees with itself, whether or not it is that of an alias. -/
theorem agree_named (name : String) : P.Agree (.named name) (.named name) := by
  intro x x' hx hx'
  cases hfind : S.scope.find? name with
  | none =>
    have hsettled : S.scope.Settled (.named name) := by simpa [Scope.Settled] using hfind
    exact agree_of_settled hsettled hsettled ((becomes_named hfind).2 rfl) x x' hx hx'
  | some a =>
    rw [replaceReferences_named hfind] at hx hx'
    obtain ⟨hsingle, hbecomes⟩ :=
      P.becomes name a hfind [] [] x x' (by simp) (becomeAll_nil.2 rfl) hx hx'
    exact ⟨fun _ => hsingle, hbecomes⟩

/-- No constructor is the name of an alias. -/
theorem agree_apply (hhead : ∀ name, head = .named name → S.scope.find? name = none)
    (hhead' : ∀ name, head' = .named name → S.scope.find? name = none)
    (h : P.Agree head head') (hs : P.AgreeAll ts ts') :
    P.Agree (.apply head ts) (.apply head' ts') := by
  intro x x' hx hx'
  simp only [replaceReferences_apply hhead, yields_bind, yields_pure] at hx
  obtain ⟨ys, hys, y, hy, rfl⟩ := hx
  simp only [replaceReferences_apply hhead', result_bind_eq_ok_iff, result_pure,
    Except.ok.injEq] at hx'
  obtain ⟨ys', hys', y', hy', rfl⟩ := hx'
  refine ⟨fun _ => rfl, (becomes_apply (settled_of_first hy)).2 ?_⟩
  exact ⟨y', ys', (h y y' hy hy').2, hs ys ys' hys hys', rfl⟩

/-- A name applied to arguments, whether or not it is that of an alias. -/
theorem agree_apply_named (name : String) (hs : P.AgreeAll ts ts') :
    P.Agree (.apply (.named name) ts) (.apply (.named name) ts') := by
  cases hfind : S.scope.find? name with
  | none =>
    have hname : ∀ n, TypeExpr.named name = .named n → S.scope.find? n = none := by
      rintro n heq
      cases heq
      exact hfind
    exact agree_apply hname hname (agree_named name) hs
  | some a =>
    intro x x' hx hx'
    rw [replaceReferences_apply_named hfind, yields_bind] at hx
    obtain ⟨ys, hys, hx⟩ := hx
    rw [replaceReferences_apply_named hfind, result_bind_eq_ok_iff] at hx'
    obtain ⟨ys', hys', hx'⟩ := hx'
    obtain ⟨hsingle, hbecomes⟩ := P.becomes name a hfind ys ys' x x' (settledAll_of_first hys)
      (hs ys ys' hys hys') hx hx'
    exact ⟨fun _ => hsingle, hbecomes⟩

theorem agree_union (hs : P.AgreeAll ts ts') : P.Agree (.union ts) (.union ts') := by
  intro x x' hx hx'
  simp only [replaceReferences, yields_bind, yields_pure] at hx
  obtain ⟨ys, hys, rfl⟩ := hx
  simp only [replaceReferences, result_bind_eq_ok_iff, result_pure, Except.ok.injEq] at hx'
  obtain ⟨ys', hys', rfl⟩ := hx'
  exact ⟨fun _ => rfl, becomes_union.2 ⟨ys', hs ys ys' hys hys', rfl⟩⟩

theorem agree_arrow (hs : P.AgreeAll ts ts') (h : P.Agree t t') :
    P.Agree (.arrow ts t) (.arrow ts' t') := by
  intro x x' hx hx'
  simp only [replaceReferences, yields_bind, yields_pure] at hx
  obtain ⟨ys, hys, y, hy, rfl⟩ := hx
  simp only [replaceReferences, result_bind_eq_ok_iff, result_pure, Except.ok.injEq] at hx'
  obtain ⟨ys', hys', y', hy', rfl⟩ := hx'
  exact ⟨fun _ => rfl, becomes_arrow.2 ⟨ys', y', hs ys ys' hys hys', (h y y' hy hy').2, rfl⟩⟩

end congruence

/-! ### Filled in types -/

section filling

open TypeExpr

variable {P : S.Pair} {b c : Binding} {Q : TypeExpr → Prop}

theorem agree_apply_fill {head : TypeExpr} {ts ts' : List TypeExpr} (hb : b.Settled S.scope)
    (hc : c.Settled S.scope) (h : P.Agree (head.fill b) (head.fill c)) (hs : P.AgreeAll ts ts') :
    P.Agree (.apply (head.fill b) ts) (.apply (head.fill c) ts') := by
  rcases named_or_fill hb head with ⟨name, rfl⟩ | hfill
  · exact agree_apply_named name hs
  · rcases named_or_fill hc head with ⟨name, rfl⟩ | hfill'
    · exact agree_apply_named name hs
    · exact agree_apply hfill hfill' h hs

/-- What a type is filled to under two bindings agrees if what its variables and spliced forms are
filled to does. -/
theorem agree_fill (hb : b.Settled S.scope) (hc : c.Settled S.scope)
    (hsingle : ∀ t : TypeExpr, t.Everywhere Q → t.isSpliced = false →
      (t.fill b).isSpliced = false)
    (hvar : ∀ v, Q (.var v) → P.Agree ((var v).fill b) ((var v).fill c))
    (hpacked : ∀ ts, Q (.packed ts) → P.Agree ((packed ts).fill b) ((packed ts).fill c))
    (hspread : ∀ ts, Q (.spread ts) → P.Agree ((spread ts).fill b) ((spread ts).fill c) ∧
      P.AgreeAll ((Slot.spread ts).fill b) ((Slot.spread ts).fill c))
    (hmapped : ∀ ctor ts, Q (.spreadMap ctor ts) → P.Agree (ctor.fill b) (ctor.fill c) →
      P.Agree ((spreadMap ctor ts).fill b) ((spreadMap ctor ts).fill c) ∧
        P.AgreeAll ((Slot.mapped ctor ts).fill b) ((Slot.mapped ctor ts).fill c))
    {t : TypeExpr} (ht : t.Everywhere Q) : P.Agree (t.fill b) (t.fill c) := by
  have row {ts : List TypeExpr} (hts : ∀ t ∈ ts, t.Everywhere Q)
      (ih : ∀ s ∈ ts.map Slot.ofType, ∀ t ∈ s.inner?, t.Everywhere Q →
        P.Agree (t.fill b) (t.fill c)) : P.AgreeAll (fillAll b ts) (fillAll c ts) := by
    induction ts with
    | nil => exact agreeAll_nil
    | cons t ts hrest =>
      have hrest := hrest (fun u hu => hts u (by simp [hu])) fun s hs => ih s (by simp_all)
      -- A single type fills one place of the list, a spliced one may fill any number.
      have hslot : P.AgreeAll ((Slot.ofType t).fill b) ((Slot.ofType t).fill c) := by
        have ht := hts t (by simp)
        have ih := ih (Slot.ofType t) (by simp)
        cases hspliced : t.isSpliced with
        | false =>
          rw [Slot.ofType_eq_single hspliced] at ih ⊢
          exact agreeAll_cons (hsingle t ht hspliced) (ih t rfl ht) agreeAll_nil
        | true =>
          cases t with
          | spread us => exact (hspread us (everywhere_spread.1 ht)).2
          | spreadMap ctor us =>
            obtain ⟨hnode, hctor⟩ := everywhere_spreadMap.1 ht
            exact (hmapped ctor us hnode (ih ctor rfl hctor)).2
          | _ => cases hspliced
      rw [fillAll_eq_flatMap, fillAll_eq_flatMap] at hrest ⊢
      exact agreeAll_append hslot hrest
  induction t using inductSlots with
  | named name => exact agree_named name
  | var v => exact hvar v (everywhere_var.1 ht)
  | packed ts => exact hpacked ts (everywhere_packed.1 ht)
  | spread ts => exact (hspread ts (everywhere_spread.1 ht)).1
  | spreadMap ctor ts ih =>
    obtain ⟨hnode, hctor⟩ := everywhere_spreadMap.1 ht
    exact (hmapped ctor ts hnode (ih hctor)).1
  | apply head args hhead hargs =>
    obtain ⟨-, hh, ha⟩ := everywhere_apply.1 ht
    exact agree_apply_fill hb hc (hhead hh) (row ha hargs)
  | union members hmembers => exact agree_union (row (everywhere_union.1 ht).2 hmembers)
  | arrow params result hparams hresult =>
    obtain ⟨-, hp, hr⟩ := everywhere_arrow.1 ht
    exact agree_arrow (row hp hparams) (hresult hr)

end filling

/-! ### Linked bindings -/

section linked

open TypeExpr

variable {P : S.Pair} {b c : Binding} {t : TypeExpr}

theorem agreeAll_mapOver {head head' : TypeExpr} {xs ys : List TypeExpr}
    (happly : ∀ ts ts', P.AgreeAll ts ts' → P.Agree (.apply head ts) (.apply head' ts'))
    (hsingle : ∀ x ∈ xs, x.isSpliced = false) (hxs : ∀ x ∈ xs, S.scope.Settled x)
    (hys : ∀ y ∈ ys, S.scope.Settled y) (h : S.BecomeAll xs ys) :
    P.AgreeAll (mapOver head xs) (mapOver head' ys) := by
  induction xs generalizing ys with
  | nil =>
    rw [becomeAll_nil.1 h]
    exact agreeAll_nil
  | cons x xs ih =>
    rw [List.forall_mem_cons] at hsingle hxs
    obtain ⟨y, ys, hy, hrest, rfl⟩ := (becomeAll_cons hsingle.1).1 h
    rw [List.forall_mem_cons] at hys
    have harg : P.AgreeAll [x] [y] :=
      agreeAll_cons hsingle.1 (agree_of_settled hxs.1 hys.1 hy) agreeAll_nil
    exact agreeAll_cons rfl (happly [x] [y] harg) (ih hsingle.2 hxs.2 hys.2 hrest)

/-- What a type is filled to under linked bindings agrees. -/
theorem agree_fill_of_linked (hb : b.Settled S.scope) (hc : c.Settled S.scope)
    (ht : t.Everywhere (S.LinkedAt b c)) : P.Agree (t.fill b) (t.fill c) := by
  refine agree_fill hb hc (fun t ht _ => ht.self.isSpliced_fill) ?var ?packed ?spread ?mapped ht
  case var =>
    intro v h
    obtain ⟨t, t', ht, ht', hbecomes⟩ := h.linked (.scalar v) rfl
    rw [fill, fill, ht, ht']
    exact agree_of_settled (hb.scalars v t ht) (hc.scalars v t' ht') hbecomes
  case packed =>
    intro ts h
    obtain ⟨xs, ys, hxs, hys, hbecome⟩ := h.linked (.tuple ts) rfl
    rw [fill, fill, hxs, hys]
    exact agree_apply_named tupleName
      (agreeAll_of_settled (hb.tuples ts xs hxs) (hc.tuples ts ys hys) hbecome)
  case spread =>
    intro ts h
    obtain ⟨xs, ys, hxs, hys, hbecome⟩ := h.linked (.tuple ts) rfl
    have hall : P.AgreeAll xs ys :=
      agreeAll_of_settled (hb.tuples ts xs hxs) (hc.tuples ts ys hys) hbecome
    rw [fill, fill, Slot.fill, Slot.fill, hxs, hys]
    exact ⟨agree_apply_named tupleName hall, hall⟩
  case mapped =>
    intro ctor ts h hctor
    obtain ⟨xs, ys, hxs, hys, hbecome⟩ := h.linked (.tuple ts) rfl
    have hall : P.AgreeAll (mapOver (ctor.fill b) xs) (mapOver (ctor.fill c) ys) :=
      agreeAll_mapOver (fun _ _ => agree_apply_fill hb hc hctor) (h.maps rfl ts xs hxs)
        (hb.tuples ts xs hxs) (hc.tuples ts ys hys) hbecome
    rw [fill, fill, Slot.fill, Slot.fill, hxs, hys]
    exact ⟨agree_apply_named tupleName hall, hall⟩

end linked

end Pair

/-! ### Expansion of an alias -/

open TypeExpr in
/-- The body of an alias that binds its parameters plainly has linked nodes. -/
theorem linkedAt_body {a : Alias} {b c : Binding} (hbinds : a.BindsBody) (hplain : a.BindsPlainly b)
    (hlinked : ∀ x ∈ a.formal.binders, S.Linked b c x) : a.body.Everywhere (S.LinkedAt b c) := by
  have hmentions {n : TypeExpr} (hn : n ∈ a.body.nodes) {x : Variable} (hx : n.Owns x) :
      x ∈ a.formal.binders := hbinds x (mentions_iff.2 ⟨n, hn, hx⟩)
  intro n hn
  refine ⟨fun x hx => hlinked x (hmentions hn hx), ?_, ?_⟩
  · rintro v rfl
    exact hplain.scalars v (hmentions hn rfl)
  · intro hmap
    rcases hplain.maps with hfree | hsingle
    · rw [hfree a.body List.mem_cons_self n hn] at hmap
      cases hmap
    · exact hsingle

/-- An expansion of an alias for open arguments becomes the expansion of it for what the arguments
become. -/
theorem becomes_of_instantiate {budget budget' : Nat} {stack stack' : List String} {name : String}
    {a : Alias} (hfind : S.scope.find? name = some a) {args args' : List TypeExpr} {t t' : TypeExpr}
    (hargs : ∀ u ∈ args, S.scope.Settled u) (h : S.BecomeAll args args')
    (ht : (instantiate S.scope budget stack a args).Yields (Event.IsPlain S.scope) t)
    (ht' : (instantiate S.scope budget' stack' a args').result = .ok t') :
    t.isSpliced = false ∧ S.Becomes t t' := by
  -- The first expansion sets the pace; the second may have more aliases on its stack, or fewer.
  induction budget generalizing budget' stack stack' name a args args' t t' with
  | zero =>
    obtain ⟨_, _, hbudget, -⟩ := exists_of_instantiate ht
    cases hbudget
  | succ budget ih =>
    obtain ⟨_, b, heq, hb, hplain, ht⟩ := exists_of_instantiate ht
    cases heq
    obtain ⟨budget', c, -, hc, -, ht'⟩ := exists_of_instantiate (yields_true_iff.2 ht')
    obtain rfl := S.scope.name_of_find? name a hfind
    have hplain : a.BindsPlainly b := hplain (a.name, b) rfl a hfind
    have hargs' : ∀ u ∈ args', S.scope.Settled u := h.settled
    have hlinked := linkedAt_body (S.bodies _ a hfind) hplain
      (linked_of_bindArguments hplain hargs h hb.1 hc.1)
    let P : S.Pair := {
      first := instantiate S.scope budget (stack ++ [a.name])
      second := instantiate S.scope budget' (stack' ++ [a.name])
      settles := fun _ _ => settled_of_instantiate
      becomes := fun _ _ hfind _ _ _ _ hargs h ht ht' => ih hfind hargs h ht ht' }
    have hagree : P.Agree (a.body.fill b) (a.body.fill c) :=
      P.agree_fill_of_linked ((settled_of_bindArguments a hargs).of_ok hb.1)
        ((settled_of_bindArguments a hargs').of_ok hc.1) hlinked
    obtain ⟨hsingle, hbecomes⟩ := hagree t t' ht (yields_true_iff.1 ht')
    exact ⟨hsingle hlinked.self.isSpliced_fill, hbecomes⟩

/-! ### Expansion of an open type -/

/-- The references of a type are expanded alike before and after the variables are filled in. -/
def calls (S : Setting) : S.Pair where
  first := instantiate S.scope S.depth []
  second := instantiate S.scope S.depth []
  settles _ _ := settled_of_instantiate
  becomes _ _ hfind _ _ _ _ hargs h ht ht' := becomes_of_instantiate hfind hargs h ht ht'

section opened

open TypeExpr

variable {t t' head head' : TypeExpr} {ts ts' : List TypeExpr}

theorem agree_of_unreplaced (h : t.replaceReferences (S.scope.replace S.calls.first) = pure t) :
    S.calls.Agree t (t.fill S.values) := by
  intro x x' hx hx'
  rw [h, yields_pure] at hx
  subst hx
  exact ⟨id, hx'⟩

theorem agreeAll_of_unreplaced (h : t.replaceReferences (S.scope.replace S.calls.first) = pure t) :
    S.calls.AgreeAll [t] (fillAll S.values [t]) := by
  intro xs xs' hxs hxs'
  have hlist : replaceAll (S.scope.replace S.calls.first) [t] = pure [t] :=
    replaceAll_of_forall (List.forall_mem_singleton.2 h)
  rw [hlist, yields_pure] at hxs
  subst hxs
  exact hxs'

/-- A constructor that is expanded, when another one is, to the same type; neither is a name in
scope. -/
structure ExpandsLike (S : Setting) (head head' : TypeExpr) : Prop where
  unnamed : ∀ name, head = .named name → S.scope.find? name = none
  unnamed' : ∀ name, head' = .named name → S.scope.find? name = none
  result : ∀ x, (expandReferences S.scope S.depth head).result = .ok x →
    (expandReferences S.scope S.depth head').result = .ok x

theorem ExpandsLike.spreadMap (h : S.ExpandsLike head head') {vs : TupleVar}
    (ht : (expandReferences S.scope S.depth (.spreadMap head vs)).result = .ok t) :
    (expandReferences S.scope S.depth (.spreadMap head' vs)).result = .ok t := by
  rw [expandReferences_eq, replaceReferences_spreadMap h.unnamed, result_bind_eq_ok_iff] at ht
  rw [expandReferences_eq, replaceReferences_spreadMap h.unnamed', result_bind_eq_ok_iff]
  obtain ⟨x, hx, ht⟩ := ht
  exact ⟨x, h.result x hx, ht⟩

theorem ExpandsLike.apply (h : S.ExpandsLike head head')
    (ht : (expandReferences S.scope S.depth (.apply head ts)).result = .ok t) :
    (expandReferences S.scope S.depth (.apply head' ts)).result = .ok t := by
  rw [expandReferences_eq, replaceReferences_apply h.unnamed] at ht
  rw [expandReferences_eq, replaceReferences_apply h.unnamed']
  simp only [result_bind_eq_ok_iff] at ht ⊢
  obtain ⟨args, hargs, x, hx, ht⟩ := ht
  exact ⟨args, hargs, x, h.result x hx, ht⟩

theorem ExpandsLike.mapOver (h : S.ExpandsLike head head')
    (hts' : (expandAll S.scope S.depth (mapOver head ts)).result = .ok ts') :
    (expandAll S.scope S.depth (mapOver head' ts)).result = .ok ts' := by
  induction ts generalizing ts' with
  | nil => exact hts'
  | cons t ts ih =>
    simp only [expandAll, TypeExpr.mapOver, List.map_cons, replaceAll, result_bind_eq_ok_iff]
      at hts' ⊢
    obtain ⟨x, hx, ys, hys, hts'⟩ := hts'
    exact ⟨x, h.apply hx, ys, ih hys, hts'⟩

/-- A wrapped tuple is expanded to the same if its elements are. -/
theorem result_tuple_of_elements
    (h : ∀ xs, (expandAll S.scope S.depth ts).result = .ok xs →
      (expandAll S.scope S.depth ts').result = .ok xs)
    (ht : (expandReferences S.scope S.depth (.tuple ts)).result = .ok t) :
    (expandReferences S.scope S.depth (.tuple ts')).result = .ok t := by
  rw [expandReferences, tuple, replaceReferences, result_bind_eq_ok_iff] at ht ⊢
  obtain ⟨xs, hxs, ht⟩ := ht
  exact ⟨xs, h xs hxs, ht⟩

/-- A spliced map whose constructor is no name in scope is expanded before its variables are filled
in or after. -/
theorem agree_spreadMap {ctor : TypeExpr} {ts : TupleVar}
    (hctor : ∀ name, ctor = .named name → S.scope.find? name = none)
    (h : S.calls.Agree ctor (ctor.fill S.values)) :
    S.calls.Agree (.spreadMap ctor ts) ((spreadMap ctor ts).fill S.values) ∧
      S.calls.AgreeAll [.spreadMap ctor ts] (fillAll S.values [.spreadMap ctor ts]) := by
  have hfill : ∀ name, ctor.fill S.values = .named name → S.scope.find? name = none := by
    rcases named_or_fill S.settled ctor with ⟨name, rfl⟩ | hfill
    · exact hctor
    · exact hfill
  have hfirst {x : TypeExpr} (hx : ((spreadMap ctor ts).replaceReferences
      (S.scope.replace S.calls.first)).Yields (Event.IsPlain S.scope) x) :
      ∃ k, x = .spreadMap k ts ∧ S.ExpandsLike (ctor.fill S.values) (k.fill S.values) := by
    simp only [replaceReferences_spreadMap hctor, yields_bind, yields_pure] at hx
    obtain ⟨k, hk, rfl⟩ := hx
    exact ⟨k, rfl, hfill, fun _ => find?_of_fill (Pair.settled_of_first hk),
      fun k' hk' => (h k k' hk hk').2⟩
  constructor
  · intro x x' hx hx'
    obtain ⟨k, rfl, hlike⟩ := hfirst hx
    refine ⟨id, ?_⟩
    rw [Becomes]
    cases hts : S.values.tuple? ts with
    | none =>
      rw [fill, hts] at hx' ⊢
      exact hlike.spreadMap hx'
    | some contents =>
      rw [fill, hts] at hx' ⊢
      exact result_tuple_of_elements (fun _ => hlike.mapOver) hx'
  · intro xs xs' hxs hxs'
    simp only [replaceAll, yields_bind, yields_pure] at hxs
    obtain ⟨_, hx, _, rfl, rfl⟩ := hxs
    obtain ⟨k, rfl, hlike⟩ := hfirst hx
    rw [BecomeAll]
    cases hts : S.values.tuple? ts with
    | none =>
      rw [fillAll, hts] at hxs' ⊢
      simp only [expandAll, fillAll, Option.map_none, Option.getD_none, List.append_nil,
        replaceAll, result_bind_eq_ok_iff] at hxs' ⊢
      obtain ⟨y, hy, hxs'⟩ := hxs'
      exact ⟨y, hlike.spreadMap hy, hxs'⟩
    | some contents =>
      rw [fillAll, hts, fillAll, Option.map_some, Option.getD_some, List.append_nil] at hxs' ⊢
      exact hlike.mapOver hxs'

/-- What an open type is expanded to becomes what the filled in type is expanded to. -/
theorem becomes_of_expandReferences
    (ht : (expandReferences S.scope S.depth t).Yields (Event.IsPlain S.scope) t')
    {t₁ : TypeExpr} (ht₁ : (expandReferences S.scope S.depth (t.fill S.values)).result = .ok t₁) :
    S.Becomes t' t₁ := by
  have hagree : S.calls.Agree (t.fill .empty) (t.fill S.values) := by
    refine Pair.agree_fill (Q := fun _ => True) Binding.settled_empty S.settled ?single ?var
      ?packed ?spread ?mapped fun _ _ => trivial
    case single =>
      intro t _ ht
      rwa [fill_empty]
    case var =>
      intro v _
      rw [fill_empty]
      exact agree_of_unreplaced (by rw [replaceReferences])
    case packed =>
      intro ts _
      rw [fill_empty]
      exact agree_of_unreplaced (by rw [replaceReferences])
    case spread =>
      intro ts _
      have hwaits : (spread ts).replaceReferences (S.scope.replace S.calls.first) =
          pure (.spread ts) := by rw [replaceReferences]
      have hall := agreeAll_of_unreplaced hwaits
      rw [fillAll_eq_flatMap] at hall
      rw [fill_empty]
      exact ⟨agree_of_unreplaced hwaits, by simpa [Slot.ofType, Slot.fill] using hall⟩
    case mapped =>
      intro ctor ts _ h
      rw [fill_empty] at h ⊢
      have hboth : S.calls.Agree (.spreadMap ctor ts) ((spreadMap ctor ts).fill S.values) ∧
          S.calls.AgreeAll [.spreadMap ctor ts] (fillAll S.values [.spreadMap ctor ts]) := by
        rcases named_in_scope_or S.scope ctor with ⟨name, -, rfl, -⟩ | hctor
        · have hwaits : (spreadMap (.named name) ts).replaceReferences
              (S.scope.replace S.calls.first) = pure (.spreadMap (.named name) ts) := by
            rw [replaceReferences]
          exact ⟨agree_of_unreplaced hwaits, agreeAll_of_unreplaced hwaits⟩
        · exact agree_spreadMap hctor h
      rw [fillAll_eq_flatMap] at hboth
      simpa [Slot.ofType, Slot.fill] using hboth
  rw [fill_empty] at hagree
  exact (hagree t' t₁ ht ht₁).2

end opened

end Setting

/-! ### Expansion and substitution -/

/-- A type with open variables is expanded before or after these are replaced by ground types without
references, and comes to the same: if the first expansion binds no parameters of an alias to spliced
forms where the alias takes single types, then the two ways have the same expansion.  They have the
same outcome if nothing is left to expand; a lone alias as the constructor of a spliced map is not
expanded before the tuple variable is replaced. -/
theorem expandReferences_subst (d : Declarations) (hbodies : d.scope.BindsBodies) {depth : Nat}
    {s : Binding} (hground : s.IsGround) (hsettled : s.Settled d.scope) {t e x t' y : TypeExpr}
    (he : (expandReferences d.scope depth t).result = .ok e)
    (hplain : ∀ event ∈ (expandReferences d.scope depth t).events, event.IsPlain d.scope)
    (hx : e.subst s = .ok x) (ht' : t.subst s = .ok t')
    (hy : (expandReferences d.scope depth t').result = .ok y) :
    (expandReferences d.scope depth x).result = .ok y ∧ (d.scope.Settled x → x = y) := by
  obtain rfl := TypeExpr.fill_of_subst hx
  obtain rfl := TypeExpr.fill_of_subst ht'
  let S : Setting := ⟨d.scope, depth, s, hbodies, hground, hsettled⟩
  have hbecomes : S.Becomes e y := Setting.becomes_of_expandReferences ⟨he, hplain⟩ hy
  refine ⟨hbecomes, fun hdone => ?_⟩
  have hsame : (expandReferences d.scope depth (e.fill s)).result = .ok (e.fill s) := by
    rw [expandReferences_of_settled depth hdone, result_pure]
  exact Except.ok.inj (hsame.symm.trans hbecomes)

/-- A table with `Box[T0] = list[T0]`, `Row[*Ts0] = tuple[*Map[Box, Ts0]]` and
`Entry[T0, *Ts0] = dict[Row[T0, Box[T0]], *Ts0]`. -/
def entryAlias : Declarations :=
  Declarations.empty.declareAll [
    .template ⟨"Box", ⟨[.single (.var ⟨0⟩)]⟩, .apply (.named "list") [.var ⟨0⟩]⟩,
    .template ⟨"Row", ⟨[.spread ⟨0⟩]⟩, .tuple [.spreadMap (.named "Box") ⟨0⟩]⟩,
    .template ⟨"Entry", ⟨[.single (.var ⟨0⟩), .spread ⟨0⟩]⟩, .apply (.named "dict")
      [.apply (.named "Row") [.var ⟨0⟩, .apply (.named "Box") [.var ⟨0⟩]], .spread ⟨0⟩]⟩]

/-- What `Entry[t, *ts, int]` comes to. -/
def entryType (t : TypeExpr) (ts : List TypeExpr) : TypeExpr :=
  let box (t : TypeExpr) : TypeExpr := .apply (.named "list") [t]
  .apply (.named "dict") (.tuple [box t, box (box t)] :: ts ++ [.named "int"])

/-- `Entry[T1, *Ts1, int]`, and `Entry[str, bool, bytes, int]`. -/
theorem expandReferences_subst_entryAlias :
    (expandReferences entryAlias.scope 3 (.apply (.named "Entry")
        [.var ⟨1⟩, .spread ⟨1⟩, .named "int"])).result =
      .ok (entryType (.var ⟨1⟩) [.spread ⟨1⟩]) ∧
    (expandReferences entryAlias.scope 3
        (entryType (.named "str") [.named "bool", .named "bytes"])).result =
      .ok (entryType (.named "str") [.named "bool", .named "bytes"]) :=
  ⟨rfl, (@expandReferences_subst entryAlias (by decide) 3
    ((Binding.empty.bindScalar ⟨1⟩ (.named "str")).bindTuple ⟨1⟩ [.named "bool", .named "bytes"])
    (by decide) (by decide) (.apply (.named "Entry") [.var ⟨1⟩, .spread ⟨1⟩, .named "int"])
    (entryType (.var ⟨1⟩) [.spread ⟨1⟩]) _ _ _ rfl (by decide) rfl rfl rfl).1⟩

/-- `Id[*Ts0]` comes to `*Ts0` for `Id[T0] = T0`, which is a wrapped tuple when `Ts0` is replaced. -/
theorem expandReferences_subst_spliced :
    let d := Declarations.empty.declareAll [.template ⟨"Id", ⟨[.single (.var ⟨0⟩)]⟩, .var ⟨0⟩⟩]
    let s := Binding.empty.bindTuple ⟨0⟩ [.named "int"]
    d.scope.BindsBodies ∧ s.IsGround ∧ s.Settled d.scope ∧
      (expandReferences d.scope 64 (.apply (.named "Id") [.spread ⟨0⟩])).result =
        .ok (.spread ⟨0⟩) ∧
      (TypeExpr.spread ⟨0⟩).subst s = .ok (.tuple [.named "int"]) ∧
      (TypeExpr.apply (.named "Id") [.spread ⟨0⟩]).subst s =
        .ok (.apply (.named "Id") [.named "int"]) ∧
      (expandReferences d.scope 64 (.apply (.named "Id") [.named "int"])).result =
        .ok (.named "int") ∧
      TypeExpr.tuple [.named "int"] ≠ .named "int" :=
  ⟨by decide, by decide, by decide, rfl, rfl, rfl, rfl, by decide⟩

end Polyadic
