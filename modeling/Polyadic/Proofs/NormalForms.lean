import Polyadic.Proofs.Recursion

/-! # Expanded types

Expansion returns settled types, whatever it is given (`settled_of_instantiate`), and it leaves a
settled type as it is (`replaceReferences_of_settled`).  So a type that has been expanded is expanded
to itself, at any depth (`expansion_normal`).

An alias can be expanded for its arguments, or its name applied to them can.  The second expands the
arguments first (`expandReferences_apply`), so both do the same where there is nothing to expand in
the arguments, and not in general: the first takes an argument that refers to the alias for a
recursion of the alias (`expandAlias_nested`). -/

namespace Polyadic

open Attempt

/-! ### Settled types stay as they are -/

section settled

variable {scope : Scope} {expand : Alias → List TypeExpr → Attempt TypeExpr}

theorem replaceAll_of_forall {replace : String → List TypeExpr → Option (Attempt TypeExpr)}
    {types : List TypeExpr} (h : ∀ t ∈ types, t.replaceReferences replace = pure t) :
    TypeExpr.replaceAll replace types = pure types := by
  induction types with
  | nil => rw [TypeExpr.replaceAll]
  | cons t types ih =>
    rw [TypeExpr.replaceAll, h t (by simp), pure_bind, ih fun u hu => h u (by simp [hu]), pure_bind]

/-- A name that is not in scope is not replaced. -/
theorem replace_of_settled {name : String} (args : List TypeExpr)
    (h : scope.Settled (.named name)) : scope.replace expand name args = none := by
  rw [Scope.replace, h name (by simp), Option.map_none]

/-- There is nothing to replace in a settled type. -/
theorem replaceReferences_of_settled {t : TypeExpr} (h : scope.Settled t) :
    t.replaceReferences (scope.replace expand) = pure t := by
  induction t using TypeExpr.induct with
  | named name => rw [TypeExpr.replaceReferences, replace_of_settled [] h, Option.getD_none]
  | var | packed | spread => rw [TypeExpr.replaceReferences]
  | spreadMap ctor ts ih =>
    cases ctor with
    | named name => rw [TypeExpr.replaceReferences]
    | _ =>
      rw [TypeExpr.replaceReferences, ih, pure_bind]
      · simpa only [Scope.Settled, TypeExpr.references] using h
      · simp
  | apply head args hhead hargs =>
    have hargs := replaceAll_of_forall fun t ht => hargs t ht fun name hname =>
      h name (TypeExpr.mem_references_apply.2 (.inl ⟨t, ht, hname⟩))
    have hsettled : scope.Settled head := h.part List.mem_cons_self
    cases head with
    | named name =>
      rw [TypeExpr.replaceReferences, hargs, pure_bind, replace_of_settled args hsettled,
        Option.getD_none]
    | _ =>
      rw [TypeExpr.replaceReferences, hargs, pure_bind, hhead hsettled, pure_bind]
      simp
  | union members hmembers =>
    have hmembers := replaceAll_of_forall fun t ht => hmembers t ht (h.part ht)
    rw [TypeExpr.replaceReferences, hmembers, pure_bind]
  | arrow params result hparams hresult =>
    have hparams := replaceAll_of_forall fun t ht =>
      hparams t ht (h.part (List.mem_cons_of_mem _ ht))
    rw [TypeExpr.replaceReferences, hparams, pure_bind, hresult (h.part List.mem_cons_self),
      pure_bind]

/-! ### Expansion settles -/

/-- An alias is expanded by binding its parameters, filling them in in its body and replacing the
references there. -/
theorem exists_of_instantiate {Q : Event → Prop} {limit : Nat} {stack : List String} {a : Alias}
    {args : List TypeExpr} {t : TypeExpr} (h : (instantiate scope limit stack a args).Yields Q t) :
    ∃ budget b, limit = budget + 1 ∧ (a.bindArguments args).Yields Q b ∧
      Q (.expandAlias a.name a.formal args b) ∧ ((a.body.fill b).replaceReferences
        (scope.replace (instantiate scope budget (stack ++ [a.name])))).Yields Q t := by
  unfold instantiate at h
  split at h
  · simp [reportCycle, yields_bind] at h
  · cases limit with
    | zero => simp [reportCycle, yields_bind] at h
    | succ budget =>
      simp only [yields_bind, yields_log, yields_ofExcept] at h
      obtain ⟨b, hb, -, hevent, body, hbody, h⟩ := h
      obtain rfl := TypeExpr.fill_of_subst hbody
      exact ⟨budget, b, rfl, hb, hevent, h⟩

/-- An alias is expanded to a settled type, whatever its arguments are. -/
theorem settled_of_instantiate {budget : Nat} {stack : List String} {a : Alias}
    {args : List TypeExpr} :
    (instantiate scope budget stack a args).Meets scope.Settled fun _ => True := by
  refine meets_iff.2 ⟨fun t ht => ?_, fun _ _ => trivial⟩
  induction budget generalizing stack a args t with
  | zero =>
    obtain ⟨_, _, hlimit, -⟩ := exists_of_instantiate (yields_true_iff.2 ht)
    cases hlimit
  | succ budget ih =>
    obtain ⟨_, b, hlimit, -, -, ht⟩ := exists_of_instantiate (yields_true_iff.2 ht)
    cases hlimit
    have hsettles : ((a.body.fill b).replaceReferences
        (scope.replace (instantiate scope budget (stack ++ [a.name])))).Meets scope.Settled
          fun _ => True :=
      settles_of_replaceReferences _ fun _ _ _ _ _ _ =>
        meets_iff.2 ⟨fun _ hx => ih _ hx, fun _ _ => trivial⟩
    exact hsettles.of_ok ht.1

theorem settled_of_expandReferences {depth : Nat} {t : TypeExpr} :
    (expandReferences scope depth t).Meets scope.Settled fun _ => True :=
  settles_of_replaceReferences (instantiate scope depth []) fun _ _ _ _ _ _ =>
    settled_of_instantiate

theorem expandReferences_of_settled (depth : Nat) {t : TypeExpr} (h : scope.Settled t) :
    expandReferences scope depth t = pure t := replaceReferences_of_settled h

/-- What is settled with an alias in front of a scope is settled in the scope. -/
theorem Scope.Settled.of_push {a : Alias} {t : TypeExpr} (h : (scope.push a).Settled t) :
    scope.Settled t := by
  intro name hname
  have hnone : (if a.name = name then some a else scope.find? name) = none := h name hname
  split at hnone
  · cases hnone
  · exact hnone

end settled

/-- What an expansion returns is expanded to itself: whatever the scope, that of a table or an empty
one, whether the expanded alias is in scope or hides one of its name, and whatever the depths. -/
theorem expansion_normal (scope : Scope) (depth depth' : Nat) :
    (∀ a args t, (expandAlias scope depth a args).result = .ok t →
      expandReferences scope depth' t = pure t) ∧
    ∀ t t', (expandReferences scope depth t).result = .ok t' →
      expandReferences scope depth' t' = pure t' := by
  constructor
  · intro a args t h
    have hsettled : (scope.push a).Settled t := settled_of_instantiate.of_ok h
    exact expandReferences_of_settled depth' hsettled.of_push
  · intro t t' h
    exact expandReferences_of_settled depth' (settled_of_expandReferences.of_ok h)

/-- A table with `Box[T0] = list[T0]`. -/
def boxAlias : Declarations :=
  Declarations.empty.declareAll [.template ⟨"Box", ⟨[.single (.var ⟨0⟩)]⟩,
    .apply (.named "list") [.var ⟨0⟩]⟩]

/-- The constructor of `*Map[Box, Ts0]` waits until it is applied, here as in an alias that hides
`Box`. -/
theorem expansion_normal_boxAlias :
    expandReferences boxAlias.scope 0 (.union [.spreadMap (.named "Box") ⟨0⟩,
        .apply (.named "list") [.named "int"]]) =
      pure (.union [.spreadMap (.named "Box") ⟨0⟩, .apply (.named "list") [.named "int"]]) ∧
    expandReferences boxAlias.scope 1 (.apply (.named "set") [.spreadMap (.named "Box") ⟨0⟩]) =
      pure (.apply (.named "set") [.spreadMap (.named "Box") ⟨0⟩]) :=
  ⟨(expansion_normal boxAlias.scope 64 0).2 (.union [.spreadMap (.named "Box") ⟨0⟩,
      .apply (.named "Box") [.named "int"]]) _ rfl,
    (expansion_normal boxAlias.scope 64 1).1 ⟨"Box", ⟨[.spread ⟨1⟩]⟩,
      .apply (.named "set") [.spread ⟨1⟩]⟩ [.spreadMap (.named "Box") ⟨0⟩] _ rfl⟩

/-! ### Two ways to expand an alias -/

/-- Expands every reference inside the types of a list. -/
def expandAll (scope : Scope) (depth : Nat) (types : List TypeExpr) : Attempt (List TypeExpr) :=
  TypeExpr.replaceAll (scope.replace (instantiate scope depth [])) types

theorem expandAll_of_settled {scope : Scope} {types : List TypeExpr} (depth : Nat)
    (h : ∀ t ∈ types, scope.Settled t) : expandAll scope depth types = pure types :=
  replaceAll_of_forall fun t ht => replaceReferences_of_settled (h t ht)

/-- The name of an alias applied to arguments is expanded as the alias is for the expanded
arguments, and so as the alias is for the arguments themselves if they are settled. -/
theorem expandReferences_apply (d : Declarations) (depth : Nat) {name : String} {a : Alias}
    (h : d.alias? name = some a) (args : List TypeExpr) :
    (expandReferences d.scope depth (.apply (.named name) args) =
      expandAll d.scope depth args >>= expandAlias d.scope depth a) ∧
    ((∀ t ∈ args, d.scope.Settled t) →
      expandReferences d.scope depth (.apply (.named name) args) =
        expandAlias d.scope depth a args) := by
  have hfind : d.scope.find? name = some a := h
  obtain rfl := d.scope.name_of_find? name a hfind
  have hcall : expandReferences d.scope depth (.apply (.named a.name) args) =
      expandAll d.scope depth args >>= expandAlias d.scope depth a := by
    rw [expandReferences, TypeExpr.replaceReferences, expandAll]
    simp only [hfind, Option.map_some, Option.getD_some]
    refine congrArg _ (funext fun args => ?_)
    rw [expandAlias, Scope.push_of_find? hfind]
  refine ⟨hcall, fun hargs => ?_⟩
  rw [hcall, expandAll_of_settled depth hargs, pure_bind]

/-- `Box[int]` comes to the same in both ways. -/
theorem expandReferences_apply_boxAlias :
    expandReferences boxAlias.scope 1 (.apply (.named "Box") [.named "int"]) =
      expandAlias boxAlias.scope 1 ⟨"Box", ⟨[.single (.var ⟨0⟩)]⟩,
        .apply (.named "list") [.var ⟨0⟩]⟩ [.named "int"] :=
  (expandReferences_apply boxAlias 1 rfl [.named "int"]).2 (by
    simp only [Scope.Settled, List.forall_mem_singleton, TypeExpr.mem_references_named, forall_eq]
    rfl)

/-- An alias whose argument refers to the alias is taken for a recursion, although no expansion of it
reaches itself: `Box` for `Box[int]` is not expanded, and `Box[Box[int]]` is. -/
theorem expandAlias_nested :
    let box : Alias := ⟨"Box", ⟨[.single (.var ⟨0⟩)]⟩, .apply (.named "list") [.var ⟨0⟩]⟩
    let arg : TypeExpr := .apply (.named "Box") [.named "int"]
    boxAlias.alias? "Box" = some box ∧
      (expandAlias boxAlias.scope 64 box [arg]).result =
        .error ⟨.recursiveAlias "Box" ["Box", "Box"], []⟩ ∧
      (expandReferences boxAlias.scope 64 (.apply (.named "Box") [arg])).result =
        .ok (.apply (.named "list") [.apply (.named "list") [.named "int"]]) :=
  ⟨rfl, rfl, rfl⟩

end Polyadic
