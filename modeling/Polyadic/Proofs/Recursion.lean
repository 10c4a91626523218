import Mathlib.Data.List.Chain
import Mathlib.Data.List.Nodup
import Mathlib.Data.List.TakeWhile
import Mathlib.Logic.Relation
import Polyadic.Declarations
import Polyadic.Proofs.References

/-! # Recursion of aliases

An alias refers to another one if its body evokes the name.  What an expansion reports as recursion
is a chain of references, from the alias that it started with or reached again to the one it stopped
at (`report_of_instantiate`).  Conversely no expansion ends that has to go around a cycle: a
reference outside spliced maps is always followed (`result_instantiate_ne_ok`). -/

namespace Polyadic

open Attempt

/-! ### Replacing the references of a type -/

section replace

variable {scope : Scope} {expand : Alias → List TypeExpr → Attempt TypeExpr}
  {exc : Failure → Prop}

/-- What an expansion makes of a name and its arguments: the expansion of the alias, if there is
one. -/
def Scope.replace (scope : Scope) (expand : Alias → List TypeExpr → Attempt TypeExpr)
    (name : String) (args : List TypeExpr) : Option (Attempt TypeExpr) :=
  (scope.find? name).map fun a => expand a args

/-- An alias is expanded to a settled type, for settled arguments. -/
def Scope.Expands (scope : Scope) (expand : Alias → List TypeExpr → Attempt TypeExpr)
    (exc : Failure → Prop) (name : String) : Prop :=
  ∀ a, scope.find? name = some a → ∀ args, (∀ t ∈ args, scope.Settled t) →
    (expand a args).Meets scope.Settled exc

theorem meets_replaceAll {types : List TypeExpr} {post : TypeExpr → TypeExpr → Prop}
    (h : ∀ t ∈ types, (t.replaceReferences (scope.replace expand)).Meets (post t) exc) :
    (TypeExpr.replaceAll (scope.replace expand) types).Meets (List.Forall₂ post types) exc := by
  induction types with
  | nil => exact .nil
  | cons t types ih =>
    rw [TypeExpr.replaceAll, meets_bind]
    refine (h t (by simp)).imp ?_
    intro x hx
    rw [meets_bind]
    refine (ih fun u hu => h u (by simp [hu])).imp ?_
    intro xs hxs
    exact .cons hx hxs

theorem forall_of_forall₂ {P : TypeExpr → Prop} {types xs : List TypeExpr}
    (h : List.Forall₂ (fun _ => P) types xs) : ∀ x ∈ xs, P x := by
  induction h with
  | nil => simp
  | cons hx _ ih => simpa using ⟨hx, ih⟩

/-- Replacing the references of a type settles it, if each of them is expanded to a settled type. -/
theorem settles_of_replaceReferences (expand : Alias → List TypeExpr → Attempt TypeExpr)
    {t : TypeExpr} (h : ∀ name ∈ t.references, scope.Expands expand exc name) :
    (t.replaceReferences (scope.replace expand)).Meets scope.Settled exc := by
  have call {name : String} {args : List TypeExpr} (hargs : ∀ x ∈ args, scope.Settled x)
      (hexpands : scope.Expands expand exc name) {t : TypeExpr}
      (ht : scope.find? name = none → scope.Settled t) :
      ((scope.replace expand name args).getD (return t)).Meets scope.Settled exc := by
    cases hfind : scope.find? name with
    | none => simpa [Scope.replace, hfind] using ht hfind
    | some a => simpa [Scope.replace, hfind] using hexpands a hfind args hargs
  induction t using TypeExpr.induct with
  | named name =>
    rw [TypeExpr.replaceReferences]
    refine call (by simp) (h name (by simp)) ?_
    intro hnone n hn
    rwa [TypeExpr.mem_references_named.1 hn]
  | var v | packed ts | spread ts =>
    rw [TypeExpr.replaceReferences]
    simp [Scope.Settled]
  | spreadMap ctor ts ih =>
    by_cases hnamed : ∃ name, ctor = .named name
    · obtain ⟨name, rfl⟩ := hnamed
      rw [TypeExpr.replaceReferences]
      simp [Scope.Settled, TypeExpr.references]
    · have hne : ∀ name, ctor = .named name → False := fun name heq => hnamed ⟨name, heq⟩
      rw [TypeExpr.replaceReferences, meets_bind]
      · refine (ih fun name hname => h name ?_).imp ?_
        · rwa [TypeExpr.references]
          exact hne
        · intro c hc name hname
          exact hc name (TypeExpr.mem_references_ctor hname)
      · exact hne
  | apply head args hhead hargs =>
    have hargs := (meets_replaceAll fun t ht => hargs t ht fun name hname =>
      h name (TypeExpr.mem_references_apply.2 (.inl ⟨t, ht, hname⟩))).imp
        fun _ => forall_of_forall₂
    by_cases hnamed : ∃ name, head = .named name
    · obtain ⟨name, rfl⟩ := hnamed
      rw [TypeExpr.replaceReferences, meets_bind]
      refine hargs.imp ?_
      intro xs hxs
      refine call hxs (h name (by simp)) ?_
      intro hnone n hn
      rcases TypeExpr.mem_references_apply.1 hn with ⟨x, hx, hn⟩ | hn
      · exact hxs x hx n hn
      · rwa [TypeExpr.mem_references_named.1 hn]
    · have hne : ∀ name, head = .named name → False := fun name heq => hnamed ⟨name, heq⟩
      rw [TypeExpr.replaceReferences, meets_bind]
      · refine hargs.imp ?_
        intro xs hxs
        rw [meets_bind]
        refine (hhead fun name hname => h name (by simp [hname])).imp ?_
        intro x hx name hname
        rcases TypeExpr.mem_references_apply.1 hname with ⟨y, hy, hname⟩ | hname
        · exact hxs y hy name hname
        · exact hx name hname
      · exact hne
  | union members hmembers =>
    rw [TypeExpr.replaceReferences, meets_bind]
    refine (meets_replaceAll fun t ht => hmembers t ht fun name hname =>
      h name (TypeExpr.mem_references_union.2 ⟨t, ht, hname⟩)).imp ?_
    intro xs hxs name hname
    obtain ⟨x, hx, hname⟩ := TypeExpr.mem_references_union.1 hname
    exact forall_of_forall₂ hxs x hx name hname
  | arrow params result hparams hresult =>
    rw [TypeExpr.replaceReferences, meets_bind]
    refine (meets_replaceAll fun t ht => hparams t ht fun name hname =>
      h name (TypeExpr.mem_references_arrow.2 (.inl ⟨t, ht, hname⟩))).imp ?_
    intro xs hxs
    rw [meets_bind]
    refine (hresult fun name hname => h name (by simp [hname])).imp ?_
    intro x hx name hname
    rcases TypeExpr.mem_references_arrow.1 hname with ⟨y, hy, hname⟩ | hname
    · exact forall_of_forall₂ hxs y hy name hname
    · exact hx name hname

/-- Some expansion of the alias of that name succeeds, if there is one. -/
def Scope.Succeeds (scope : Scope) (expand : Alias → List TypeExpr → Attempt TypeExpr)
    (name : String) : Prop :=
  ∀ a, scope.find? name = some a → ∃ args t, (expand a args).result = .ok t

/-- Every reference of a type has been expanded when they all have been replaced. -/
theorem succeeds_of_replaceReferences (expand : Alias → List TypeExpr → Attempt TypeExpr)
    (t : TypeExpr) :
    (t.replaceReferences (scope.replace expand)).Meets
      (fun _ => ∀ name ∈ t.references, scope.Succeeds expand name) fun _ => True := by
  have call {name : String} {args : List TypeExpr} {t : TypeExpr} :
      ((scope.replace expand name args).getD (return t)).Meets
        (fun _ => scope.Succeeds expand name) fun _ => True := by
    rw [meets_iff]
    refine ⟨?_, fun _ _ => trivial⟩
    intro x hx a hfind
    rw [Scope.replace, hfind] at hx
    exact ⟨args, x, hx⟩
  have all {types xs : List TypeExpr} (h : List.Forall₂
      (fun t _ => ∀ name ∈ t.references, scope.Succeeds expand name) types xs) :
      ∀ t ∈ types, ∀ name ∈ t.references, scope.Succeeds expand name := by
    induction h with
    | nil => simp
    | cons ht _ ih => simpa using ⟨ht, ih⟩
  induction t using TypeExpr.induct with
  | named name =>
    rw [TypeExpr.replaceReferences]
    refine call.imp ?_
    intro _ hname n hn
    rwa [TypeExpr.mem_references_named.1 hn]
  | var v | packed ts | spread ts =>
    rw [TypeExpr.replaceReferences]
    simp
  | spreadMap ctor ts ih =>
    by_cases hnamed : ∃ name, ctor = .named name
    · obtain ⟨name, rfl⟩ := hnamed
      rw [TypeExpr.replaceReferences]
      simp [TypeExpr.references]
    · have hne : ∀ name, ctor = .named name → False := fun name heq => hnamed ⟨name, heq⟩
      rw [TypeExpr.replaceReferences, meets_bind]
      · refine ih.imp ?_
        intro _ h name hname
        exact h name (TypeExpr.mem_references_ctor hname)
      · exact hne
  | apply head args hhead hargs =>
    have split {xs : List TypeExpr} (hxs : List.Forall₂
          (fun t _ => ∀ name ∈ t.references, scope.Succeeds expand name) args xs)
        (h : ∀ name ∈ head.references, scope.Succeeds expand name) :
        ∀ name ∈ (TypeExpr.apply head args).references, scope.Succeeds expand name := by
      intro name hname
      rcases TypeExpr.mem_references_apply.1 hname with ⟨t, ht, hname⟩ | hname
      · exact all hxs t ht name hname
      · exact h name hname
    by_cases hnamed : ∃ name, head = .named name
    · obtain ⟨name, rfl⟩ := hnamed
      rw [TypeExpr.replaceReferences, meets_bind]
      refine (meets_replaceAll hargs).imp ?_
      intro xs hxs
      refine call.imp ?_
      intro _ hname
      refine split hxs fun n hn => ?_
      rwa [TypeExpr.mem_references_named.1 hn]
    · have hne : ∀ name, head = .named name → False := fun name heq => hnamed ⟨name, heq⟩
      rw [TypeExpr.replaceReferences, meets_bind]
      · refine (meets_replaceAll hargs).imp ?_
        intro xs hxs
        rw [meets_bind]
        exact hhead.imp fun _ h => split hxs h
      · exact hne
  | union members hmembers =>
    rw [TypeExpr.replaceReferences, meets_bind]
    refine (meets_replaceAll hmembers).imp ?_
    intro xs hxs name hname
    obtain ⟨t, ht, hname⟩ := TypeExpr.mem_references_union.1 hname
    exact all hxs t ht name hname
  | arrow params result hparams hresult =>
    rw [TypeExpr.replaceReferences, meets_bind]
    refine (meets_replaceAll hparams).imp ?_
    intro xs hxs
    rw [meets_bind]
    refine hresult.imp ?_
    intro _ h name hname
    rcases TypeExpr.mem_references_arrow.1 hname with ⟨t, ht, hname⟩ | hname
    · exact all hxs t ht name hname
    · exact h name hname

end replace

/-! ### Reports -/

/-- One alias refers to another: its body evokes the name of the other. -/
def Scope.Refers (scope : Scope) (x y : String) : Prop :=
  ∃ a, scope.find? x = some a ∧ a.body.Evokes y ∧ (scope.find? y).isSome = true

/-- What the report of a recursion says: the chain goes from reference to reference, and it either
comes back to where it started or is one alias longer than the limit. -/
structure CycleReport (scope : Scope) (depth : Nat) (name : String) (chain : List String) :
    Prop where
  last : chain.getLast? = some name
  linked : chain.IsChain scope.Refers
  distinct : chain.dropLast.Nodup
  closed : (2 ≤ chain.length ∧ chain.head? = some name) ∨
    (chain.length = depth + 1 ∧ chain.Nodup)

/-- If a failure reports a recursion, then properly. -/
def Failure.Reports (scope : Scope) (depth : Nat) (e : Failure) : Prop :=
  ∀ name chain, e.cause = .recursiveAlias name chain → CycleReport scope depth name chain

theorem Failure.IsNoRecursion.reports {scope : Scope} {depth : Nat} {e : Failure}
    (h : e.IsNoRecursion) : e.Reports scope depth := fun name chain heq => absurd heq (h name chain)

section reports

variable {scope : Scope} {depth budget : Nat} {stack : List String} {name : String}

theorem meets_reportCycle {α : Type} {chain : List String} {post : α → Prop}
    (h : CycleReport scope depth name chain) :
    (reportCycle name chain : Attempt α).Meets post (Failure.Reports scope depth) := by
  rw [reportCycle, meets_bind, meets_log, meets_fail]
  intro name' chain' heq
  cases heq
  exact h

theorem nodup_append_singleton (hmem : name ∉ stack) (hnodup : stack.Nodup) :
    (stack ++ [name]).Nodup := by
  rw [← List.concat_eq_append, List.nodup_concat]
  exact ⟨hmem, hnodup⟩

/-- An alias that is on the stack has been reached again. -/
theorem cycleReport_of_mem (hmem : name ∈ stack) (hnodup : stack.Nodup)
    (hlinked : (stack ++ [name]).IsChain scope.Refers) :
    CycleReport scope depth name (stack.dropWhile (· ≠ name) ++ [name]) := by
  obtain ⟨before, hbefore⟩ := List.dropWhile_suffix (l := stack) (· ≠ name)
  have hhead := List.head?_dropWhile_not (· ≠ name) stack
  cases hrest : stack.dropWhile (· ≠ name) with
  | nil => simpa using List.dropWhile_eq_nil_iff.1 hrest name hmem
  | cons x rest =>
    rw [hrest] at hbefore hhead
    obtain rfl : x = name := by simpa using hhead
    rw [← hbefore] at hlinked hnodup
    refine ⟨List.getLast?_concat, ?_, ?_, .inl ⟨by simp, by simp⟩⟩
    · exact hlinked.suffix ⟨before, by simp⟩
    · rw [List.dropLast_concat]
      exact hnodup.sublist (List.sublist_append_right before (x :: rest))

/-- A stack that is full has no place for another alias. -/
theorem cycleReport_of_full (hmem : name ∉ stack) (hnodup : stack.Nodup)
    (hlength : stack.length = depth) (hlinked : (stack ++ [name]).IsChain scope.Refers) :
    CycleReport scope depth name (stack ++ [name]) := by
  refine ⟨by simp, hlinked, by simpa using hnodup, .inr ⟨by simp [hlength], ?_⟩⟩
  exact nodup_append_singleton hmem hnodup

/-- An expansion settles its alias or reports a recursion properly, while the stack holds distinct
names that refer to one another and in the end to the alias. -/
theorem report_of_instantiate {a : Alias} {args : List TypeExpr}
    (hfind : scope.find? a.name = some a) (hdepth : stack.length + budget = depth)
    (hnodup : stack.Nodup) (hlinked : (stack ++ [a.name]).IsChain scope.Refers)
    (hargs : ∀ t ∈ args, scope.Settled t) :
    (instantiate scope budget stack a args).Meets scope.Settled (Failure.Reports scope depth) := by
  induction budget generalizing stack a args with
  | zero =>
    rw [instantiate]
    split
    · rename_i hmem
      exact meets_reportCycle (cycleReport_of_mem hmem hnodup hlinked)
    · rename_i hmem
      exact meets_reportCycle (cycleReport_of_full hmem hnodup hdepth hlinked)
  | succ budget ih =>
    rw [instantiate]
    split
    · rename_i hmem
      exact meets_reportCycle (cycleReport_of_mem hmem hnodup hlinked)
    · rename_i hmem
      rw [meets_bind]
      refine (settled_of_bindArguments a hargs).mono ?_ fun e he => he.reports
      intro b hb
      rw [meets_bind, meets_log, meets_bind]
      refine (meets_ofExcept_subst a.body).mono ?_ fun e he => he.reports
      rintro body rfl
      refine settles_of_replaceReferences (instantiate scope budget (stack ++ [a.name])) ?_
      intro name hname a' hfind' args' hargs'
      obtain rfl := scope.name_of_find? name a' hfind'
      have hrefers : scope.Refers a.name a'.name :=
        ⟨a, hfind, TypeExpr.evokes_of_mem_references hb hname (by simp [hfind']), by simp [hfind']⟩
      have hlength : (stack ++ [a.name]).length + budget = depth := by
        rw [List.length_append, List.length_singleton]
        omega
      have hlinked' : (stack ++ [a.name] ++ [a'.name]).IsChain scope.Refers :=
        List.isChain_append.2 ⟨hlinked, .singleton _, by simpa using hrefers⟩
      exact ih hfind' hlength (nodup_append_singleton hmem hnodup) hlinked' hargs'

end reports

/-! ### Cycles -/

namespace TypeExpr

mutual

/-- The names in a type that do not lie inside the constructor of a spliced map. -/
def outerNames : TypeExpr → List String
  | .named name => [name]
  | .apply head args => head.outerNames ++ outerNamesAll args
  | .union members => outerNamesAll members
  | .arrow params result => outerNamesAll params ++ result.outerNames
  | .var _ | .packed _ | .spread _ | .spreadMap _ _ => []

/-- The outer names of the types of a list, one after another. -/
def outerNamesAll : List TypeExpr → List String
  | [] => []
  | t :: ts => t.outerNames ++ outerNamesAll ts

end

theorem mem_outerNamesAll {name : String} {types : List TypeExpr} :
    name ∈ outerNamesAll types ↔ ∃ t ∈ types, name ∈ t.outerNames := by
  induction types with
  | nil => simp [outerNamesAll]
  | cons t types ih => simp [outerNamesAll, ih]

/-- Whatever is filled in, the outer names of a type stay references. -/
theorem mem_references_of_mem_outerNames {b : Binding} {name : String} {t : TypeExpr}
    (h : name ∈ t.outerNames) : name ∈ (t.fill b).references := by
  have slots {types : List TypeExpr}
      (ih : ∀ t ∈ types, name ∈ t.outerNames → name ∈ (t.fill b).references)
      (h : name ∈ outerNamesAll types) : ∃ x ∈ fillAll b types, name ∈ x.references := by
    obtain ⟨t, ht, hname⟩ := mem_outerNamesAll.1 h
    have hslot : Slot.ofType t = .single t := by
      cases t with
      | spread | spreadMap => simp [outerNames] at hname
      | _ => rfl
    refine ⟨t.fill b, ?_, ih t ht hname⟩
    rw [fillAll_eq_flatMap]
    exact List.mem_flatMap.2 ⟨.single t, List.mem_map.2 ⟨t, ht, hslot⟩, by simp [Slot.fill]⟩
  induction t using induct with
  | named n => simpa [outerNames, fill] using h
  | var | packed | spread | spreadMap => simp [outerNames] at h
  | apply head args hhead hargs =>
    rw [outerNames, List.mem_append] at h
    rw [fill, mem_references_apply]
    exact h.symm.imp (slots hargs) hhead
  | union members hmembers =>
    rw [outerNames] at h
    rw [fill, mem_references_union]
    exact slots hmembers h
  | arrow params result hparams hresult =>
    rw [outerNames, List.mem_append] at h
    rw [fill, mem_references_arrow]
    exact h.imp (slots hparams) hresult

end TypeExpr

/-- One alias refers to another outside spliced maps. -/
def Scope.Requires (scope : Scope) (x y : String) : Prop :=
  ∃ a, scope.find? x = some a ∧ y ∈ a.body.outerNames

/-- References outside spliced maps lead from an alias to a cycle. -/
def Scope.ReachesCycle (scope : Scope) (x : String) : Prop :=
  ∃ c, Relation.ReflTransGen scope.Requires x c ∧ Relation.TransGen scope.Requires c c

section cycles

variable {scope : Scope}

/-- On the way to a cycle, and around it, there is always another reference. -/
theorem Scope.ReachesCycle.next {x : String} (h : scope.ReachesCycle x) :
    ∃ y, scope.Requires x y ∧ scope.ReachesCycle y := by
  obtain ⟨c, hreach, hcycle⟩ := h
  rcases hreach.cases_head with rfl | ⟨y, hxy, hyc⟩
  · obtain ⟨y, hxy, hyx⟩ := Relation.TransGen.head'_iff.1 hcycle
    exact ⟨y, hxy, x, hyx, hcycle⟩
  · exact ⟨y, hxy, c, hyc, hcycle⟩

theorem Scope.ReachesCycle.exists_alias {x : String} (h : scope.ReachesCycle x) :
    ∃ a, scope.find? x = some a := by
  obtain ⟨y, ⟨a, hfind, -⟩, -⟩ := h.next
  exact ⟨a, hfind⟩

/-- An alias that reaches a cycle is never expanded, since one that it requires would be. -/
theorem result_instantiate_ne_ok {budget : Nat} {stack : List String} {a : Alias}
    {args : List TypeExpr} (hfind : scope.find? a.name = some a)
    (hcycle : scope.ReachesCycle a.name) (t : TypeExpr) :
    (instantiate scope budget stack a args).result ≠ .ok t := by
  induction budget generalizing stack a args t with
  | zero =>
    rw [instantiate]
    split <;> simp [reportCycle]
  | succ budget ih =>
    rw [instantiate]
    split
    · simp [reportCycle]
    · intro h
      obtain ⟨b, -, h⟩ := result_bind_eq_ok_iff.1 h
      obtain ⟨-, -, h⟩ := result_bind_eq_ok_iff.1 h
      obtain ⟨body, hbody, h⟩ := result_bind_eq_ok_iff.1 h
      obtain rfl := TypeExpr.fill_of_subst hbody
      obtain ⟨name, ⟨a', hfind', hname⟩, hnext⟩ := hcycle.next
      obtain rfl : a' = a := by simpa [hfind'] using hfind
      obtain ⟨c, hc⟩ := hnext.exists_alias
      have hsucceeds := (succeeds_of_replaceReferences
        (instantiate scope budget (stack ++ [a'.name])) (a'.body.fill b)).of_ok h
      obtain ⟨args', x, hx⟩ :=
        hsucceeds name (TypeExpr.mem_references_of_mem_outerNames hname) c hc
      obtain rfl := scope.name_of_find? name c hc
      exact ih hc hnext x hx

end cycles

/-! ### Expansions with a table -/

/-- A type names nothing that is in scope. -/
def Scope.Unnamed (scope : Scope) (t : TypeExpr) : Prop :=
  ∀ name, .named name ∈ t.nodes → scope.find? name = none

section tables

variable {scope : Scope}

theorem TypeExpr.named_mem_nodes_of_mem_references {name : String} {t : TypeExpr}
    (h : name ∈ t.references) : .named name ∈ t.nodes := by
  induction t using induct with
  | named n => simpa [nodes] using h
  | var | packed | spread => simp at h
  | spreadMap ctor ts ih => simp [nodes, ih (mem_references_ctor h)]
  | apply head args hhead hargs =>
    simp only [nodes, allNodes_eq_flatMap, List.mem_cons, List.mem_append, List.mem_flatMap]
    rcases mem_references_apply.1 h with ⟨t, ht, h⟩ | h
    · exact .inr (.inr ⟨t, ht, hargs t ht h⟩)
    · exact .inr (.inl (hhead h))
  | union members hmembers =>
    simp only [nodes, allNodes_eq_flatMap, List.mem_cons, List.mem_flatMap]
    obtain ⟨t, ht, h⟩ := mem_references_union.1 h
    exact .inr ⟨t, ht, hmembers t ht h⟩
  | arrow params result hparams hresult =>
    simp only [nodes, allNodes_eq_flatMap, List.mem_cons, List.mem_append, List.mem_flatMap]
    rcases mem_references_arrow.1 h with ⟨t, ht, h⟩ | h
    · exact .inr (.inl ⟨t, ht, hparams t ht h⟩)
    · exact .inr (.inr (hresult h))

theorem Scope.Unnamed.settled {t : TypeExpr} (h : scope.Unnamed t) : scope.Settled t :=
  fun name hname => h name (TypeExpr.named_mem_nodes_of_mem_references hname)

/-- An alias that is in scope need not be put there. -/
theorem Scope.push_of_find? {a : Alias} (h : scope.find? a.name = some a) :
    scope.push a = scope := by
  have hfind (name : String) : (scope.push a).find? name = scope.find? name := by
    change (if a.name = name then some a else scope.find? name) = _
    split
    · rename_i heq
      rw [← heq, h]
    · rfl
  have ext : ∀ s s' : Scope, s.find? = s'.find? → s = s' := by
    rintro ⟨find?, _⟩ ⟨_, _⟩ (rfl : find? = _)
    rfl
  exact ext _ _ (funext hfind)

end tables

/-- What the expansions of a table report as recursion is a proper chain of references, and no alias
is expanded that reaches a cycle. -/
theorem expansion_recursion (d : Declarations) (depth : Nat) :
    (∀ t e, (expandReferences d.scope depth t).result = .error e → e.Reports d.scope depth) ∧
    ∀ name a, d.alias? name = some a →
      (∀ args, (∀ t ∈ args, d.scope.Unnamed t) → ∀ e,
        (expandAlias d.scope depth a args).result = .error e → e.Reports d.scope depth) ∧
      (d.scope.ReachesCycle name →
        ∀ args t, (expandAlias d.scope depth a args).result ≠ .ok t) := by
  constructor
  · intro t e he
    refine (settles_of_replaceReferences (instantiate d.scope depth []) ?_).of_error he
    intro name _ a hfind args hargs
    obtain rfl := d.scope.name_of_find? name a hfind
    exact report_of_instantiate hfind (by simp) (by simp) (by simp) hargs
  · intro name a hfind
    obtain rfl := d.scope.name_of_find? name a hfind
    have hexpand (args : List TypeExpr) :
        expandAlias d.scope depth a args = instantiate d.scope depth [] a args := by
      rw [expandAlias, Scope.push_of_find? hfind]
    simp only [hexpand]
    constructor
    · intro args hargs e he
      have hsettled : ∀ t ∈ args, d.scope.Settled t := fun t ht => (hargs t ht).settled
      exact (report_of_instantiate hfind (by simp) (by simp) (by simp) hsettled).of_error he
    · intro hcycle args t
      exact result_instantiate_ne_ok hfind hcycle t

/-- A table with `A[*Ts0] = Ts0`, in the wrapped form, and an alias `tuple[*Ts0] = A[*Ts0]`, and
with `B = list[C]` and `C = B`. -/
def cyclicAliases : Declarations :=
  Declarations.empty.declareAll [.template ⟨"A", ⟨[.spread ⟨0⟩]⟩, .packed ⟨0⟩⟩,
    .template ⟨"tuple", ⟨[.spread ⟨0⟩]⟩, .apply (.named "A") [.spread ⟨0⟩]⟩,
    .template ⟨"B", ⟨[]⟩, .apply (.named "list") [.named "C"]⟩, .template ⟨"C", ⟨[]⟩, .named "B"⟩]

theorem reachesCycle_cyclicAliases : cyclicAliases.scope.ReachesCycle "B" := by
  have hbc : cyclicAliases.scope.Requires "B" "C" := ⟨_, rfl, by decide⟩
  have hcb : cyclicAliases.scope.Requires "C" "B" := ⟨_, rfl, by decide⟩
  exact ⟨"B", .refl, .tail (.single hbc) hcb⟩

theorem unnamed_cyclicAliases :
    ∀ t ∈ [TypeExpr.named "int"], cyclicAliases.scope.Unnamed t := by
  simp only [Scope.Unnamed, TypeExpr.nodes, List.mem_singleton, TypeExpr.named.injEq, forall_eq]
  rfl

/-- With one alias allowed on the stack, `C` is reported where a type refers to `B`; `A` is reported
when it is expanded for an argument; and `B` is never expanded. -/
theorem expansion_recursion_cyclicAliases :
    CycleReport cyclicAliases.scope 1 "C" ["B", "C"] ∧
      CycleReport cyclicAliases.scope 64 "A" ["A", "tuple", "A"] ∧
      ∀ args t, (expandAlias cyclicAliases.scope 64
        ⟨"B", ⟨[]⟩, .apply (.named "list") [.named "C"]⟩ args).result ≠ .ok t :=
  ⟨(expansion_recursion cyclicAliases 1).1 (.union [.named "B"]) _ rfl "C" ["B", "C"] rfl,
    ((expansion_recursion cyclicAliases 64).2 "A" _ rfl).1 _ unnamed_cyclicAliases _ rfl "A" _ rfl,
    ((expansion_recursion cyclicAliases 64).2 "B" _ rfl).2 reachesCycle_cyclicAliases⟩

/-- The chain of a report need not follow the names that the bodies contain: `A` is reported to
reach `tuple`, whose name comes in where the argument list is wrapped. -/
theorem report_without_name :
    cyclicAliases.alias? "A" = some ⟨"A", ⟨[.spread ⟨0⟩]⟩, .packed ⟨0⟩⟩ ∧
      (∀ t ∈ [TypeExpr.named "int"], cyclicAliases.scope.Unnamed t) ∧
      (expandAlias cyclicAliases.scope 64 ⟨"A", ⟨[.spread ⟨0⟩]⟩, .packed ⟨0⟩⟩
        [.named "int"]).result = .error ⟨.recursiveAlias "A" ["A", "tuple", "A"], []⟩ ∧
      ¬["A", "tuple", "A"].IsChain fun x y =>
        ∃ a, cyclicAliases.alias? x = some a ∧ .named y ∈ a.body.nodes := by
  have hfind : cyclicAliases.alias? "A" = some ⟨"A", ⟨[.spread ⟨0⟩]⟩, .packed ⟨0⟩⟩ := rfl
  refine ⟨hfind, unnamed_cyclicAliases, rfl, ?_⟩
  rw [List.isChain_cons_cons]
  rintro ⟨⟨a, ha, hname⟩, -⟩
  rw [hfind, Option.some.injEq] at ha
  rw [← ha] at hname
  exact absurd hname (by decide)

end Polyadic
