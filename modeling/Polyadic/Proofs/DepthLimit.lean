import Mathlib.Data.List.Perm.Subperm
import Polyadic.Proofs.NormalForms

/-! # The depth limit

The limit of an expansion only cuts it off.  Under a higher limit an expansion is the same attempt,
with the same events and the same result, unless the lower limit has been hit
(`sameUnless_instantiate`).  The stack holds distinct names of aliases in scope, so that a limit can
be hit only if there are more aliases than it allows for.  What went through under one limit goes
through under every higher one, then, and all limits are alike that leave room for every alias of
the table and one more (`depth_only_cuts`). -/

namespace Polyadic

open Attempt

/-! ### Attempts that are cut off -/

namespace Attempt

variable {α β : Type} {P : Failure → Prop} {x y : Attempt α} {f g : α → Attempt β}

/-- Two attempts are the same, unless the first one fails as `P` says. -/
def SameUnless (P : Failure → Prop) (x y : Attempt α) : Prop :=
  (∃ e, x.result = .error e ∧ P e) ∨ x = y

theorem SameUnless.refl (x : Attempt α) : x.SameUnless P x := .inr rfl

theorem SameUnless.bind (hx : x.SameUnless P y) (hf : ∀ a, (f a).SameUnless P (g a)) :
    (x >>= f).SameUnless P (y >>= g) := by
  rcases hx with ⟨e, he, hP⟩ | rfl
  · exact .inl ⟨e, result_bind_eq_error_iff.2 (.inl he), hP⟩
  · cases h : x.result with
    | error e =>
      rw [bind_of_error h, bind_of_error h]
      exact .refl _
    | ok a =>
      rcases hf a with ⟨e, he, hP⟩ | heq
      · exact .inl ⟨e, result_bind_eq_error_iff.2 (.inr ⟨a, h, he⟩), hP⟩
      · rw [bind_of_ok h, bind_of_ok h, heq]
        exact .refl _

theorem SameUnless.result_eq_ok (h : x.SameUnless P y) {a : α} (ha : x.result = .ok a) :
    y.result = .ok a := by
  rcases h with ⟨e, he, -⟩ | rfl
  · rw [ha] at he
    cases he
  · exact ha

theorem SameUnless.eq (h : x.SameUnless P y) (hP : ∀ e, ¬P e) : x = y := by
  rcases h with ⟨e, -, he⟩ | rfl
  · exact absurd he (hP e)
  · rfl

end Attempt

/-! ### Replacing references -/

section replacing

variable {scope : Scope} {expand expand' : Alias → List TypeExpr → Attempt TypeExpr}
  {P : Failure → Prop}

theorem sameUnless_replaceAll {types : List TypeExpr}
    (h : ∀ t ∈ types, (t.replaceReferences (scope.replace expand)).SameUnless P
      (t.replaceReferences (scope.replace expand'))) :
    (TypeExpr.replaceAll (scope.replace expand) types).SameUnless P
      (TypeExpr.replaceAll (scope.replace expand') types) := by
  induction types with
  | nil => exact .refl _
  | cons t types ih =>
    rw [TypeExpr.replaceAll, TypeExpr.replaceAll]
    refine (h t (by simp)).bind fun u => ?_
    exact (ih fun t ht => h t (by simp [ht])).bind fun _ => .refl _

/-- A type is expanded in the same way by two expansions of the aliases in scope. -/
theorem sameUnless_replaceReferences
    (h : ∀ name a, scope.find? name = some a → ∀ args,
      (expand a args).SameUnless P (expand' a args)) (t : TypeExpr) :
    (t.replaceReferences (scope.replace expand)).SameUnless P
      (t.replaceReferences (scope.replace expand')) := by
  have call (name : String) (args : List TypeExpr) (t : TypeExpr) :
      ((scope.replace expand name args).getD (return t)).SameUnless P
        ((scope.replace expand' name args).getD (return t)) := by
    cases hfind : scope.find? name with
    | none =>
      rw [Scope.replace, Scope.replace, hfind]
      exact .refl _
    | some a =>
      rw [Scope.replace, Scope.replace, hfind]
      exact h name a hfind args
  induction t using TypeExpr.induct with
  | named name =>
    rw [TypeExpr.replaceReferences, TypeExpr.replaceReferences]
    exact call name [] _
  | var | packed | spread =>
    rw [TypeExpr.replaceReferences, TypeExpr.replaceReferences]
    exact .refl _
  | spreadMap ctor ts ih =>
    by_cases hnamed : ∃ name, ctor = .named name
    · obtain ⟨name, rfl⟩ := hnamed
      rw [TypeExpr.replaceReferences, TypeExpr.replaceReferences]
      exact .refl _
    · have hne : ∀ name, ctor = .named name → False := fun name heq => hnamed ⟨name, heq⟩
      rw [TypeExpr.replaceReferences, TypeExpr.replaceReferences]
      · exact ih.bind fun _ => .refl _
      · exact hne
      · exact hne
  | apply head args hhead hargs =>
    by_cases hnamed : ∃ name, head = .named name
    · obtain ⟨name, rfl⟩ := hnamed
      rw [TypeExpr.replaceReferences, TypeExpr.replaceReferences]
      exact (sameUnless_replaceAll hargs).bind fun args => call name args _
    · have hne : ∀ name, head = .named name → False := fun name heq => hnamed ⟨name, heq⟩
      rw [TypeExpr.replaceReferences, TypeExpr.replaceReferences]
      · exact (sameUnless_replaceAll hargs).bind fun _ => hhead.bind fun _ => .refl _
      · exact hne
      · exact hne
  | union members hmembers =>
    rw [TypeExpr.replaceReferences, TypeExpr.replaceReferences]
    exact (sameUnless_replaceAll hmembers).bind fun _ => .refl _
  | arrow params result hparams hresult =>
    rw [TypeExpr.replaceReferences, TypeExpr.replaceReferences]
    exact (sameUnless_replaceAll hparams).bind fun _ => hresult.bind fun _ => .refl _

end replacing

/-! ### Two limits -/

/-- A failure names one alias more than a limit allows for. -/
def Failure.IsCut (scope : Scope) (depth : Nat) (e : Failure) : Prop :=
  ∃ name chain, e.cause = .recursiveAlias name chain ∧ chain.length = depth + 1 ∧ chain.Nodup ∧
    ∀ x ∈ chain, (scope.find? x).isSome = true

section limits

variable {scope : Scope} {depth : Nat}

/-- Where a limit cuts an expansion off, there are more aliases than it allows for. -/
theorem Failure.IsCut.depth_lt {e : Failure} (h : e.IsCut scope depth) {names : List String}
    (hnames : ∀ name a, scope.find? name = some a → name ∈ names) : depth < names.length := by
  obtain ⟨_, chain, -, hlength, hnodup, hfound⟩ := h
  have hsub : chain ⊆ names := by
    intro x hx
    obtain ⟨a, ha⟩ := Option.isSome_iff_exists.1 (hfound x hx)
    exact hnames x a ha
  have := (hnodup.subperm hsub).length_le
  omega

/-- With a larger budget an alias is expanded in the same way, unless the limit cuts it off. -/
theorem sameUnless_instantiate {budget budget' : Nat} {stack : List String} {a : Alias}
    (args : List TypeExpr) (hle : budget ≤ budget') (hdepth : stack.length + budget = depth)
    (hnodup : stack.Nodup) (hfound : ∀ x ∈ stack ++ [a.name], (scope.find? x).isSome = true) :
    (instantiate scope budget stack a args).SameUnless (Failure.IsCut scope depth)
      (instantiate scope budget' stack a args) := by
  induction budget generalizing budget' stack a args with
  | zero =>
    by_cases hmem : a.name ∈ stack
    · unfold instantiate
      rw [if_pos hmem, if_pos hmem]
      exact .refl _
    · -- The lower limit is hit: the stack is as long as it allows, and the alias is not on it.
      rw [instantiate, if_neg hmem]
      have hlength : (stack ++ [a.name]).length = depth + 1 := by simpa using hdepth
      exact .inl ⟨_, rfl, _, _, rfl, hlength, nodup_append_singleton hmem hnodup, hfound⟩
  | succ budget ih =>
    obtain ⟨budget', rfl⟩ : ∃ n, budget' = n + 1 := ⟨budget' - 1, by omega⟩
    rw [instantiate, instantiate]
    by_cases hmem : a.name ∈ stack
    · rw [if_pos hmem, if_pos hmem]
      exact .refl _
    · rw [if_neg hmem, if_neg hmem]
      refine .bind (.refl _) fun b => .bind (.refl _) fun _ => .bind (.refl _) fun body => ?_
      refine sameUnless_replaceReferences (fun name a' hfind args => ?_) body
      obtain rfl := scope.name_of_find? name a' hfind
      refine ih args (by omega) ?_ (nodup_append_singleton hmem hnodup) ?_
      · rw [List.length_append, List.length_singleton]
        omega
      · intro x hx
        rcases List.mem_append.1 hx with hx | hx
        · exact hfound x hx
        · rw [List.mem_singleton.1 hx, hfind, Option.isSome_some]

theorem sameUnless_expandAlias {depth' : Nat} (hle : depth ≤ depth') (a : Alias)
    (args : List TypeExpr) : (expandAlias scope depth a args).SameUnless
      (Failure.IsCut (scope.push a) depth) (expandAlias scope depth' a args) := by
  refine sameUnless_instantiate args hle (Nat.zero_add depth) .nil fun x hx => ?_
  obtain rfl := List.mem_singleton.1 hx
  show (if a.name = a.name then some a else _).isSome = true
  rw [if_pos rfl, Option.isSome_some]

theorem sameUnless_expandReferences {depth' : Nat} (hle : depth ≤ depth') (t : TypeExpr) :
    (expandReferences scope depth t).SameUnless (Failure.IsCut scope depth)
      (expandReferences scope depth' t) := by
  refine sameUnless_replaceReferences (fun name a hfind args => ?_) t
  obtain rfl := scope.name_of_find? name a hfind
  refine sameUnless_instantiate args hle (Nat.zero_add depth) .nil fun x hx => ?_
  rw [List.mem_singleton.1 hx, hfind, Option.isSome_some]

end limits

/-! ### Tables -/

namespace Declarations

variable {d : Declarations} {name : String} {a : Alias}

theorem mem_keys_of_find? (h : d.scope.find? name = some a) : name ∈ d.aliases.keys := by
  change d.aliases[name]? = some a at h
  rw [Std.ExtTreeMap.mem_keys, Std.ExtTreeMap.mem_iff_isSome_getElem?, h, Option.isSome_some]

theorem mem_keys_of_find?_push {a' : Alias} (h : (d.scope.push a).find? name = some a') :
    name ∈ a.name :: d.aliases.keys := by
  change (if a.name = name then some a else d.scope.find? name) = some a' at h
  split at h
  · rename_i heq
    exact heq ▸ List.mem_cons_self
  · exact List.mem_cons_of_mem _ (mem_keys_of_find? h)

end Declarations

/-- A limit never changes what an expansion returns, and two limits that allow for every alias of
the table and one more are alike, also in failures and events. -/
theorem depth_only_cuts (d : Declarations) (depth depth' : Nat) (a : Alias)
    (args : List TypeExpr) (t : TypeExpr) :
    (depth ≤ depth' → ∀ r,
      ((expandAlias d.scope depth a args).result = .ok r →
        (expandAlias d.scope depth' a args).result = .ok r) ∧
      ((expandReferences d.scope depth t).result = .ok r →
        (expandReferences d.scope depth' t).result = .ok r)) ∧
    (d.aliases.size + 1 ≤ depth → d.aliases.size + 1 ≤ depth' →
      expandAlias d.scope depth a args = expandAlias d.scope depth' a args ∧
      expandReferences d.scope depth t = expandReferences d.scope depth' t) := by
  constructor
  · intro hle r
    exact ⟨(sameUnless_expandAlias hle a args).result_eq_ok,
      (sameUnless_expandReferences hle t).result_eq_ok⟩
  · have same {depth depth' : Nat} (hroom : d.aliases.size + 1 ≤ depth) (hle : depth ≤ depth') :
        expandAlias d.scope depth a args = expandAlias d.scope depth' a args ∧
          expandReferences d.scope depth t = expandReferences d.scope depth' t := by
      constructor
      · refine (sameUnless_expandAlias hle a args).eq fun e he => ?_
        have := he.depth_lt fun _ _ => Declarations.mem_keys_of_find?_push
        rw [List.length_cons, Std.ExtTreeMap.length_keys] at this
        omega
      · refine (sameUnless_expandReferences hle t).eq fun e he => ?_
        have := he.depth_lt fun _ _ => Declarations.mem_keys_of_find?
        rw [Std.ExtTreeMap.length_keys] at this
        omega
    intro hroom hroom'
    rcases Nat.le_total depth depth' with hle | hle
    · exact same hroom hle
    · exact ⟨(same hroom' hle).1.symm, (same hroom' hle).2.symm⟩

/-- What goes through under a limit of one does so under 64: the nested `Box[Box[int]]`, and the
alias `D[T0] = list[T0]`, which is not in the table.  The other table has four aliases, and a limit
of five is like one of 64 for its recursions, that of `A` through `tuple` and that of `B`. -/
theorem depth_only_cuts_samples :
    (expandReferences boxAlias.scope 64
        (.apply (.named "Box") [.apply (.named "Box") [.named "int"]])).result =
      .ok (.apply (.named "list") [.apply (.named "list") [.named "int"]]) ∧
    (expandAlias cyclicAliases.scope 64 ⟨"D", ⟨[.single (.var ⟨0⟩)]⟩,
        .apply (.named "list") [.var ⟨0⟩]⟩ [.named "int"]).result =
      .ok (.apply (.named "list") [.named "int"]) ∧
    expandAlias cyclicAliases.scope 5 ⟨"A", ⟨[.spread ⟨0⟩]⟩, .packed ⟨0⟩⟩ [.named "int"] =
      expandAlias cyclicAliases.scope 64 ⟨"A", ⟨[.spread ⟨0⟩]⟩, .packed ⟨0⟩⟩ [.named "int"] ∧
    expandReferences cyclicAliases.scope 5 (.union [.named "B"]) =
      expandReferences cyclicAliases.scope 64 (.union [.named "B"]) :=
  ⟨((depth_only_cuts boxAlias 1 64 ⟨"D", ⟨[]⟩, .named "int"⟩ []
      (.apply (.named "Box") [.apply (.named "Box") [.named "int"]])).1 (by decide) _).2 rfl,
    ((depth_only_cuts cyclicAliases 1 64 ⟨"D", ⟨[.single (.var ⟨0⟩)]⟩,
      .apply (.named "list") [.var ⟨0⟩]⟩ [.named "int"] (.named "int")).1 (by decide) _).1 rfl,
    (depth_only_cuts cyclicAliases 5 64 ⟨"A", ⟨[.spread ⟨0⟩]⟩, .packed ⟨0⟩⟩ [.named "int"]
      (.union [.named "B"])).2 (by decide) (by decide)⟩

end Polyadic
