import Polyadic.Proofs.ExtraKeywords
import Polyadic.Proofs.Acceptance

/-! # The order of keywords

The declared keywords of a call are looked up by name, and only the others are matched in the order
of the call, one after another against the same type.  What that type accepts behind another
argument it accepts in front of it as well, and binds the same (`unify_of_unify`), provided that the
arguments are ground or the type has no spliced maps.  So the order of the keywords does not matter
then (`matchCall_ok_iff_of_perm`).  A spliced map takes what one keyword is bound to for a formal
type when it meets the next one, and binds the variables in it (`keyword_order_expanded`). -/

namespace Polyadic

open Attempt

section twice

variable {f x y : TypeExpr} {b b₁ d : Binding}

/-- Two arguments that match the same type, one after the other, match it in the opposite order as
well. -/
theorem unify_of_unify (h : (x.IsGround ∧ y.IsGround) ∨ f.MapFree)
    (hx : (unify f x b).value? = some b₁) (hy : (unify f y b₁).value? = some d) :
    (unify f y b).value? = some b₁ ∧ (unify f x b₁).value? = some d := by
  have hle : b₁ ≤ d := le_of_unify hy
  have hxaccepted : f.Accepts d x := ⟨b, b₁, hx, hle⟩
  have hyaccepted : f.Accepts d y := ⟨b₁, d, hy, d.le_refl⟩
  rcases h with ⟨hxground, hyground⟩ | hfree
  · obtain rfl := eq_of_accepts hxground hyground hxaccepted hyaccepted
    exact ⟨hx, hy⟩
  · have hb : b ≤ d := Binding.le_trans (le_of_unify hx) hle
    exact ⟨(agree_of_accepts hfree hxaccepted hyaccepted hb).1 ▸ hx,
      (agree_of_accepts hfree hxaccepted hyaccepted hle).1.symm ▸ hy⟩

theorem unify_bind_comm (h : (x.IsGround ∧ y.IsGround) ∨ f.MapFree) (b : Binding) :
    ((unify f x b).value?.bind fun b => (unify f y b).value?) =
      (unify f y b).value?.bind fun b => (unify f x b).value? := by
  refine Option.ext fun d => ?_
  simp only [Option.bind_eq_some_iff]
  constructor
  · rintro ⟨b₁, hx, hy⟩
    exact ⟨b₁, unify_of_unify h hx hy⟩
  · rintro ⟨b₁, hy, hx⟩
    exact ⟨b₁, unify_of_unify (h.imp_left And.symm) hy hx⟩

end twice

section calls

variable {function : String} {kwargs : Option TypeExpr} {s : Signature} {c c' : Call}
  {keywords keywords' : List (String × TypeExpr)}

/-- One further keyword, if all has gone well so far. -/
def collectOne (kwargs : Option TypeExpr) (b : Option Binding) (keyword : String × TypeExpr) :
    Option Binding :=
  b.bind fun b => kwargs.bind fun f => (unify f keyword.2 b).value?

theorem value?_collectKeywords (keywords : List (String × TypeExpr)) (b : Option Binding) :
    (b.bind fun b => (collectKeywords function kwargs keywords b).value?) =
      keywords.foldl (collectOne kwargs) b := by
  induction keywords generalizing b with
  | nil => simp [collectKeywords]
  | cons keyword rest ih =>
    rw [List.foldl_cons, ← ih, collectOne, Option.bind_assoc]
    cases kwargs <;> simp [collectKeywords]

theorem collectOne_comm {k k' : String × TypeExpr}
    (h : (k.2.IsGround ∧ k'.2.IsGround) ∨ ∀ f ∈ kwargs, f.MapFree) (b : Option Binding) :
    collectOne kwargs (collectOne kwargs b k) k' =
      collectOne kwargs (collectOne kwargs b k') k := by
  cases b with
  | none => rfl
  | some b =>
    cases kwargs with
    | none => rfl
    | some f => exact unify_bind_comm (h.imp_right fun hfree => hfree f rfl) b

/-- Further keywords bind the same in any order. -/
theorem collectKeywords_perm (hperm : keywords.Perm keywords')
    (h : (∀ k ∈ keywords, k.2.IsGround) ∨ ∀ f ∈ kwargs, f.MapFree) (b : Binding) :
    (collectKeywords function kwargs keywords b).value? =
      (collectKeywords function kwargs keywords' b).value? := by
  have hfold := hperm.foldl_eq' (f := collectOne kwargs) (fun k hk k' hk' b =>
    collectOne_comm (h.imp_left fun hground => ⟨hground k hk, hground k' hk'⟩) b) (some b)
  rwa [← value?_collectKeywords, ← value?_collectKeywords] at hfold

theorem Call.keyword?_eq_some_iff (hdistinct : (c.keywords.map Prod.fst).Nodup) {name : String}
    {t : TypeExpr} : c.keyword? name = some t ↔ (name, t) ∈ c.keywords := by
  constructor
  · intro h
    obtain ⟨before, after, heq, -⟩ := List.lookup_eq_some_iff.1 h
    simp [heq]
  · exact lookup_of_mem hdistinct

/-- Under distinct names, what a keyword is bound to does not depend on the order. -/
theorem Call.keyword?_perm (hdistinct : (c.keywords.map Prod.fst).Nodup)
    (hperm : c.keywords.Perm c'.keywords) (name : String) : c.keyword? name = c'.keyword? name := by
  have hdistinct' : (c'.keywords.map Prod.fst).Nodup := (hperm.map Prod.fst).nodup_iff.1 hdistinct
  refine Option.ext fun t => ?_
  rw [keyword?_eq_some_iff hdistinct, keyword?_eq_some_iff hdistinct', hperm.mem_iff]

theorem solveKeywords_congr (h : ∀ name, c.keyword? name = c'.keyword? name) (b : Binding) :
    solveKeywords function c keywords b = solveKeywords function c' keywords b := by
  induction keywords generalizing b with
  | nil => rfl
  | cons keyword rest ih => simp only [solveKeywords, h, ih]

/-- A call binds the same with its keywords in another order. -/
theorem matchCall_ok_iff_of_perm (hpositional : c.positional = c'.positional)
    (hdistinct : (c.keywords.map Prod.fst).Nodup) (hperm : c.keywords.Perm c'.keywords)
    (hdata : (∀ k ∈ c.extraKeywords s, k.2.IsGround) ∨ ∀ f ∈ s.kwargs, f.MapFree) (b : Binding) :
    (matchCall s c).result = .ok b ↔ (matchCall s c').result = .ok b := by
  have hextra : (c.extraKeywords s).Perm (c'.extraKeywords s) := hperm.filter _
  rw [← value?_eq_some_iff, ← value?_eq_some_iff, matchCall, matchCall,
    solveKeywords_congr (Call.keyword?_perm hdistinct hperm), hpositional]
  simp only [value?_bind, collectKeywords_perm hextra hdata]

/-- The functions `f(*Ts1, n: Ts1, **kwargs: tuple[*Map[list, Ts0]])` and `g(**kwargs: Ts0)`, called
with the keywords `x` and `y` in two orders.  Those of `g` are the wrapped variable `Ts5` and the
tuple of its spread form. -/
theorem matchCall_ok_iff_of_perm_swap :
    (matchCall ⟨"f", ⟨[.spread ⟨1⟩]⟩, [("n", .packed ⟨1⟩)],
        some (.tuple [.spreadMap (.named "list") ⟨0⟩]), .named "int"⟩
      ⟨[.named "bool"], [("y", .tuple [.apply (.named "list") [.named "int"]]),
        ("x", .tuple [.apply (.named "list") [.named "int"]]),
        ("n", .tuple [.named "bool"])]⟩).result =
        .ok ((Binding.empty.bindTuple ⟨1⟩ [.named "bool"]).bindTuple ⟨0⟩ [.named "int"]) ∧
      (matchCall ⟨"g", ⟨[]⟩, [], some (.packed ⟨0⟩), .named "int"⟩
        ⟨[], [("y", .tuple [.spread ⟨5⟩]), ("x", .packed ⟨5⟩)]⟩).result =
        .ok (Binding.empty.bindTuple ⟨0⟩ [.spread ⟨5⟩]) := by
  constructor
  · refine (matchCall_ok_iff_of_perm (c := ⟨[.named "bool"],
      [("x", .tuple [.apply (.named "list") [.named "int"]]),
        ("y", .tuple [.apply (.named "list") [.named "int"]]),
        ("n", .tuple [.named "bool"])]⟩) ?_ ?_ ?_ (.inl ?_) _).1 rfl
    · rfl
    · decide
    · exact .swap _ _ _
    · decide
  · refine (matchCall_ok_iff_of_perm (c := ⟨[], [("x", .packed ⟨5⟩),
      ("y", .tuple [.spread ⟨5⟩])]⟩) ?_ ?_ ?_ (.inr ?_) _).1 rfl
    · rfl
    · decide
    · exact .swap _ _ _
    · decide

/-- The keywords `x` and `y` are passed to `f(**kwargs: tuple[*Map[list, Ts0]])` with the types
`tuple[list[T5]]` and `tuple[list[int]]`.  If `x` is the first one, then `T5` is bound to `int`; if
`y` is, then the call fails. -/
theorem keyword_order_expanded :
    (matchCall ⟨"f", ⟨[]⟩, [], some (.tuple [.spreadMap (.named "list") ⟨0⟩]), .named "int"⟩
      ⟨[], [("x", .tuple [.apply (.named "list") [.var ⟨5⟩]]),
        ("y", .tuple [.apply (.named "list") [.named "int"]])]⟩).result =
        .ok ((Binding.empty.bindTuple ⟨0⟩ [.var ⟨5⟩]).bindScalar ⟨5⟩ (.named "int")) ∧
      (matchCall ⟨"f", ⟨[]⟩, [], some (.tuple [.spreadMap (.named "list") ⟨0⟩]), .named "int"⟩
        ⟨[], [("y", .tuple [.apply (.named "list") [.named "int"]]),
          ("x", .tuple [.apply (.named "list") [.var ⟨5⟩]])]⟩).result =
        .error ⟨.mismatch (.named "int") (.var ⟨5⟩), [.keyword "x", .arg 0, .arg 0]⟩ :=
  ⟨rfl, rfl⟩

end calls

end Polyadic
