import Polyadic.Diagnostic.Path
import Polyadic.TypeExpr.Variables

/-! # Positions inside a type

A path that starts at a type leads from one part to the next: `part?` takes one step, `follow?` all
of them.  What a path leads to is a node of the type (`mem_nodes_of_follow?`). -/

namespace Polyadic

namespace TypeExpr

/-- The part of a type that one step leads to. -/
def part? : TypeExpr → Segment → Option TypeExpr
  | .spreadMap ctor _, .ctor => some ctor
  | .apply head _, .ctor => some head
  | .apply _ args, .arg i => args[i]?
  | .union members, .member i => members[i]?
  | .arrow params _, .callableParam i => params[i]?
  | .arrow _ result, .result => some result
  | _, _ => none

/-- The type at a position inside a type. -/
def follow? (t : TypeExpr) : Path → Option TypeExpr
  | [] => some t
  | segment :: path => (t.part? segment).bind (·.follow? path)

variable {t p u : TypeExpr} {segment : Segment} {path : Path}

@[simp] theorem follow?_nil (t : TypeExpr) : t.follow? [] = some t := rfl

theorem follow?_cons_eq_some_iff :
    t.follow? (segment :: path) = some u ↔
      ∃ p, t.part? segment = some p ∧ p.follow? path = some u :=
  Option.bind_eq_some_iff

theorem mem_nodes_of_part? (h : t.part? segment = some p) (hu : u ∈ p.nodes) : u ∈ t.nodes := by
  have element {ts : List TypeExpr} {i : Nat} (hp : ts[i]? = some p) : u ∈ allNodes ts := by
    rw [allNodes_eq_flatMap]
    exact List.mem_flatMap.2 ⟨p, List.mem_of_getElem? hp, hu⟩
  unfold part? at h
  split at h
  case h_1 | h_2 | h_6 =>
    cases h
    simp [nodes, hu]
  case h_3 | h_4 | h_5 => simp [nodes, element h]
  case h_7 => cases h

theorem mem_nodes_of_follow? (h : t.follow? path = some u) : u ∈ t.nodes := by
  induction path generalizing t with
  | nil =>
    cases h
    exact self_mem_nodes _
  | cons segment path ih =>
    obtain ⟨p, hp, hu⟩ := follow?_cons_eq_some_iff.1 h
    exact mem_nodes_of_part? hp (ih hu)

end TypeExpr

end Polyadic
