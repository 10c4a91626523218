import Polyadic.Matching.List

/-! # Where the matching of lists calls the matching of types

A row of slots is matched through its arguments and the constructors of its arguments: two ways of
matching types that agree on those match the row alike (`matchList_congr`). -/

namespace Polyadic

open Attempt

/-- Two ways of matching agree on a list of arguments if they do so on its elements and on
everything at most as heavy. -/
def AgreeOn (u u' : Unifier) (arguments : List TypeExpr) : Prop :=
  ∀ x ∈ arguments, ∀ f a b, a.weight ≤ x.weight → u f a b = u' f a b

variable {u u' : Unifier} {place : Nat → Segment}

theorem AgreeOn.mono {as bs : List TypeExpr} (h : AgreeOn u u' bs) (hs : ∀ a ∈ as, a ∈ bs) :
    AgreeOn u u' as := fun x hx => h x (hs x hx)

theorem unifyEach_congr {arguments : List TypeExpr} (h : AgreeOn u u' arguments) (i : Nat)
    (formals : List TypeExpr) (b : Binding) :
    unifyEach u place i formals arguments b = unifyEach u' place i formals arguments b := by
  induction arguments generalizing i formals b with
  | nil => cases formals <;> simp [unifyEach]
  | cons a as ih =>
    cases formals with
    | nil => simp [unifyEach]
    | cons f fs =>
      simp only [unifyEach, h a (by simp) f a b (Nat.le_refl _)]
      congr
      funext b
      exact ih (h.mono (by simp +contextual)) (i + 1) fs b

theorem stripEach_congr {ctor : TypeExpr} {ts : TupleVar} {arguments : List TypeExpr}
    (h : AgreeOn u u' arguments) (i : Nat) (b : Binding) :
    stripEach u place ctor ts i arguments b = stripEach u' place ctor ts i arguments b := by
  induction arguments generalizing i b with
  | nil => rfl
  | cons a as ih =>
    simp only [stripEach, ih (h.mono (by simp +contextual))]
    split
    · rename_i head operand ha
      rw [h a (by simp) ctor head b (Nat.le_of_lt (TypeExpr.weight_lt_of_unary ha))]
    · rfl

theorem matchSlot_congr {slot : Slot} {run : Run} (h : AgreeOn u u' run.types) (b : Binding) :
    matchSlot u place slot run b = matchSlot u' place slot run b := by
  cases slot with
  | single formal => exact unifyEach_congr h _ _ b
  | spread ts => rfl
  | mapped ctor ts =>
    simp only [matchSlot]
    split
    · rw [unifyEach_congr h]
    · rw [stripEach_congr h]

theorem takeSlot_congr {w : Window} (h : AgreeOn u u' w.run.types) :
    takeSlot u place w = takeSlot u' place w := by
  have hfirst (k : Nat) : AgreeOn u u' (w.run.first k).types := h.mono fun _ => List.mem_of_mem_take
  have hafter (k : Nat) : AgreeOn u u' (w.run.after k).types := h.mono fun _ => List.mem_of_mem_drop
  simp only [takeSlot, matchSlot_congr (hfirst _), matchSlot_congr (hafter _)]

/-- Taking a slot leaves a part of the arguments, and one slot less if there is one. -/
theorem takeSlot_result {w w' : Window} (h : (takeSlot u place w).result = .ok w') :
    (∀ t ∈ w'.run.types, t ∈ w.run.types) ∧ w'.slots.length = w.slots.length - 1 := by
  unfold takeSlot at h
  split at h
  · rename_i hm
    obtain rfl : w = w' := by simpa using h
    simp [nextMove_eq_done hm]
  · rename_i slot rest hm
    split at h
    · cases h
    · obtain ⟨b, -, hb⟩ := result_bind_eq_ok_iff.1 h
      cases hb
      exact ⟨fun _ => List.mem_of_mem_drop, by simp [(nextMove_eq_front hm).1]⟩
  · rename_i rest slot hm
    split at h
    · cases h
    · obtain ⟨b, -, hb⟩ := result_bind_eq_ok_iff.1 h
      cases hb
      exact ⟨fun _ => List.mem_of_mem_take, by simp [(nextMove_eq_back hm).1]⟩
  · rename_i slot rest hm
    obtain ⟨k, -, hk⟩ := result_bind_eq_ok_iff.1 h
    obtain ⟨b, -, hb⟩ := result_bind_eq_ok_iff.1 hk
    cases hb
    exact ⟨fun _ => List.mem_of_mem_drop, by simp [(nextMove_eq_stuck hm).1]⟩

theorem takeSlots_congr {n : Nat} {w : Window} (h : AgreeOn u u' w.run.types) :
    takeSlots u place n w = takeSlots u' place n w := by
  induction n generalizing w with
  | zero => rfl
  | succ n ih =>
    simp only [takeSlots, ← takeSlot_congr h]
    cases hr : (takeSlot u place w).result with
    | error e => rw [bind_of_error hr, bind_of_error hr]
    | ok w' => rw [bind_of_ok hr, bind_of_ok hr, ih (h.mono (takeSlot_result hr).1)]

/-- A row of slots is matched through its arguments and what is no heavier than one of them. -/
theorem matchList_congr {slots : List Slot} {arguments : List TypeExpr} {b : Binding}
    (h : AgreeOn u u' arguments) :
    matchList u place slots arguments b = matchList u' place slots arguments b := by
  have hw : AgreeOn u u' (Window.whole slots arguments b).run.types := h
  simp only [matchList, takeSlots_congr hw]

end Polyadic
