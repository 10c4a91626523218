import Polyadic.Matching.Length
import Polyadic.Proofs.Extension

/-! # Lengths that a binding leaves open

A match knows of a row only what its binding tells.  Let `L` give every tuple variable a length, so
that it agrees with the binding where that has a sequence.  What the row takes under `L` is then
admitted by the match (`admits_rowLength`), and if one tuple variable is open, an even share is its
length under `L` (`share_eq_lengthIn`). -/

namespace Polyadic

theorem nodup_eraseDups {α : Type} [BEq α] [LawfulBEq α] (xs : List α) : xs.eraseDups.Nodup := by
  induction hn : xs.length using Nat.strongRecOn generalizing xs with
  | ind n ih =>
    cases xs with
    | nil => simp
    | cons a as =>
      have hshorter : (as.filter fun b => !b == a).length < n := by
        have := List.length_filter_le (fun b => !b == a) as
        rw [List.length_cons] at hn
        omega
      rw [List.eraseDups_cons, List.nodup_cons]
      exact ⟨by simp, ih _ hshorter _ rfl⟩

theorem length_eraseDups_le_one {α : Type} [BEq α] [LawfulBEq α] {x : α} {xs : List α}
    (h : ∀ y ∈ xs, y = x) : xs.eraseDups.length ≤ 1 := by
  cases xs with
  | nil => simp
  | cons y ys =>
    have hrest : (ys.filter fun z => !z == y) = [] := by
      rw [List.filter_eq_nil_iff]
      intro z hz
      simp [h y (by simp), h z (by simp [hz])]
    simp [List.eraseDups_cons, hrest]

variable {L : TupleVar → Nat} {b : Binding} {slots : List Slot} {slot : Slot} {n : Nat}

/-- The lengths of the sequences of a binding. -/
def Measures (L : TupleVar → Nat) (b : Binding) : Prop :=
  ∀ ts contents, b.tuple? ts = some contents → L ts = contents.length

theorem Measures.of_le {c : Binding} (hL : Measures L c) (hle : b ≤ c) : Measures L b :=
  fun ts contents hb => hL ts contents (Binding.tuple?_of_le hle hb)

/-- The lengths of the bound sequences, and one for the others. -/
def Binding.lengthOf (b : Binding) (ts : TupleVar) : Nat := ((b.tuple? ts).map List.length).getD 1

theorem measures_lengthOf (b : Binding) : Measures b.lengthOf b := by
  intro ts contents hb
  simp [Binding.lengthOf, hb]

namespace Slot

/-- The number of arguments that a slot takes under given lengths. -/
def lengthIn (L : TupleVar → Nat) (slot : Slot) : Nat := (slot.tuple?.map L).getD 1

theorem lengthIn_of_tuple {ts : TupleVar} (h : slot.tuple? = some ts) :
    slot.lengthIn L = L ts := by simp [lengthIn, h]

theorem width_of_isOpen (h : slot.isOpen b = true) : slot.width b = 0 := by
  rw [isOpen, Option.isNone_iff_eq_none] at h
  simp [width, h]

theorem width_of_takesRun (h : slot.takesRun = false) : slot.width b = 1 := by
  cases slot with
  | single t => rfl
  | spread | mapped => cases h

theorem takesRun_of_isOpen (h : slot.isOpen b = true) : slot.takesRun = true := by
  obtain ⟨ts, hts, -⟩ := isOpen_iff.1 h
  rw [takesRun, hts, Option.isSome_some]

/-- A slot whose length is known has a bound tuple variable, if it has one. -/
theorem exists_of_known {ts : TupleVar} (hts : slot.tuple? = some ts) (h : slot.isOpen b = false) :
    ∃ contents, b.tuple? ts = some contents := by
  cases hb : b.tuple? ts with
  | some contents => exact ⟨contents, rfl⟩
  | none =>
    rw [isOpen_iff.2 ⟨ts, hts, hb⟩] at h
    cases h

theorem lengthIn_of_known (hL : Measures L b) (h : slot.isOpen b = false) :
    slot.lengthIn L = slot.width b := by
  cases slot with
  | single t => rfl
  | spread ts | mapped ctor ts =>
    obtain ⟨contents, hts⟩ := exists_of_known rfl h
    rw [width_of_bound rfl hts, lengthIn_of_tuple rfl, hL ts contents hts]

theorem width_le_lengthIn (hL : Measures L b) (slot : Slot) :
    slot.width b ≤ slot.lengthIn L := by
  cases h : slot.isOpen b with
  | true => simp [width_of_isOpen h]
  | false => exact Nat.le_of_eq (lengthIn_of_known hL h).symm

end Slot

/-- The number of arguments that a row takes under given lengths. -/
def rowLength (L : TupleVar → Nat) : List Slot → Nat
  | [] => 0
  | slot :: rest => slot.lengthIn L + rowLength L rest

@[simp] theorem rowLength_nil : rowLength L [] = 0 := rfl

@[simp] theorem rowLength_cons :
    rowLength L (slot :: slots) = slot.lengthIn L + rowLength L slots := rfl

@[simp] theorem rowLength_append {slots' : List Slot} :
    rowLength L (slots ++ slots') = rowLength L slots + rowLength L slots' := by
  induction slots with
  | nil => simp
  | cons slot rest ih =>
    rw [List.cons_append, rowLength_cons, rowLength_cons, ih]
    omega

theorem rowLength_singles (types : List TypeExpr) :
    rowLength L (types.map .single) = types.length := by
  induction types with
  | nil => rfl
  | cons t ts ih =>
    rw [List.map_cons, rowLength_cons, ih, List.length_cons, Nat.add_comm]
    rfl

theorem requiredLength_le_rowLength (hL : Measures L b) (slots : List Slot) :
    requiredLength b slots ≤ rowLength L slots := by
  induction slots with
  | nil => simp [requiredLength]
  | cons slot rest ih =>
    have hslot := Slot.width_le_lengthIn hL slot
    rw [requiredLength, rowLength_cons]
    omega

/-- A row takes what its known slots take, and as often the length `n` as there are open slots, if
each of these takes that length. -/
theorem rowLength_eq (hL : Measures L b)
    (hn : ∀ slot ∈ slots, slot.isOpen b = true → slot.lengthIn L = n) :
    rowLength L slots = requiredLength b slots + openCount b slots * n := by
  induction slots with
  | nil => simp [requiredLength, openCount]
  | cons slot rest ih =>
    have hrest := ih fun x hx => hn x (by simp [hx])
    rw [rowLength_cons, hrest, requiredLength]
    cases hopen : slot.isOpen b with
    | true =>
      have hcount : openCount b (slot :: rest) = openCount b rest + 1 := by
        simp [openCount, hopen]
      rw [hn slot (by simp) hopen, Slot.width_of_isOpen hopen, hcount, Nat.add_mul]
      omega
    | false =>
      have hcount : openCount b (slot :: rest) = openCount b rest := by simp [openCount, hopen]
      rw [Slot.lengthIn_of_known hL hopen, hcount]
      omega

/-- What a row takes under given lengths is admitted by it. -/
theorem admits_rowLength (hL : Measures L b) (slots : List Slot) :
    (listArity b slots).Admits (rowLength L slots) := by
  unfold listArity
  split
  · rename_i hnone
    have hlength : rowLength L slots = requiredLength b slots + openCount b slots * 0 :=
      rowLength_eq hL fun slot hslot hopen =>
        absurd hopen (List.countP_eq_zero.1 hnone slot hslot)
    exact hlength
  · exact requiredLength_le_rowLength hL slots

/-- If one tuple variable is open at most, then what the known slots leave over is the length of an
open slot, once for each of them. -/
theorem share_eq_lengthIn (hL : Measures L b) (hone : (openTuples b slots).length ≤ 1)
    (hslot : slot ∈ slots) (hopen : slot.isOpen b = true) :
    rowLength L slots - requiredLength b slots = openCount b slots * slot.lengthIn L := by
  have hsame : ∀ x ∈ slots, x.isOpen b = true → x.lengthIn L = slot.lengthIn L := by
    intro x hx hxopen
    obtain ⟨ts, hts, hb⟩ := Slot.isOpen_iff.1 hopen
    obtain ⟨us, hus, hb'⟩ := Slot.isOpen_iff.1 hxopen
    have hmem := mem_openTuples.2 ⟨hb, slot, hslot, hts⟩
    have hmem' := mem_openTuples.2 ⟨hb', x, hx, hus⟩
    obtain ⟨vs, hvs⟩ : ∃ vs, openTuples b slots = [vs] := by
      have := List.length_pos_of_mem hmem
      exact List.length_eq_one_iff.1 (by omega)
    rw [hvs, List.mem_singleton] at hmem hmem'
    rw [Slot.lengthIn_of_tuple hus, Slot.lengthIn_of_tuple hts, hmem, hmem']
  rw [rowLength_eq hL hsame]
  omega

/-! ### One tuple variable -/

theorem Slot.mem_tupleMentions {ts : TupleVar} (h : slot.tuple? = some ts) :
    ts ∈ slot.toType.tupleMentions := by
  cases slot with
  | single t => cases h
  | spread | mapped =>
    cases h
    simp [Slot.toType]

/-- Slots that know one tuple variable only leave at most one open. -/
theorem length_openTuples_le_one {ts : TupleVar}
    (h : ∀ slot ∈ slots, ∀ us, slot.tuple? = some us → us = ts) :
    (openTuples b slots).length ≤ 1 := by
  refine length_eraseDups_le_one (x := ts) fun us hus => ?_
  obtain ⟨slot, hslot, hus⟩ := List.mem_filterMap.1 hus
  exact h slot (List.mem_filter.1 hslot).1 us hus

theorem ParameterList.exists_single_tuple {list : ParameterList} (h : list.tupleVars.length ≤ 1) :
    ∃ ts, ∀ slot ∈ list.slots, ∀ us ∈ slot.toType.tupleMentions, us = ts := by
  obtain ⟨ts, hts⟩ : ∃ ts, ∀ us ∈ list.tupleVars, us = ts := by
    cases hvars : list.tupleVars with
    | nil => exact ⟨⟨0⟩, by simp⟩
    | cons ts rest =>
      rw [hvars, List.length_cons] at h
      obtain rfl : rest = [] := List.eq_nil_of_length_eq_zero (by omega)
      exact ⟨ts, by simp⟩
  refine ⟨ts, fun slot hslot us hus => hts us ?_⟩
  rw [tupleVars, List.mem_eraseDups, List.mem_flatMap]
  exact ⟨slot.toType, List.mem_map_of_mem hslot, hus⟩

end Polyadic
