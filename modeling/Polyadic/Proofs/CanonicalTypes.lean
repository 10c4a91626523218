import Polyadic.TypeExpr.Text
import Polyadic.Proofs.Nodes

/-! # Canonical types and how they are written

A type is canonical (`TypeExpr.IsCanonical`) if its names are identifiers that are not written like
variables, applications are those of a name, and a union has at least two members, none of which is
a union.  The text of a canonical type is taken here as a list of characters, with one equation for
each form of a type; its first character tells words, spliced forms and callable types apart
(`TypeExpr.exists_cons`), and a word stands for one type (`TypeExpr.eq_of_word`). -/

namespace Polyadic

/-! ### Words -/

/-- Letters, digits and the underscore. -/
def isWordChar (c : Char) : Bool := c.isAlphanum || c == '_'

/-- Whether a name is an identifier: word characters, the first of which is no digit. -/
def isIdentifier (name : String) : Bool :=
  match name.toList with
  | [] => false
  | c :: cs => (c.isAlpha || c == '_') && cs.all isWordChar

/-- Whether there is a digit, and nothing but digits. -/
def isNumber (cs : List Char) : Bool := !cs.isEmpty && cs.all Char.isDigit

/-- Whether a name is `T` or `Ts` followed by digits, as variables are written. -/
def isNumbered (name : String) : Bool :=
  (name.toList.take 1 == ['T'] && isNumber (name.toList.drop 1)) ||
    (name.toList.take 2 == ['T', 's'] && isNumber (name.toList.drop 2))

/-- No word goes on here. -/
def EndsWord (rest : List Char) : Prop := ∀ c ∈ rest.head?, isWordChar c = false

/-- Two words that are followed by something else are read off a text in one way. -/
theorem append_inj_of_words {w w' rest rest' : List Char} (hw : ∀ c ∈ w, isWordChar c = true)
    (hw' : ∀ c ∈ w', isWordChar c = true) (hrest : EndsWord rest) (hrest' : EndsWord rest')
    (h : w ++ rest = w' ++ rest') : w = w' ∧ rest = rest' := by
  induction w generalizing w' with
  | nil =>
    cases w' with
    | nil => exact ⟨rfl, h⟩
    | cons c w' =>
      rw [List.nil_append] at h
      have hc := hrest c (by simp [h])
      rw [hw' c (by simp)] at hc
      cases hc
  | cons c w ih =>
    cases w' with
    | nil =>
      rw [List.nil_append] at h
      have hc := hrest' c (by simp [← h])
      rw [hw c (by simp)] at hc
      cases hc
    | cons c' w' =>
      obtain ⟨hc, htail⟩ := List.cons.inj h
      have hwords := ih (fun x hx => hw x (by simp [hx])) (fun x hx => hw' x (by simp [hx])) htail
      exact ⟨by rw [hc, hwords.1], hwords.2⟩

theorem intercalate_cons (sep l : List Char) (ls : List (List Char)) :
    sep.intercalate (l :: ls) = l ++ if ls = [] then [] else sep ++ sep.intercalate ls := by
  cases ls <;> simp [List.intercalate_cons_cons]

theorem isWordChar_of_mem_toDigits {n : Nat} {c : Char} (h : c ∈ Nat.toDigits 10 n) :
    isWordChar c = true := by
  have hc := Nat.isDigit_of_mem_toDigits (by decide) (by decide) h
  simp [isWordChar, Char.isAlphanum, hc]

theorem isNumber_toDigits (n : Nat) : isNumber (Nat.toDigits 10 n) = true := by
  have hdigits : (Nat.toDigits 10 n).all Char.isDigit = true :=
    List.all_eq_true.2 fun c => Nat.isDigit_of_mem_toDigits (by decide) (by decide)
  simp [isNumber, hdigits, Nat.toDigits_ne_nil]

/-! ### Variables -/

theorem TypeVar.isNumbered_text (v : TypeVar) : isNumbered v.text = true := by
  simp [isNumbered, isNumber_toDigits]

theorem TupleVar.isNumbered_text (ts : TupleVar) : isNumbered ts.text = true := by
  simp [isNumbered, isNumber_toDigits]

namespace TypeExpr

/-! ### Canonical types -/

/-- What a canonical type asks of one of its nodes. -/
def isCanonicalNode : TypeExpr → Bool
  | .named name => isIdentifier name && !isNumbered name
  | .apply (.named _) _ => true
  | .apply _ _ => false
  | .union members => decide (2 ≤ members.length) && members.all fun m => !m.isUnion
  | _ => true

/-- The names in a type are identifiers that are not written like variables, what is applied is a
name, and unions have several members, none of which is a union. -/
def IsCanonical (t : TypeExpr) : Prop := t.Everywhere fun n => n.isCanonicalNode = true

instance (t : TypeExpr) : Decidable t.IsCanonical := inferInstanceAs (Decidable (t.Everywhere _))

section canonical

@[simp] theorem isCanonical_named {name : String} :
    (named name).IsCanonical ↔ isIdentifier name = true ∧ isNumbered name = false := by
  rw [← Bool.not_eq_true', ← Bool.and_eq_true]
  exact everywhere_named

@[simp] theorem isCanonical_var {v : TypeVar} : (var v).IsCanonical := everywhere_var.2 rfl

@[simp] theorem isCanonical_packed {ts : TupleVar} : (packed ts).IsCanonical :=
  everywhere_packed.2 rfl

@[simp] theorem isCanonical_spread {ts : TupleVar} : (spread ts).IsCanonical :=
  everywhere_spread.2 rfl

@[simp] theorem isCanonical_spreadMap {ctor : TypeExpr} {ts : TupleVar} :
    (spreadMap ctor ts).IsCanonical ↔ ctor.IsCanonical :=
  everywhere_spreadMap.trans (and_iff_right rfl)

theorem isCanonical_apply {head : TypeExpr} {args : List TypeExpr} :
    (apply head args).IsCanonical ↔
      (∃ name, head = named name) ∧ head.IsCanonical ∧ ∀ t ∈ args, t.IsCanonical := by
  have hhead : (apply head args).isCanonicalNode = true ↔ ∃ name, head = named name := by
    cases head with
    | named name => exact iff_of_true rfl ⟨name, rfl⟩
    | _ => exact iff_of_false Bool.false_ne_true (by rintro ⟨_, ⟨⟩⟩)
  exact everywhere_apply.trans (and_congr_left' hhead)

@[simp] theorem isCanonical_union {members : List TypeExpr} :
    (union members).IsCanonical ↔
      (2 ≤ members.length ∧ ∀ m ∈ members, m.isUnion = false) ∧ ∀ m ∈ members, m.IsCanonical := by
  have hnode : (union members).isCanonicalNode = true ↔
      2 ≤ members.length ∧ ∀ m ∈ members, m.isUnion = false := by
    rw [isCanonicalNode]
    simp
  exact everywhere_union.trans (and_congr_left' hnode)

@[simp] theorem isCanonical_arrow {params : List TypeExpr} {result : TypeExpr} :
    (arrow params result).IsCanonical ↔ (∀ t ∈ params, t.IsCanonical) ∧ result.IsCanonical :=
  everywhere_arrow.trans (and_iff_right rfl)

end canonical

/-! ### Characters of texts -/

/-- The characters of the text of a type. -/
def chars (t : TypeExpr) : List Char := t.text.toList

/-- The characters of a list of types. -/
def listChars (ts : List TypeExpr) : List Char := [',', ' '].intercalate (ts.map chars)

/-- The characters between the brackets of an application. -/
def argChars (args : List TypeExpr) : List Char :=
  if args = [] then ['(', ')'] else listChars args

/-- The characters of a member of a union. -/
def memberChars (m : TypeExpr) : List Char :=
  if m.isArrow then '(' :: (m.chars ++ [')']) else m.chars

/-- The members of a union; any other type is its own only member. -/
def members : TypeExpr → List TypeExpr
  | .union ms => ms
  | t => [t]

section chars

variable {t : TypeExpr} {ts : List TypeExpr}

theorem intercalate_renderAll (ts : List TypeExpr) :
    [',', ' '].intercalate ((renderAll .none ts).map String.toList) = listChars ts := by
  rw [renderAll_eq_map, List.map_map]
  rfl

@[simp] theorem chars_named (name : String) : (named name).chars = name.toList := rfl

@[simp] theorem chars_var (v : TypeVar) : (var v).chars = v.text.toList := rfl

@[simp] theorem chars_packed (ts : TupleVar) : (packed ts).chars = ts.text.toList := rfl

@[simp] theorem chars_spread (ts : TupleVar) : (spread ts).chars = '*' :: ts.text.toList := by
  show ("*" ++ ts.text).toList = _
  simp

@[simp] theorem chars_spreadMap (ctor : TypeExpr) (ts : TupleVar) :
    (spreadMap ctor ts).chars =
      '*' :: 'M' :: 'a' :: 'p' :: '[' ::
        (ctor.chars ++ ',' :: ' ' :: (ts.text.toList ++ [']'])) := by
  show ("*Map[" ++ ctor.text ++ ", " ++ ts.text ++ "]").toList = _
  simp [chars]

@[simp] theorem chars_apply (head : TypeExpr) (args : List TypeExpr) :
    (apply head args).chars = head.chars ++ '[' :: (argChars args ++ [']']) := by
  cases args with
  | nil =>
    show (head.text ++ "[()]").toList = _
    simp [chars, argChars]
  | cons a as =>
    show (head.text ++ "[" ++ ", ".intercalate (renderAll .none (a :: as)) ++ "]").toList = _
    simp [chars, argChars, intercalate_renderAll]

@[simp] theorem chars_arrow (params : List TypeExpr) (result : TypeExpr) :
    (arrow params result).chars =
      '(' :: (listChars params ++ ')' :: ' ' :: '-' :: '>' :: ' ' :: result.chars) := by
  show ("(" ++ ", ".intercalate (renderAll .none params) ++ ") -> " ++ result.text).toList = _
  simp [chars, intercalate_renderAll]

theorem chars_union {ms : List TypeExpr} (h : ms ≠ []) :
    (union ms).chars = [' ', '|', ' '].intercalate (ms.map memberChars) := by
  obtain ⟨m, ms, rfl⟩ := List.exists_cons_of_ne_nil h
  show (" | ".intercalate (renderMembers .none (m :: ms))).toList = _
  rw [String.toList_intercalate, renderMembers_eq_map, List.map_map]
  congr 2
  funext m
  simp only [Function.comp_apply, renderMember, memberChars, chars, text]
  split <;> simp

/-- A canonical union begins with a member and a bar. -/
theorem exists_chars_union {ms : List TypeExpr} (ht : (union ms).IsCanonical) (rest : List Char) :
    ∃ m ∈ ms, m.IsCanonical ∧ m.isUnion = false ∧
      ∃ l, (union ms).chars ++ rest = m.memberChars ++ ' ' :: '|' :: ' ' :: l := by
  obtain ⟨⟨hlength, hunion⟩, hms⟩ := isCanonical_union.1 ht
  match ms with
  | m :: m' :: ms =>
    refine ⟨m, by simp, hms m (by simp), hunion m (by simp),
      [' ', '|', ' '].intercalate ((m' :: ms).map memberChars) ++ rest, ?_⟩
    rw [chars_union (by simp), List.map_cons, intercalate_cons]
    simp

/-- A type that is not callable is written as its members. -/
theorem chars_eq_members (ht : t.IsCanonical) (harrow : t.isArrow = false) :
    t.chars = [' ', '|', ' '].intercalate (t.members.map memberChars) := by
  cases t with
  | union ms =>
    rw [isCanonical_union] at ht
    refine chars_union ?_
    rintro rfl
    simp at ht
  | _ => simp_all [members, memberChars, List.intercalate, isArrow]

theorem listChars_cons (t : TypeExpr) (ts : List TypeExpr) :
    listChars (t :: ts) = t.chars ++ if ts = [] then [] else ',' :: ' ' :: listChars ts := by
  simp [listChars, intercalate_cons]

end chars

/-! ### How texts begin -/

section openings

variable {t u : TypeExpr} {name : String} {c : Char}

/-- The text of a type that is written as one word. -/
def word? : TypeExpr → Option String
  | .named name => some name
  | .var v => some v.text
  | .packed ts => some ts.text
  | _ => none

theorem isWord_of_identifier (h : isIdentifier name = true) :
    name.toList ≠ [] ∧ ∀ c ∈ name.toList, isWordChar c = true := by
  unfold isIdentifier at h
  split at h
  · cases h
  · rename_i c cs heq
    simp only [Bool.and_eq_true, Bool.or_eq_true, beq_iff_eq, List.all_eq_true] at h
    rw [heq]
    refine ⟨by simp, ?_⟩
    intro x hx
    rcases List.mem_cons.1 hx with rfl | hx
    · rcases h.1 with h | h <;> simp [isWordChar, Char.isAlphanum, h]
    · exact h.2 x hx

theorem chars_of_word (ht : t.IsCanonical) (h : t.word? = some name) :
    t.chars = name.toList ∧ name.toList ≠ [] ∧ ∀ c ∈ name.toList, isWordChar c = true := by
  have digits (n : Nat) : ∀ c ∈ Nat.toDigits 10 n, isWordChar c = true :=
    fun c => isWordChar_of_mem_toDigits
  cases t with
  | named _ =>
    cases h
    exact ⟨chars_named name, isWord_of_identifier (isCanonical_named.1 ht).1⟩
  | var v =>
    cases h
    refine ⟨chars_var v, by simp, ?_⟩
    simp only [TypeVar.toList_text, List.mem_cons, forall_eq_or_imp]
    exact ⟨by decide, digits _⟩
  | packed ts =>
    cases h
    refine ⟨chars_packed ts, by simp, ?_⟩
    simp only [TupleVar.toList_text, List.mem_cons, forall_eq_or_imp]
    exact ⟨by decide, by decide, digits _⟩
  | _ => cases h

/-- A word stands for one type. -/
theorem eq_of_word (ht : t.IsCanonical) (hu : u.IsCanonical) (h : t.word? = some name)
    (h' : u.word? = some name) : t = u := by
  have hword {x : TypeExpr} (hx : x.IsCanonical) (h : x.word? = some name) :
      x = .named name ∧ isNumbered name = false ∨ (∃ v, x = .var v ∧ v.text = name) ∨
        ∃ ts, x = .packed ts ∧ ts.text = name := by
    cases x with
    | named _ => cases h; exact .inl ⟨rfl, (isCanonical_named.1 hx).2⟩
    | var v => cases h; exact .inr (.inl ⟨v, rfl, rfl⟩)
    | packed ts => cases h; exact .inr (.inr ⟨ts, rfl, rfl⟩)
    | _ => cases h
  rcases hword ht h with ⟨rfl, hname⟩ | ⟨v, rfl, rfl⟩ | ⟨ts, rfl, rfl⟩ <;>
    rcases hword hu h' with ⟨rfl, hname'⟩ | ⟨w, rfl, hw⟩ | ⟨us, rfl, hus⟩
  · rfl
  · simp [← hw, TypeVar.isNumbered_text] at hname
  · simp [← hus, TupleVar.isNumbered_text] at hname
  · simp [TypeVar.isNumbered_text] at hname'
  · rw [TypeVar.text_inj.1 hw]
  · exact absurd hus.symm (v.text_ne us)
  · simp [TupleVar.isNumbered_text] at hname'
  · exact absurd hw (w.text_ne ts)
  · rw [TupleVar.text_inj.1 hus]

/-- How the text of a type may begin. -/
def OpensWith : TypeExpr → Char → Prop
  | .arrow _ _, c => c = '('
  | .spread _, c | .spreadMap _ _, c => c = '*'
  | .union _, c => c = '(' ∨ c = '*' ∨ isWordChar c = true
  | _, c => isWordChar c = true

theorem exists_cons_of_word (ht : t.IsCanonical) (h : t.word? = some name) (rest : List Char) :
    ∃ c l, t.chars ++ rest = c :: l ∧ isWordChar c = true := by
  obtain ⟨heq, hne, hall⟩ := chars_of_word ht h
  obtain ⟨c, cs, hcs⟩ := List.exists_cons_of_ne_nil hne
  exact ⟨c, cs ++ rest, by rw [heq, hcs, List.cons_append], hall c (by simp [hcs])⟩

theorem exists_cons_of_not_union (ht : t.IsCanonical) (h : t.isUnion = false)
    (rest : List Char) : ∃ c l, t.chars ++ rest = c :: l ∧ t.OpensWith c := by
  cases t with
  | named name => exact exists_cons_of_word ht rfl rest
  | var v => exact exists_cons_of_word ht rfl rest
  | packed ts => exact exists_cons_of_word ht rfl rest
  | spread ts => exact ⟨'*', _, by rw [chars_spread, List.cons_append], rfl⟩
  | spreadMap ctor ts => exact ⟨'*', _, by rw [chars_spreadMap, List.cons_append], rfl⟩
  | apply head args =>
    obtain ⟨⟨name, rfl⟩, hname, -⟩ := isCanonical_apply.1 ht
    rw [chars_apply, List.append_assoc]
    exact exists_cons_of_word hname rfl _
  | arrow params result => exact ⟨'(', _, by rw [chars_arrow, List.cons_append], rfl⟩
  | union members => cases h

/-- The text of a type begins as that of its first member does, and a callable member with a
parenthesis as well. -/
theorem exists_cons (ht : t.IsCanonical) (rest : List Char) :
    ∃ c l, t.chars ++ rest = c :: l ∧ t.OpensWith c := by
  cases t with
  | union ms =>
    obtain ⟨m, -, hm, hunion, l, hl⟩ := exists_chars_union ht rest
    rw [hl, memberChars]
    split
    · exact ⟨'(', _, rfl, .inl rfl⟩
    · obtain ⟨c, l', hl', hc⟩ := exists_cons_of_not_union hm hunion _
      refine ⟨c, l', hl', ?_⟩
      cases m <;> simp_all [OpensWith, isUnion]
  | _ => exact exists_cons_of_not_union ht rfl rest

theorem not_opensWith_closing (h : c = ']' ∨ c = ')') : ¬t.OpensWith c := by
  have hc : isWordChar c = false ∧ c ≠ '(' ∧ c ≠ '*' := by rcases h with rfl | rfl <;> decide
  cases t <;> simp [OpensWith, hc]

/-- Only a callable type begins with a parenthesis, unions apart. -/
theorem isArrow_of_chars {rest l : List Char} (ht : t.IsCanonical) (hunion : t.isUnion = false)
    (h : t.chars ++ rest = '(' :: l) : t.isArrow = true := by
  obtain ⟨c, l', hl, hc⟩ := exists_cons ht rest
  obtain ⟨rfl, -⟩ := List.cons.inj (hl.symm.trans h)
  have hparen : isWordChar '(' = false := by decide
  cases t <;> simp_all [OpensWith, isArrow, isUnion]

/-- Spliced forms are known from words by their beginning. -/
theorem isSpliced_eq {rest rest' : List Char} (ht : t.IsCanonical) (htu : t.isUnion = false)
    (hta : t.isArrow = false) (hu : u.IsCanonical) (huu : u.isUnion = false)
    (hua : u.isArrow = false) (h : t.chars ++ rest = u.chars ++ rest') :
    t.isSpliced = u.isSpliced := by
  obtain ⟨c, l, hl, hc⟩ := exists_cons ht rest
  obtain ⟨c', l', hl', hc'⟩ := exists_cons hu rest'
  obtain ⟨rfl, -⟩ := List.cons.inj (hl.symm.trans (h.trans hl'))
  have hstar : isWordChar '*' = false := by decide
  have hiff {x : TypeExpr} (hx : x.OpensWith c) (hunion : x.isUnion = false)
      (harrow : x.isArrow = false) : x.isSpliced = true ↔ c = '*' := by
    cases x <;> simp_all [OpensWith, isSpliced, isUnion, isArrow] <;> rintro rfl <;> simp_all
  exact Bool.eq_iff_iff.2 ((hiff hc htu hta).trans (hiff hc' huu hua).symm)

end openings

/-! ### Members -/

section members

variable {t u m : TypeExpr}

theorem member_properties (ht : t.IsCanonical) (harrow : t.isArrow = false) (hm : m ∈ t.members) :
    m.IsCanonical ∧ m.isUnion = false ∧ m.weight ≤ t.weight ∧
      (m.isArrow = true → m.weight < t.weight) := by
  cases t with
  | union ms =>
    obtain ⟨⟨-, hunion⟩, hms⟩ := isCanonical_union.1 ht
    exact ⟨hms m hm, hunion m hm, Nat.le_of_lt (weight_lt_union hm), fun _ => weight_lt_union hm⟩
  | _ =>
    obtain rfl := List.mem_singleton.1 hm
    refine ⟨ht, rfl, Nat.le_refl _, fun h => ?_⟩
    rw [harrow] at h
    cases h

theorem members_ne_nil (ht : t.IsCanonical) : t.members ≠ [] := by
  cases t with
  | union ms =>
    rintro h
    obtain rfl : ms = [] := h
    simp at ht
  | _ => exact List.cons_ne_nil _ _

/-- A union has several members and any other type has one, so the members tell the type. -/
theorem eq_of_members (ht : t.IsCanonical) (hu : u.IsCanonical) (h : t.members = u.members) :
    t = u := by
  have single {x : TypeExpr} (hx : x.isUnion = false) : x.members = [x] := by
    cases x <;> simp_all [members, isUnion]
  have hne {x : TypeExpr} {ms : List TypeExpr} (hms : (union ms).IsCanonical) : ms ≠ [x] := by
    rintro rfl
    simp at hms
  cases htu : t.isUnion <;> cases huu : u.isUnion
  · rw [single htu, single huu] at h
    exact (List.cons.inj h).1
  · cases u <;> cases huu
    rw [single htu] at h
    exact absurd h.symm (hne hu)
  · cases t <;> cases htu
    rw [single huu] at h
    exact absurd h (hne ht)
  · cases t <;> cases htu
    cases u <;> cases huu
    exact congrArg union h

end members

end TypeExpr

end Polyadic
