import Polyadic.Proofs.CanonicalTypes

/-! # Types told apart by their texts

The text of a canonical type determines the type (`TypeExpr.text_eq_iff`).

What is proved by induction on the type is that its text ends by itself (`TypeExpr.Delimited`): of
two texts that are followed by nothing, a comma or a closing bracket, neither is longer than the
other.  Three facts carry it: a word goes on as long as word characters do (`append_inj_of_words`),
the parts of a list are told apart one by one (`intercalate_append_inj`), and a callable type does
not read like a union that begins with a callable member (`arrow_append_ne_sum`). -/

namespace Polyadic

namespace TypeExpr

/-! ### Texts that end by themselves -/

/-- Nothing follows, or the comma or the bracket of what encloses a type. -/
def Closes (rest : List Char) : Prop := ∀ c ∈ rest.head?, c = ',' ∨ c = ']' ∨ c = ')'

/-- No word goes on here, and no brackets are opened. -/
def EndsMember (rest : List Char) : Prop := ∀ c ∈ rest.head?, isWordChar c = false ∧ c ≠ '['

/-- The text of a type ends by itself where a type may end. -/
def Delimited (t : TypeExpr) : Prop :=
  ∀ u : TypeExpr, u.IsCanonical → ∀ rest rest', Closes rest → Closes rest' →
    t.chars ++ rest = u.chars ++ rest' → t = u ∧ rest = rest'

section delimited

variable {t u : TypeExpr} {ts us : List TypeExpr} {rest rest' : List Char}

/-- Behind an element of a list there is a comma or the closing bracket. -/
theorem closes_listTail {close : Char} (ts : List TypeExpr) (hclose : close = ']' ∨ close = ')')
    (l : List Char) :
    Closes ((if ts = [] then [] else ',' :: ' ' :: listChars ts) ++ close :: l) := by
  split
  · simpa [Closes] using .inr hclose
  · simp [Closes]

/-- The parts of a list are told apart one by one, if the text of a part ends by itself before a
separator and before the end of the list. -/
theorem intercalate_append_inj {f : TypeExpr → List Char} {sep : List Char}
    {Edge Stop : List Char → Prop} (hsep : ∀ l, Edge (sep ++ l)) (hstop : ∀ l, Stop l → Edge l)
    (hne : ∀ l, ¬Stop (sep ++ l))
    (hpart : ∀ t ∈ ts, ∀ u ∈ us, ∀ l l', Edge l → Edge l' → f t ++ l = f u ++ l' → t = u ∧ l = l')
    (hts : ts ≠ []) (hus : us ≠ []) (hrest : Stop rest) (hrest' : Stop rest')
    (h : sep.intercalate (ts.map f) ++ rest = sep.intercalate (us.map f) ++ rest') :
    ts = us ∧ rest = rest' := by
  induction ts generalizing us with
  | nil => exact absurd rfl hts
  | cons t ts ih =>
    cases us with
    | nil => exact absurd rfl hus
    | cons u us =>
      have edge (xs : List TypeExpr) (l : List Char) (hl : Stop l) :
          Edge ((if xs.map f = [] then [] else sep ++ sep.intercalate (xs.map f)) ++ l) := by
        split
        · exact hstop l hl
        · rw [List.append_assoc]
          exact hsep _
      simp only [List.map_cons, intercalate_cons, List.append_assoc] at h
      obtain ⟨rfl, htail⟩ := hpart t (by simp) u (by simp) _ _ (edge ts rest hrest)
        (edge us rest' hrest') h
      cases ts with
      | nil =>
        cases us with
        | nil => exact ⟨rfl, by simpa using htail⟩
        | cons u' us =>
          refine absurd hrest ?_
          simp only [List.map_nil, if_true, List.nil_append, List.map_cons, reduceCtorEq, if_false,
            List.append_assoc] at htail
          rw [htail]
          exact hne _
      | cons t' ts =>
        cases us with
        | nil =>
          refine absurd hrest' ?_
          simp only [List.map_nil, if_true, List.nil_append, List.map_cons, reduceCtorEq, if_false,
            List.append_assoc] at htail
          rw [← htail]
          exact hne _
        | cons u' us =>
          simp only [List.map_cons, reduceCtorEq, if_false, List.append_assoc] at htail
          obtain ⟨hlist, hrest⟩ := ih
            (fun t ht u hu => hpart t (List.mem_cons_of_mem _ ht) u (List.mem_cons_of_mem _ hu))
            (by simp) (by simp) (List.append_cancel_left htail)
          exact ⟨by rw [hlist], hrest⟩

/-- Where a type may begin, no bracket is closed. -/
theorem chars_append_ne_closing {close : Char} (ht : t.IsCanonical)
    (hclose : close = ']' ∨ close = ')') (l : List Char) : t.chars ++ rest ≠ close :: l := by
  intro heq
  obtain ⟨c, l', hl, hc⟩ := exists_cons ht rest
  obtain ⟨rfl, -⟩ := List.cons.inj (hl.symm.trans heq)
  exact not_opensWith_closing hclose hc

/-- A list up to its closing bracket. -/
theorem listChars_append_inj {close : Char} (hclose : close = ']' ∨ close = ')')
    (hts : ∀ t ∈ ts, t.IsCanonical ∧ t.Delimited) (hus : ∀ u ∈ us, u.IsCanonical)
    (h : listChars ts ++ close :: rest = listChars us ++ close :: rest') :
    ts = us ∧ rest = rest' := by
  have hopen {t : TypeExpr} {ts : List TypeExpr} (ht : t.IsCanonical) (l l' : List Char) :
      listChars (t :: ts) ++ l ≠ close :: l' := by
    rw [listChars_cons, List.append_assoc]
    exact chars_append_ne_closing ht hclose l'
  cases ts with
  | nil =>
    cases us with
    | nil => exact ⟨rfl, (List.cons.inj h).2⟩
    | cons u us => exact absurd h.symm (hopen (hus u (by simp)) _ _)
  | cons t ts =>
    cases us with
    | nil => exact absurd h (hopen (hts t (by simp)).1 _ _)
    | cons u us =>
      have hstop (l : List Char) : ∃ l', close :: l = close :: l' := ⟨l, rfl⟩
      have hcloses (l : List Char) (hl : ∃ l', l = close :: l') : Closes l := by
        obtain ⟨l', rfl⟩ := hl
        rcases hclose with rfl | rfl <;> simp [Closes]
      have hcomma (l : List Char) : ¬∃ l', [',', ' '] ++ l = close :: l' := by
        rintro ⟨l', hl⟩
        rcases hclose with rfl | rfl <;> simp at hl
      obtain ⟨hlist, hrest⟩ := intercalate_append_inj (by simp [Closes]) hcloses hcomma
        (fun t ht u hu l l' hl hl' => (hts t ht).2 u (hus u hu) l l' hl hl')
        (by simp) (by simp) (hstop rest) (hstop rest') h
      exact ⟨hlist, (List.cons.inj hrest).2⟩

/-- No type begins with a pair of parentheses before a bracket. -/
theorem chars_append_ne_unit (ht : t.IsCanonical) (l : List Char) :
    t.chars ++ rest ≠ '(' :: ')' :: ']' :: l := by
  intro heq
  cases t with
  | arrow params result =>
    rw [chars_arrow, List.cons_append] at heq
    have htail := (List.cons.inj heq).2
    cases params with
    | nil => simp [listChars] at htail
    | cons p ps =>
      rw [listChars_cons, List.append_assoc, List.append_assoc] at htail
      exact chars_append_ne_closing ((isCanonical_arrow.1 ht).1 p (by simp)) (.inr rfl) _ htail
  | union ms =>
    obtain ⟨m, -, hm, hunion, l', hl⟩ := exists_chars_union ht rest
    rw [hl, memberChars] at heq
    split at heq
    · rw [List.cons_append, List.append_assoc] at heq
      exact chars_append_ne_closing hm (.inr rfl) _ (List.cons.inj heq).2
    · rename_i harrow
      exact harrow (isArrow_of_chars hm hunion heq)
  | _ => cases isArrow_of_chars ht rfl heq

/-- The arguments of an application up to their closing bracket. -/
theorem argChars_append_inj (hts : ∀ t ∈ ts, t.IsCanonical ∧ t.Delimited)
    (hus : ∀ u ∈ us, u.IsCanonical)
    (h : argChars ts ++ ']' :: rest = argChars us ++ ']' :: rest') : ts = us ∧ rest = rest' := by
  have hunit {t : TypeExpr} {ts : List TypeExpr} (ht : t.IsCanonical) (l l' : List Char) :
      argChars (t :: ts) ++ l ≠ argChars [] ++ ']' :: l' := by
    rw [argChars, if_neg (by simp), listChars_cons, List.append_assoc]
    exact chars_append_ne_unit ht l'
  cases ts with
  | nil =>
    cases us with
    | nil => simpa using h
    | cons u us => exact absurd h.symm (hunit (hus u (by simp)) _ _)
  | cons t ts =>
    cases us with
    | nil => exact absurd h (hunit (hts t (by simp)).1 _ _)
    | cons u us =>
      rw [argChars, if_neg (by simp), argChars, if_neg (by simp)] at h
      exact listChars_append_inj (.inl rfl) hts hus h

/-- A callable type does not read like a union that begins with a callable member: behind the
parameters there is an arrow, and behind the member a bar. -/
theorem arrow_append_ne_sum {params : List TypeExpr} {result : TypeExpr}
    (ht : (arrow params result).IsCanonical) (hu : u.IsCanonical) (harrow : u.isArrow = false)
    (hparts : ∀ p ∈ params, ∀ m ∈ u.members, m.isArrow = true → ∀ l l', Closes l → Closes l' →
      p.chars ++ l = m.chars ++ l' → p = m ∧ l = l') :
    (arrow params result).chars ++ rest ≠ u.chars ++ rest' := by
  intro heq
  rw [chars_arrow, List.cons_append] at heq
  cases u with
  | union ms =>
    obtain ⟨m, hmem, hm, hunion, l, hl⟩ := exists_chars_union hu rest'
    rw [hl, memberChars] at heq
    split at heq
    · rename_i hma
      rw [List.cons_append, List.append_assoc, List.append_assoc] at heq
      have htail := (List.cons.inj heq).2
      cases params with
      | nil => exact chars_append_ne_closing hm (.inr rfl) _ htail.symm
      | cons p ps =>
        rw [listChars_cons, List.append_assoc] at htail
        obtain ⟨-, hbehind⟩ := hparts p (by simp) m hmem hma _ _ (closes_listTail ps (.inr rfl) _)
          (by simp [Closes]) htail
        cases ps <;> simp at hbehind
    · rename_i hnot
      exact hnot (isArrow_of_chars hm hunion heq.symm)
  | _ =>
    have := isArrow_of_chars hu rfl heq.symm
    simp_all

/-- A type that begins with a word is that word or the application of it. -/
theorem exists_word (ht : t.IsCanonical) (hunion : t.isUnion = false) (harrow : t.isArrow = false)
    (hspliced : t.isSpliced = false) :
    ∃ name tail, t.chars = name.toList ++ tail ∧ (∀ c ∈ name.toList, isWordChar c = true) ∧
      (t.word? = some name ∧ tail = [] ∨
        ∃ args, t = apply (named name) args ∧ tail = '[' :: (argChars args ++ [']'])) := by
  have word {name : String} (h : t.word? = some name) :=
    chars_of_word ht h
  cases t with
  | named name => exact ⟨name, [], by simp, (word rfl).2.2, .inl ⟨rfl, rfl⟩⟩
  | var v => exact ⟨v.text, [], by simp, (word rfl).2.2, .inl ⟨rfl, rfl⟩⟩
  | packed ts => exact ⟨ts.text, [], by simp, (word rfl).2.2, .inl ⟨rfl, rfl⟩⟩
  | apply head args =>
    obtain ⟨⟨name, rfl⟩, hname, -⟩ := isCanonical_apply.1 ht
    refine ⟨name, _, by rw [chars_apply, chars_named], ?_, .inr ⟨args, rfl, rfl⟩⟩
    exact (isWord_of_identifier (isCanonical_named.1 hname).1).2
  | spread | spreadMap => cases hspliced
  | union => cases hunion
  | arrow => cases harrow

section members

variable (hlt : ∀ p : TypeExpr, p.weight < t.weight → p.IsCanonical → p.Delimited)

include hlt

theorem worded_append_inj (ht : t.IsCanonical) (htu : t.isUnion = false) (hta : t.isArrow = false)
    (hts : t.isSpliced = false) (hu : u.IsCanonical) (huu : u.isUnion = false)
    (hua : u.isArrow = false) (hus : u.isSpliced = false) (hrest : EndsMember rest)
    (hrest' : EndsMember rest') (h : t.chars ++ rest = u.chars ++ rest') :
    t = u ∧ rest = rest' := by
  obtain ⟨name, tail, hchars, hword, hform⟩ := exists_word ht htu hta hts
  obtain ⟨name', tail', hchars', hword', hform'⟩ := exists_word hu huu hua hus
  have ends {x : TypeExpr} {name : String} {tail l : List Char} (hl : EndsMember l)
      (hform : x.word? = some name ∧ tail = [] ∨
        ∃ args, x = apply (named name) args ∧ tail = '[' :: (argChars args ++ [']'])) :
      EndsWord (tail ++ l) := by
    rcases hform with ⟨-, rfl⟩ | ⟨args, -, rfl⟩
    · exact fun c hc => (hl c hc).1
    · rintro c ⟨⟩
      rfl
  have hopen {l l' : List Char} (hl : EndsMember l) : [] ++ l ≠ '[' :: l' := by
    rintro rfl
    exact (hl _ rfl).2 rfl
  rw [hchars, hchars', List.append_assoc, List.append_assoc] at h
  obtain ⟨hname, htail⟩ :=
    append_inj_of_words hword hword' (ends hrest hform) (ends hrest' hform') h
  obtain rfl := String.toList_inj.1 hname
  rcases hform with ⟨hw, rfl⟩ | ⟨args, rfl, rfl⟩ <;>
    rcases hform' with ⟨hw', rfl⟩ | ⟨args', rfl, rfl⟩
  · exact ⟨eq_of_word ht hu hw hw', htail⟩
  · exact absurd htail (hopen hrest)
  · exact absurd htail.symm (hopen hrest')
  · simp only [List.cons_append, List.append_assoc, List.cons.injEq, true_and] at htail
    have hargs : ∀ a ∈ args, a.IsCanonical ∧ a.Delimited := fun a ha =>
      have hcanonical := (isCanonical_apply.1 ht).2.2 a ha
      ⟨hcanonical, hlt a (weight_lt_apply ha) hcanonical⟩
    obtain ⟨rfl, hrest⟩ := argChars_append_inj hargs (isCanonical_apply.1 hu).2.2 htail
    exact ⟨rfl, hrest⟩

theorem spliced_append_inj (hts : t.isSpliced = true) (hus : u.isSpliced = true)
    (ht : t.IsCanonical) (hu : u.IsCanonical) (hrest : EndsMember rest)
    (hrest' : EndsMember rest') (h : t.chars ++ rest = u.chars ++ rest') :
    t = u ∧ rest = rest' := by
  have digits (n : Nat) : ∀ c ∈ Nat.toDigits 10 n, isWordChar c = true :=
    fun c => isWordChar_of_mem_toDigits
  cases t with
  | spread ts =>
    cases u with
    | spread us =>
      simp only [chars_spread, TupleVar.toList_text, List.cons_append, List.cons.injEq,
        true_and] at h
      obtain ⟨hdigits, hrest⟩ := append_inj_of_words (digits _) (digits _)
        (fun c hc => (hrest c hc).1) (fun c hc => (hrest' c hc).1) h
      have hts : ts = us := TupleVar.text_inj.1 (String.toList_inj.1 (by simp [hdigits]))
      exact ⟨by rw [hts], hrest⟩
    | spreadMap ctor us => simp at h
    | _ => cases hus
  | spreadMap ctor ts =>
    cases u with
    | spread us => simp at h
    | spreadMap ctor' us =>
      simp only [chars_spreadMap, List.cons_append, List.append_assoc, List.cons.injEq,
        true_and] at h
      have hctor := isCanonical_spreadMap.1 ht
      obtain ⟨rfl, hbehind⟩ := hlt ctor (by simp [weight]) hctor ctor' (isCanonical_spreadMap.1 hu)
        _ _ (by simp [Closes]) (by simp [Closes]) h
      simp only [TupleVar.toList_text, List.cons_append, List.cons.injEq, true_and,
        List.nil_append] at hbehind
      obtain ⟨hdigits, hrest⟩ := append_inj_of_words (digits _) (digits _)
        (by rintro c ⟨⟩; rfl) (by rintro c ⟨⟩; rfl) hbehind
      have hts : ts = us := TupleVar.text_inj.1 (String.toList_inj.1 (by simp [hdigits]))
      exact ⟨by rw [hts], (List.cons.inj hrest).2⟩
    | _ => cases hus
  | _ => cases hts

/-- The text of a member of a union ends by itself before a bar too. -/
theorem member_append_inj (hself : t.isArrow = true → t.Delimited) (ht : t.IsCanonical)
    (htu : t.isUnion = false) (hu : u.IsCanonical) (huu : u.isUnion = false)
    (hrest : EndsMember rest) (hrest' : EndsMember rest')
    (h : t.memberChars ++ rest = u.memberChars ++ rest') : t = u ∧ rest = rest' := by
  rw [memberChars, memberChars] at h
  split at h <;> split at h
  · rename_i hta hua
    simp only [List.cons_append, List.append_assoc, List.cons.injEq, true_and,
      List.nil_append] at h
    obtain ⟨rfl, hbehind⟩ := hself hta u hu _ _ (by simp [Closes]) (by simp [Closes]) h
    exact ⟨rfl, (List.cons.inj hbehind).2⟩
  · rename_i hta hua
    exact absurd (isArrow_of_chars hu huu h.symm) hua
  · rename_i hta hua
    exact absurd (isArrow_of_chars ht htu h) hta
  · rename_i hta hua
    rw [Bool.not_eq_true] at hta hua
    have hspliced := isSpliced_eq ht htu hta hu huu hua h
    cases hts : t.isSpliced
    · exact worded_append_inj hlt ht htu hta hts hu huu hua (hspliced ▸ hts) hrest hrest' h
    · exact spliced_append_inj hlt hts (hspliced ▸ hts) ht hu hrest hrest' h

end members

/-- The text of a canonical type ends by itself. -/
theorem IsCanonical.delimited (ht : t.IsCanonical) : t.Delimited := by
  induction hn : t.weight using Nat.strongRecOn generalizing t with
  | ind n ih =>
    subst hn
    have hlt (p : TypeExpr) (hp : p.weight < t.weight) (hcanonical : p.IsCanonical) : p.Delimited :=
      ih p.weight hp hcanonical rfl
    intro u hu rest rest' hrest hrest' h
    cases hta : t.isArrow <;> cases hua : u.isArrow
    · -- Both are written as their members, with bars between them.
      rw [chars_eq_members ht hta, chars_eq_members hu hua] at h
      have hpart (m : TypeExpr) (hm : m ∈ t.members) (m' : TypeExpr) (hm' : m' ∈ u.members)
          (l l' : List Char) (hl : EndsMember l) (hl' : EndsMember l')
          (h : m.memberChars ++ l = m'.memberChars ++ l') : m = m' ∧ l = l' := by
        obtain ⟨hcanonical, hunion, hle, hself⟩ := member_properties ht hta hm
        obtain ⟨hcanonical', hunion', -⟩ := member_properties hu hua hm'
        exact member_append_inj (fun p hp => hlt p (Nat.lt_of_lt_of_le hp hle))
          (fun h => hlt m (hself h) hcanonical) hcanonical hunion hcanonical' hunion' hl hl' h
      have hbar (l : List Char) : EndsMember ([' ', '|', ' '] ++ l) := by rintro c ⟨⟩; decide
      have hcloses (l : List Char) (hl : Closes l) : EndsMember l := by
        intro c hc
        rcases hl c hc with rfl | rfl | rfl <;> decide
      obtain ⟨hmembers, hbehind⟩ := intercalate_append_inj hbar hcloses (by simp [Closes]) hpart
        (members_ne_nil ht) (members_ne_nil hu) hrest hrest' h
      exact ⟨eq_of_members ht hu hmembers, hbehind⟩
    · cases u <;> cases hua
      refine absurd h.symm (arrow_append_ne_sum hu ht hta ?_)
      intro p hp m hm hma l l' hl hl' h
      obtain ⟨hcanonical, -, -, hself⟩ := member_properties ht hta hm
      obtain ⟨rfl, hrest⟩ := hlt m (hself hma) hcanonical p ((isCanonical_arrow.1 hu).1 p hp) l' l
        hl' hl h.symm
      exact ⟨rfl, hrest.symm⟩
    · cases t <;> cases hta
      refine absurd h (arrow_append_ne_sum ht hu hua ?_)
      intro p hp m hm _ l l' hl hl' h
      exact hlt p (weight_lt_arrow hp) ((isCanonical_arrow.1 ht).1 p hp) m
        (member_properties hu hua hm).1 l l' hl hl' h
    · cases t <;> cases hta
      cases u <;> cases hua
      obtain ⟨hparams, hresult⟩ := isCanonical_arrow.1 ht
      obtain ⟨hparams', hresult'⟩ := isCanonical_arrow.1 hu
      simp only [chars_arrow, List.cons_append, List.append_assoc, List.cons.injEq, true_and] at h
      obtain ⟨rfl, hbehind⟩ := listChars_append_inj (.inr rfl)
        (fun p hp => ⟨hparams p hp, hlt p (weight_lt_arrow hp) (hparams p hp)⟩) hparams' h
      simp only [List.cons.injEq, true_and] at hbehind
      obtain ⟨rfl, hrest⟩ := hlt _ weight_result_lt hresult _ hresult' _ _ hrest hrest' hbehind
      exact ⟨rfl, hrest⟩

end delimited

/-- Canonical types of one text are one type. -/
theorem text_eq_iff {t u : TypeExpr} (ht : t.IsCanonical) (hu : u.IsCanonical) :
    t.text = u.text ↔ t = u := by
  constructor
  · intro h
    have hchars : t.chars ++ [] = u.chars ++ [] := by rw [chars, chars, h]
    exact (ht.delimited u hu [] [] (by simp [Closes]) (by simp [Closes]) hchars).1
  · rintro rfl
    rfl

/-- The types `(() -> list[()]) | str` and `() -> list[()] | str` differ in their nesting, and so
in their texts. -/
theorem text_eq_iff_callable :
    (union [.arrow [] (.apply (.named "list") []), .named "str"]).IsCanonical ∧
      (arrow [] (.union [.apply (.named "list") [], .named "str"])).IsCanonical ∧
      (union [.arrow [] (.apply (.named "list") []), .named "str"]).text ≠
        (arrow [] (.union [.apply (.named "list") [], .named "str"])).text := by
  have ht : (union [.arrow [] (.apply (.named "list") []), .named "str"]).IsCanonical := by decide
  have hu : (arrow [] (.union [.apply (.named "list") [], .named "str"])).IsCanonical := by decide
  refine ⟨ht, hu, fun h => ?_⟩
  have := (text_eq_iff ht hu).1 h
  contradiction

end TypeExpr

end Polyadic
