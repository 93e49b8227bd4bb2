import Stencil.Proofs.Placeholder.Form

/-!
# The words of placeholders

A placeholder is made of words, the parts that hold no white space: `if`, the parenthesis with its
fillers, a brace, the two ends of a comment, each of its fillers, a name. `Text.Joins` says that a
text is made of words with white space between them and none around them. The characters that are
not white space tell where each word starts and ends, so white space that is put in or taken out
between two words leaves the words as they are: that is `Text.Joins.respace`.
-/

set_option autoImplicit false

namespace Stencil

namespace Text

/-- Something, and no white space. -/
def Solid (t : Text) : Prop := t ≠ [] ∧ ∀ c ∈ t, isBlank c = false

/-- Words in their order, with white space between them. -/
inductive Joins : List Text → Text → Prop
  | last {word : Text} (hword : Solid word) : Joins [word] word
  | cons {word space t : Text} {words : List Text} (hword : Solid word) (hspace : Blanks space)
      (hrest : Joins words t) : Joins (word :: words) (word ++ space ++ t)

/-- The empty text is blank. -/
theorem blanks_nil : Blanks [] := fun _ hc => absurd hc List.not_mem_nil

/-- White space behind white space is white space. -/
theorem Blanks.append {s t : Text} (hs : Blanks s) (ht : Blanks t) : Blanks (s ++ t) :=
  List.forall_mem_append.2 ⟨hs, ht⟩

/-- A solid text is all signs. -/
theorem Solid.signs {t : Text} (h : Solid t) : signs t = t := by
  unfold Text.signs
  rw [List.filter_eq_self]
  intro c hc
  simp [h.2 c hc]

/-- A text without white space is solid, unless it is empty. -/
theorem solid_of_all {t : Text} (hne : t ≠ []) (h : t.all (!isBlank ·) = true) : Solid t := by
  refine ⟨hne, fun c hc => ?_⟩
  simpa using List.all_eq_true.1 h c hc

/-- Where two texts start with the same signs, the one that goes on has only white space more. -/
theorem eq_append_blanks_of_signs {s t u v : Text} (h : s ++ u = t ++ v)
    (hsigns : signs s = signs t) (hlast : ∀ c, s.getLast? = some c → isBlank c = false) :
    ∃ space, Blanks space ∧ t = s ++ space ∧ u = space ++ v := by
  rcases List.append_eq_append_iff.1 h with ⟨space, rfl, rfl⟩ | ⟨more, rfl, rfl⟩
  · rw [signs_append, List.self_eq_append_right] at hsigns
    exact ⟨space, blanks_of_signs hsigns, rfl, rfl⟩
  · rw [signs_append, List.append_right_eq_self] at hsigns
    have hblanks : Blanks more := blanks_of_signs hsigns
    cases hmore : more.getLast? with
    | none =>
        rw [List.getLast?_eq_none_iff] at hmore
        subst hmore
        exact ⟨[], blanks_nil, by simp, rfl⟩
    | some c =>
        have hc : isBlank c = false := hlast c (by simp [List.getLast?_append, hmore])
        rw [hblanks c (List.mem_of_getLast? hmore)] at hc
        cases hc

/-- The same from the other end. -/
theorem eq_blanks_append_of_signs {s t u v : Text} (h : u ++ s = v ++ t)
    (hsigns : signs s = signs t) (hhead : ∀ c, s.head? = some c → isBlank c = false) :
    ∃ space, Blanks space ∧ t = space ++ s ∧ u = v ++ space := by
  have hreverse : s.reverse ++ u.reverse = t.reverse ++ v.reverse := by
    rw [← List.reverse_append, h, List.reverse_append]
  have hsigns' : signs s.reverse = signs t.reverse := by
    unfold signs at hsigns ⊢
    rw [List.filter_reverse, List.filter_reverse, hsigns]
  obtain ⟨space, hspace, ht, hu⟩ := eq_append_blanks_of_signs hreverse hsigns' (by
    rw [List.getLast?_reverse]
    exact hhead)
  refine ⟨space.reverse, fun c hc => hspace c (List.mem_reverse.1 hc), ?_, ?_⟩
  · rw [← List.reverse_reverse t, ht, List.reverse_append, List.reverse_reverse]
  · rw [← List.reverse_reverse u, hu, List.reverse_append, List.reverse_reverse]

namespace Joins

variable {words words' : List Text} {t : Text}

/-- What is joined has a word. -/
theorem words_ne_nil (h : Joins words t) : words ≠ [] := by
  cases h <;> exact List.cons_ne_nil _ _

/-- What is joined is not empty. -/
theorem ne_nil (h : Joins words t) : t ≠ [] := by
  cases h with
  | last hword => exact hword.1
  | cons hword hspace hrest => simp [hword.1]

/-- The words are all that is not white space. -/
theorem signs (h : Joins words t) : signs t = words.flatten := by
  induction h with
  | last hword => simp [hword.signs]
  | cons hword hspace hrest ih =>
      rw [signs_append, signs_append, hword.signs, signs_of_blanks hspace, ih]
      simp

/-- What is joined starts with no white space. -/
theorem head (h : Joins words t) {c : Char} (hc : t.head? = some c) : isBlank c = false := by
  cases h with
  | last hword => exact hword.2 c (List.mem_of_mem_head? hc)
  | cons hword hspace hrest =>
      rw [List.append_assoc, List.head?_append_of_ne_nil _ hword.1] at hc
      exact hword.2 c (List.mem_of_mem_head? hc)

/-- What is joined ends with no white space. -/
theorem getLast (h : Joins words t) {c : Char} (hc : t.getLast? = some c) : isBlank c = false := by
  induction h with
  | last hword => exact hword.2 c (List.mem_of_getLast? hc)
  | cons hword hspace hrest ih =>
      rw [List.getLast?_append_of_ne_nil _ hrest.ne_nil] at hc
      exact ih hc

/-- Two rows of words with white space between them are one row. -/
theorem append {space t' : Text} (h : Joins words t) (hspace : Blanks space)
    (h' : Joins words' t') : Joins (words ++ words') (t ++ space ++ t') := by
  induction h with
  | last hword => exact .cons hword hspace h'
  | cons hword hspace' hrest ih =>
      rw [List.append_assoc _ space, List.append_assoc, ← List.append_assoc _ space]
      exact .cons hword hspace' ih

/-- Behind the first word come white space and the other words. -/
theorem uncons {word : Text} (h : Joins (word :: words) t) (hne : words ≠ []) :
    ∃ space rest, Solid word ∧ Blanks space ∧ Joins words rest ∧ t = word ++ space ++ rest := by
  cases h with
  | last => exact absurd rfl hne
  | cons hword hspace hrest => exact ⟨_, _, hword, hspace, hrest, rfl⟩

/-- White space stands between the words in front and the words behind. -/
theorem split (hne : words ≠ []) (hne' : words' ≠ []) (h : Joins (words ++ words') t) :
    ∃ front space back, Joins words front ∧ Blanks space ∧ Joins words' back ∧
      t = front ++ space ++ back := by
  induction words generalizing t with
  | nil => exact absurd rfl hne
  | cons word words ih =>
      rw [List.cons_append] at h
      cases words with
      | nil =>
          obtain ⟨space, back, hword, hspace, hback, rfl⟩ := h.uncons hne'
          exact ⟨word, space, back, .last hword, hspace, hback, rfl⟩
      | cons word' words =>
          obtain ⟨space, rest, hword, hspace, hrest, rfl⟩ := h.uncons (List.cons_ne_nil _ _)
          obtain ⟨front, space', back, hfront, hspace', hback, rfl⟩ :=
            ih (List.cons_ne_nil _ _) hrest
          exact ⟨_, space', back, .cons hword hspace hfront, hspace', hback, by simp⟩

/-- White space between two words can be put in and taken out. -/
theorem respace {x space space' y : Text} (h : Joins (words ++ words') (x ++ space ++ y))
    (hx : Text.signs x = words.flatten) (hy : Text.signs y = words'.flatten) (hne : words ≠ [])
    (hne' : words' ≠ []) (hspace' : Blanks space') :
    Joins (words ++ words') (x ++ space' ++ y) := by
  obtain ⟨front, between, back, hfront, -, hback, heq⟩ := h.split hne hne'
  have hleft : front ++ (between ++ back) = x ++ (space ++ y) := by
    rw [← List.append_assoc, ← heq, List.append_assoc]
  obtain ⟨r, hr, rfl, hrest⟩ :=
    eq_append_blanks_of_signs hleft (hfront.signs.trans hx.symm) fun _ hc => hfront.getLast hc
  have hright : between ++ back = (r ++ space) ++ y := by rw [hrest, List.append_assoc]
  obtain ⟨r', hr', rfl, -⟩ :=
    eq_blanks_append_of_signs hright (hback.signs.trans hy.symm) fun _ hc => hback.head hc
  have hjoins := hfront.append ((hr.append hspace').append hr') hback
  simpa using hjoins

/-- A single word is joined as it is. -/
theorem eq_of_singleton {word : Text} (h : Joins [word] t) : t = word := by
  cases h with
  | last => rfl
  | cons _ _ hrest => exact absurd rfl hrest.words_ne_nil

end Joins

end Text

namespace Placeholder

/-- The words of a comment. -/
def commentWords (filler : Char) (n : Nat) : List Text :=
  "/*".toList :: (List.replicate (n + 1) [filler] ++ ["*/".toList])

/-- The words of a condition. -/
def conditionWords (n : Nat) : List Text :=
  ["if".toList, '(' :: (List.replicate (n + 1) Sentinel.opening ++ [')']), ['{']]

/-- The bracketed part of a condition is solid. -/
theorem solid_condition (n : Nat) :
    Text.Solid ('(' :: (List.replicate (n + 1) Sentinel.opening ++ [')'])) := by
  refine ⟨List.cons_ne_nil _ _, fun c hc => ?_⟩
  rcases List.mem_cons.1 hc with rfl | hc
  · decide
  rcases List.mem_append.1 hc with hc | hc
  · rw [List.eq_of_mem_replicate hc]
    decide
  · rw [List.mem_singleton.1 hc]
    decide

/-- A condition is made of its words. -/
theorem isCondition_iff_joins {t : Text} :
    IsCondition t ↔ ∃ n, Text.Joins (conditionWords n) t := by
  constructor
  · rintro ⟨space, n, space', hspace, hspace', rfl⟩
    have hif : Text.Solid "if".toList := Text.solid_of_all (by decide) (by decide)
    have hbrace : Text.Solid ['{'] := Text.solid_of_all (by decide) (by decide)
    have hjoins : Text.Joins (conditionWords n) _ :=
      .cons hif hspace (.cons (solid_condition n) hspace' (.last hbrace))
    exact ⟨n, by simpa using hjoins⟩
  · rintro ⟨n, h⟩
    obtain ⟨space, rest, -, hspace, hrest, rfl⟩ := h.uncons (List.cons_ne_nil _ _)
    obtain ⟨space', brace, -, hspace', hbrace, rfl⟩ := hrest.uncons (List.cons_ne_nil _ _)
    obtain rfl := hbrace.eq_of_singleton
    exact ⟨space, n, space', hspace, hspace', by simp⟩

/-- Fillers with white space among them, up to the end of the comment. -/
theorem joins_of_fillers {filler : Char} (hfiller : Text.isBlank filler = false) {body : Text}
    (hbody : ∀ c ∈ body, c = filler ∨ Text.isBlank c = true) :
    ∃ space t, Text.Blanks space ∧ body ++ "*/".toList = space ++ t ∧
      Text.Joins (List.replicate (body.count filler) [filler] ++ ["*/".toList]) t := by
  induction body with
  | nil =>
      have hend : Text.Solid "*/".toList := Text.solid_of_all (by decide) (by decide)
      exact ⟨[], "*/".toList, Text.blanks_nil, rfl, .last hend⟩
  | cons c body ih =>
      obtain ⟨space, t, hspace, heq, hjoins⟩ := ih fun x hx => hbody x (List.mem_cons_of_mem _ hx)
      by_cases hc : c = filler
      · subst hc
        have hsolid : Text.Solid [c] := ⟨List.cons_ne_nil _ _, by simpa using hfiller⟩
        refine ⟨[], [c] ++ space ++ t, Text.blanks_nil, ?_, ?_⟩
        · rw [List.cons_append, heq, List.append_assoc]
          rfl
        · rw [List.count_cons_self, List.replicate_succ, List.cons_append]
          exact .cons hsolid hspace hjoins
      · have hblank : Text.isBlank c = true := (hbody c (List.mem_cons_self ..)).resolve_left hc
        rw [List.count_cons_of_ne hc]
        refine ⟨c :: space, t, ?_, by rw [List.cons_append, heq, List.cons_append], hjoins⟩
        exact List.forall_mem_cons.2 ⟨hblank, hspace⟩

/-- Fillers joined up to the end of a comment are so many fillers with white space among them. -/
theorem fillers_of_joins {filler : Char} {n : Nat} {t : Text}
    (h : Text.Joins (List.replicate n [filler] ++ ["*/".toList]) t) :
    ∃ body, (∀ c ∈ body, c = filler ∨ Text.isBlank c = true) ∧ body.count filler = n ∧
      t = body ++ "*/".toList := by
  induction n generalizing t with
  | zero =>
      obtain rfl := h.eq_of_singleton
      exact ⟨[], fun c hc => absurd hc List.not_mem_nil, rfl, rfl⟩
  | succ n ih =>
      rw [List.replicate_succ, List.cons_append] at h
      obtain ⟨space, rest, hword, hspace, hrest, rfl⟩ := h.uncons (by simp)
      obtain ⟨body, hbody, hcount, rfl⟩ := ih hrest
      have hnot : filler ∉ space := by
        intro hmem
        have hblank := hword.2 filler (List.mem_cons_self ..)
        rw [hspace filler hmem] at hblank
        cases hblank
      refine ⟨filler :: (space ++ body), ?_, ?_, by simp⟩
      · intro c hc
        rcases List.mem_cons.1 hc with rfl | hc
        · exact Or.inl rfl
        rcases List.mem_append.1 hc with hc | hc
        · exact Or.inr (hspace c hc)
        · exact hbody c hc
      · rw [List.count_cons_self, List.count_append, List.count_eq_zero.2 hnot, hcount]
        omega

/-- A comment is made of its words. -/
theorem isComment_iff_joins {filler : Char} (hfiller : Text.isBlank filler = false) {t : Text} :
    IsComment filler t ↔ ∃ n, Text.Joins (commentWords filler n) t := by
  constructor
  · rintro ⟨body, ⟨honly, hmem⟩, rfl⟩
    obtain ⟨space, t, hspace, heq, hjoins⟩ := joins_of_fillers hfiller honly
    have hopen : Text.Solid "/*".toList := Text.solid_of_all (by decide) (by decide)
    obtain ⟨n, hn⟩ : ∃ n, body.count filler = n + 1 :=
      Nat.exists_eq_add_one.2 (List.count_pos_iff.2 hmem)
    rw [hn] at hjoins
    refine ⟨n, ?_⟩
    rw [List.append_assoc, heq, ← List.append_assoc]
    exact .cons hopen hspace hjoins
  · rintro ⟨n, h⟩
    obtain ⟨space, rest, -, hspace, hrest, rfl⟩ := h.uncons (by simp)
    obtain ⟨body, hbody, hcount, rfl⟩ := fillers_of_joins hrest
    have hmem : filler ∈ body := List.count_pos_iff.1 (by omega)
    refine ⟨space ++ body, ⟨fun c hc => ?_, List.mem_append_right _ hmem⟩, by simp⟩
    rcases List.mem_append.1 hc with hc | hc
    · exact Or.inr (hspace c hc)
    · exact hbody c hc

end Placeholder

end Stencil
