import Stencil.Proofs.Placeholder.Words

/-!
# White space in placeholders

Formatters put white space at certain points of a placeholder, or take it away there: these are the
`SpacingPoint`s, and `Respaced` is any number of such changes. No spacing point lies inside a word,
so respacing keeps the words of a placeholder (`Text.Joins.respaced`), and each form of a
placeholder stays what it is, but for the white space in front of its comment.
-/

set_option autoImplicit false

namespace Stencil

namespace Placeholder

/-- Where white space may stand in a placeholder: the text in front ends, and the text behind
starts, in one of four ways. -/
inductive SpacingPoint : Text → Text → Prop
  /-- Between `if` and the parenthesis. -/
  | condition {x y : Text} (hx : "if".toList <:+ x) (hy : ['('] <+: y) : SpacingPoint x y
  /-- Between the parenthesis and the brace. -/
  | block {x y : Text} (hx : [')'] <:+ x) (hy : ['{'] <+: y) : SpacingPoint x y
  /-- In front of a comment, behind a brace or the end of a name. -/
  | comment {x y : Text} {mark : Char}
      (hmark : mark = '{' ∨ mark = '}' ∨ mark = Sentinel.identifierEnd) (hx : [mark] <:+ x)
      (hy : "/*".toList <+: y) : SpacingPoint x y
  /-- Inside a comment, around its fillers. -/
  | filler {x front back y : Text} {family : Family}
      (hfront : ∀ c ∈ front, c = family.filler ∨ Text.isBlank c = true)
      (hback : ∀ c ∈ back, c = family.filler ∨ Text.isBlank c = true) :
      SpacingPoint (x ++ "/*".toList ++ front) (back ++ "*/".toList ++ y)

/-- White space at a spacing point gives way to other white space. -/
inductive Respacing : Text → Text → Prop
  | change {x space space' y : Text} (hpoint : SpacingPoint x y) (hspace : Text.Blanks space)
      (hspace' : Text.Blanks space') : Respacing (x ++ space ++ y) (x ++ space' ++ y)

/-- White space is put in and taken out at spacing points, any number of times. -/
def Respaced : Text → Text → Prop := Relation.ReflTransGen Respacing

/-- The words of placeholders. -/
inductive IsWord : Text → Prop
  | start : IsWord "if".toList
  | condition (n : Nat) : IsWord ('(' :: (List.replicate (n + 1) Sentinel.opening ++ [')']))
  | sign (c : Char) : IsWord [c]
  | name {t : Text} (h : IsName t) : IsWord t
  | opens : IsWord "/*".toList
  | closes : IsWord "*/".toList
  | line {t : Text} (h : IsLineComment t) : IsWord t

/-- What stands between the two ends of a comment. -/
def isSpare (c : Char) : Bool :=
  Text.isBlank c || [Sentinel.comment, Sentinel.opening, Sentinel.closing,
    Sentinel.identifierEnd].contains c

/-- Fillers and white space may stand inside a comment. -/
theorem isSpare_of_filler {family : Family} {c : Char}
    (h : c = family.filler ∨ Text.isBlank c = true) : isSpare c = true := by
  rcases h with rfl | h
  · cases family <;> decide
  · simp [isSpare, h]

/-- No character of an identifier is white space. -/
theorem isBlank_of_isIdentifierChar {c : Char} (h : isIdentifierChar c = true) :
    Text.isBlank c = false := by
  have hrange : 48 ≤ c.toNat ∧ c.toNat ≤ 122 := by
    simp only [isIdentifierChar, Char.isAlphanum, Char.isAlpha, Char.isUpper, Char.isLower,
      Char.isDigit, Bool.or_eq_true, Bool.and_eq_true, decide_eq_true_eq, beq_iff_eq, ge_iff_le,
      UInt32.le_iff_toNat_le] at h
    rcases h with ((h | h) | h) | rfl
    · have hupper : 65 ≤ c.toNat ∧ c.toNat ≤ 90 := h
      omega
    · have hlower : 97 ≤ c.toNat ∧ c.toNat ≤ 122 := h
      omega
    · have hdigit : 48 ≤ c.toNat ∧ c.toNat ≤ 57 := h
      omega
    · decide
  cases hblank : Text.isBlank c with
  | false => rfl
  | true =>
      simp only [Text.isBlank, CodeRanges.has, Text.blankRanges, List.any_cons, List.any_nil,
        Bool.or_eq_true, Bool.and_eq_true, decide_eq_true_eq, Bool.false_eq_true, or_false]
        at hblank
      omega

/-- No character of an identifier stands inside a comment. -/
theorem isSpare_of_isIdentifierChar {c : Char} (h : isIdentifierChar c = true) :
    isSpare c = false := by
  simp only [isSpare, isBlank_of_isIdentifierChar h, Bool.false_or]
  rw [List.contains_eq_mem, decide_eq_false_iff_not]
  intro hmem
  simp only [List.mem_cons, List.not_mem_nil, or_false] at hmem
  rcases hmem with rfl | rfl | rfl | rfl <;> exact absurd h (by decide)

/-- A text that ends in a star and fillers. -/
def EndsInside (t : Text) : Prop :=
  ∃ front back, t = front ++ '*' :: back ∧ ∀ c ∈ back, isSpare c = true

/-- A text whose last sign besides fillers is no star does not end inside a comment. -/
theorem not_endsInside {c : Char} (hc : isSpare c = false) (hstar : c ≠ '*') (front : Text)
    {back : Text} (hback : ∀ x ∈ back, isSpare x = true) : ¬ EndsInside (front ++ c :: back) := by
  rintro ⟨front', back', heq, hback'⟩
  have hreverse : back.reverse ++ c :: front.reverse = back'.reverse ++ '*' :: front'.reverse := by
    have h := congrArg List.reverse heq
    simpa using h
  have hspare : ∀ {t : Text}, (∀ x ∈ t, isSpare x = true) →
      ∀ x ∈ t.reverse, (!isSpare x) = false := by
    intro t ht x hx
    simp [ht x (List.mem_reverse.1 hx)]
  obtain ⟨-, h, -⟩ := Text.cancel (p := (!isSpare ·)) (hspare hback) (hspare hback') (by simp [hc])
    (by decide) hreverse
  exact hstar h

namespace SpacingPoint

variable {x y : Text}

/-- A spacing point stays one when white space is taken out on both sides. -/
theorem signs (h : SpacingPoint x y) : SpacingPoint (Text.signs x) (Text.signs y) := by
  have hends : ∀ {s : Text}, Text.Solid s → s <:+ x → s <:+ Text.signs x := by
    intro s hs hx
    rw [← hs.signs]
    exact hx.filter _
  have hstarts : ∀ {s : Text}, Text.Solid s → s <+: y → s <+: Text.signs y := by
    intro s hs hy
    rw [← hs.signs]
    exact hy.filter _
  cases h with
  | condition hx hy =>
      exact .condition (hends (Text.solid_of_all (by decide) (by decide)) hx)
        (hstarts (Text.solid_of_all (by decide) (by decide)) hy)
  | block hx hy =>
      exact .block (hends (Text.solid_of_all (by decide) (by decide)) hx)
        (hstarts (Text.solid_of_all (by decide) (by decide)) hy)
  | comment hmark hx hy =>
      refine .comment hmark (hends ?_ hx)
        (hstarts (Text.solid_of_all (by decide) (by decide)) hy)
      rcases hmark with rfl | rfl | rfl <;> exact Text.solid_of_all (by decide) (by decide)
  | filler hfront hback =>
      rw [Text.signs_append, Text.signs_append, Text.signs_append, Text.signs_append]
      exact .filler (fun c hc => hfront c (List.mem_filter.1 hc).1)
        (fun c hc => hback c (List.mem_filter.1 hc).1)

/-- Something stands on both sides of a spacing point. -/
theorem ne_nil (h : SpacingPoint x y) : x ≠ [] ∧ y ≠ [] := by
  cases h with
  | condition hx hy => exact ⟨hx.ne_nil (by decide), hy.ne_nil (by decide)⟩
  | block hx hy => exact ⟨hx.ne_nil (by decide), hy.ne_nil (by decide)⟩
  | comment hmark hx hy => exact ⟨hx.ne_nil (List.cons_ne_nil _ _), hy.ne_nil (by decide)⟩
  | filler hfront hback => simp

/-- A spacing point is in front of a parenthesis, a brace or a comment, or inside a comment. -/
theorem head {d : Char} (h : SpacingPoint x (d :: y)) :
    d = '(' ∨ d = '{' ∨
    (d = '/' ∧ ∃ c, x.getLast? = some c ∧ (c = '{' ∨ c = '}' ∨ c = Sentinel.identifierEnd)) ∨
    (d ≠ '/' ∧ EndsInside x) := by
  generalize ht : d :: y = t at h
  cases h with
  | condition hx hy =>
      obtain ⟨rest, rfl⟩ := hy
      cases ht
      exact Or.inl rfl
  | block hx hy =>
      obtain ⟨rest, rfl⟩ := hy
      cases ht
      exact Or.inr (Or.inl rfl)
  | @comment _ _ mark hmark hx hy =>
      obtain ⟨rest, rfl⟩ := hy
      obtain ⟨before, rfl⟩ := hx
      cases ht
      exact Or.inr (Or.inr (Or.inl ⟨rfl, mark, by simp, hmark⟩))
  | @filler x front back y family hfront hback =>
      refine Or.inr (Or.inr (Or.inr ⟨?_, x ++ ['/'], front, by simp, fun c hc =>
        isSpare_of_filler (hfront c hc)⟩))
      cases back with
      | nil =>
          cases ht
          decide
      | cons c back =>
          cases ht
          have hspare := isSpare_of_filler (hback _ (List.mem_cons_self ..))
          rintro rfl
          exact absurd hspare (by decide)

end SpacingPoint

/-- In front of other characters white space is free only inside a comment. -/
theorem not_spacingPoint_of_mark {c d : Char} {back : Text} (hc : isSpare c = false)
    (hstar : c ≠ '*') (hback : ∀ x ∈ back, isSpare x = true)
    (hd : d ≠ '(' ∧ d ≠ '{' ∧ d ≠ '/') (x y : Text) :
    ¬ SpacingPoint (x ++ c :: back) (d :: y) := by
  intro hpoint
  rcases hpoint.head with h | h | ⟨h, -⟩ | ⟨-, h⟩
  · exact hd.1 h
  · exact hd.2.1 h
  · exact hd.2.2 h
  · exact not_endsInside hc hstar x hback h

/-- In front of a comment white space is free only behind a brace or the end of a name. -/
theorem not_spacingPoint_of_slash {c : Char}
    (hc : ¬ (c = '{' ∨ c = '}' ∨ c = Sentinel.identifierEnd)) (x y : Text) :
    ¬ SpacingPoint (x ++ [c]) ('/' :: y) := by
  intro hpoint
  rcases hpoint.head with h | h | ⟨-, c', hlast, hmark⟩ | ⟨h, -⟩
  · exact absurd h (by decide)
  · exact absurd h (by decide)
  · rw [List.getLast?_concat, Option.some.injEq] at hlast
    exact hc (hlast ▸ hmark)
  · exact h rfl

/-- What stands in front of a part of a run is of the run. -/
theorem mem_of_run {u v run : Text} {d last : Char} (h : u ++ d :: v = run ++ [last]) {c : Char}
    (hc : c ∈ u) : c ∈ run := by
  have hdrop := congrArg List.dropLast h
  rw [List.dropLast_append_of_ne_nil (List.cons_ne_nil d v), List.dropLast_concat] at hdrop
  rw [← hdrop]
  exact List.mem_append_left _ hc

section Inside

variable {c d : Char} {u v : Text}

/-- A pair that is cut somewhere inside is cut in the middle. -/
theorem eq_of_pair {a b : Char} (h : c :: u ++ d :: v = [a, b]) :
    c = a ∧ u = [] ∧ d = b ∧ v = [] := by
  obtain ⟨rfl, hrest⟩ := List.cons.inj h
  rcases List.append_eq_singleton_iff.1 hrest with ⟨rfl, hrest⟩ | ⟨-, hrest⟩
  · cases hrest
    exact ⟨rfl, rfl, rfl, rfl⟩
  · cases hrest

/-- White space may not stand inside the bracketed part of a condition. -/
theorem not_spacingPoint_of_condition {n : Nat}
    (h : c :: u ++ d :: v = '(' :: (List.replicate (n + 1) Sentinel.opening ++ [')']))
    (x y : Text) : ¬ SpacingPoint (x ++ c :: u) (d :: y) := by
  obtain ⟨rfl, hrest⟩ := List.cons.inj h
  have hspare : ∀ x ∈ u, isSpare x = true := by
    intro x hx
    rw [List.eq_of_mem_replicate (mem_of_run hrest hx)]
    decide
  have hd : d ∈ List.replicate (n + 1) Sentinel.opening ++ [')'] := by
    rw [← hrest]
    simp
  apply not_spacingPoint_of_mark (by decide) (by decide) hspare
  rcases List.mem_append.1 hd with hd | hd
  · rw [List.eq_of_mem_replicate hd]
    decide
  · rw [List.mem_singleton.1 hd]
    decide

/-- White space may not stand inside a name. -/
theorem IsName.not_spacingPoint (h : IsName (c :: u ++ d :: v)) (x y : Text) :
    ¬ SpacingPoint (x ++ c :: u) (d :: y) := by
  obtain ⟨body, hbody, hname⟩ := h
  rw [List.cons_append, List.cons_append] at hname
  obtain ⟨rfl, hrest⟩ := List.cons.inj hname
  have hd : d ≠ '(' ∧ d ≠ '{' ∧ d ≠ '/' := by
    have hmem : d ∈ body ++ [Sentinel.identifierEnd] := by
      rw [← hrest]
      simp
    rcases List.mem_append.1 hmem with hd | hd
    · have hchar := hbody d hd
      refine ⟨?_, ?_, ?_⟩ <;> rintro rfl <;> exact absurd hchar (by decide)
    · rw [List.mem_singleton.1 hd]
      decide
  -- the character in front is the start of the name or one of its letters
  rcases List.eq_nil_or_concat u with rfl | ⟨u, c, rfl⟩
  · exact not_spacingPoint_of_mark (by decide) (by decide) (List.forall_mem_nil _) hd x y
  · have hchar := hbody c (mem_of_run hrest (by simp))
    have hstar : c ≠ '*' := by
      rintro rfl
      exact absurd hchar (by decide)
    have hnot := not_spacingPoint_of_mark (isSpare_of_isIdentifierChar hchar) hstar
      (List.forall_mem_nil _) hd (x ++ Sentinel.identifierStart :: u) y
    simpa using hnot

/-- White space may not stand inside a line comment. -/
theorem IsLineComment.not_spacingPoint (h : IsLineComment (c :: u ++ d :: v)) (x y : Text) :
    ¬ SpacingPoint (x ++ c :: u) (d :: y) := by
  obtain ⟨n, hline⟩ := h
  obtain ⟨rfl, hrest⟩ := List.cons.inj
    (show c :: (u ++ d :: v) = '/' :: '/' :: List.replicate (n + 1) Sentinel.comment from hline)
  cases u with
  | nil =>
      obtain ⟨rfl, -⟩ := List.cons.inj hrest
      exact not_spacingPoint_of_slash (by decide) x y
  | cons c u =>
      rw [List.cons_append] at hrest
      obtain ⟨rfl, hrun⟩ := List.cons.inj hrest
      have hfiller : ∀ x ∈ u ++ d :: v, x = Sentinel.comment := by
        rw [hrun]
        exact fun x hx => List.eq_of_mem_replicate hx
      have hspare : ∀ x ∈ u, isSpare x = true := by
        intro x hx
        rw [hfiller x (List.mem_append_left _ hx)]
        decide
      have hd : d ≠ '(' ∧ d ≠ '{' ∧ d ≠ '/' := by
        rw [hfiller d (by simp)]
        decide
      have hnot := not_spacingPoint_of_mark (c := '/') (by decide) (by decide) hspare hd
        (x ++ ['/']) y
      simpa using hnot

end Inside

/-- No spacing point lies inside a word. -/
theorem IsWord.not_spacingPoint {u v : Text} (h : IsWord (u ++ v)) (hu : u ≠ []) (hv : v ≠ [])
    (x y : Text) : ¬ SpacingPoint (x ++ u) (v ++ y) := by
  obtain ⟨c, u, rfl⟩ := List.exists_cons_of_ne_nil hu
  obtain ⟨d, v, rfl⟩ := List.exists_cons_of_ne_nil hv
  generalize hword : c :: u ++ d :: v = word at h
  cases h with
  | start =>
      obtain ⟨rfl, rfl, rfl, rfl⟩ := eq_of_pair (a := 'i') (b := 'f') hword
      exact not_spacingPoint_of_mark (by decide) (by decide) (List.forall_mem_nil _) (by decide) x _
  | condition n => exact not_spacingPoint_of_condition hword x _
  | sign c => exact absurd hword (by simp)
  | name h =>
      rw [← hword] at h
      exact h.not_spacingPoint x _
  | opens =>
      obtain ⟨rfl, rfl, rfl, rfl⟩ := eq_of_pair (a := '/') (b := '*') hword
      exact not_spacingPoint_of_mark (by decide) (by decide) (List.forall_mem_nil _) (by decide) x _
  | closes =>
      obtain ⟨rfl, rfl, rfl, rfl⟩ := eq_of_pair (a := '*') (b := '/') hword
      exact not_spacingPoint_of_slash (by decide) x _
  | line h =>
      rw [← hword] at h
      exact h.not_spacingPoint x _

end Placeholder

open Placeholder

namespace Text.Joins

variable {words : List Text} {t t' : Text}

/-- Other white space at a spacing point leaves the words as they are. -/
theorem respacing (hwords : ∀ word ∈ words, IsWord word) (h : Joins words t)
    (hstep : Respacing t t') : Joins words t' := by
  cases hstep with
  | @change x space space' y hpoint hspace hspace' =>
      have hpoint := hpoint.signs
      have hsigns : words.flatten = Text.signs x ++ Text.signs y := by
        rw [← h.signs, signs_append, signs_append, signs_of_blanks hspace, List.append_nil]
      obtain ⟨front, back, rfl, hx, hy⟩ : ∃ front back, words = front ++ back ∧
          Text.signs x = front.flatten ∧ Text.signs y = back.flatten := by
        rcases List.flatten_eq_append_iff.1 hsigns with
          ⟨front, back, heq, hx, hy⟩ | ⟨front, u, c, v, back, rfl, hx, hy⟩
        · exact ⟨front, back, heq, hx, hy⟩
        · cases u with
          | nil => exact ⟨front, (c :: v) :: back, rfl, by simpa using hx, hy⟩
          | cons b u =>
              -- inside a word
              have hword : IsWord (b :: u ++ c :: v) := hwords _ (by simp)
              rw [hx, hy] at hpoint
              exact absurd hpoint
                (hword.not_spacingPoint (List.cons_ne_nil _ _) (List.cons_ne_nil _ _) _ _)
      rw [hx, hy] at hpoint
      have hfront : front ≠ [] := by
        rintro rfl
        exact hpoint.ne_nil.1 rfl
      have hback : back ≠ [] := by
        rintro rfl
        exact hpoint.ne_nil.2 rfl
      exact h.respace hx hy hfront hback hspace'

/-- Respacing keeps the words of a placeholder. -/
theorem respaced (hwords : ∀ word ∈ words, IsWord word) (h : Joins words t)
    (hrespaced : Respaced t t') : Joins words t' := by
  induction hrespaced with
  | refl => exact h
  | tail _ hstep ih => exact ih.respacing hwords hstep

end Text.Joins

namespace Placeholder

variable {t : Text}

/-- The words of a comment are words of placeholders. -/
theorem isWord_of_mem_commentWords {filler : Char} {n : Nat} {word : Text}
    (h : word ∈ commentWords filler n) : IsWord word := by
  rcases List.mem_cons.1 h with rfl | h
  · exact .opens
  rcases List.mem_append.1 h with h | h
  · rw [List.eq_of_mem_replicate h]
    exact .sign filler
  · rw [List.mem_singleton.1 h]
    exact .closes

/-- The words of a condition are words of placeholders. -/
theorem isWord_of_mem_conditionWords {n : Nat} {word : Text} (h : word ∈ conditionWords n) :
    IsWord word := by
  simp only [conditionWords, List.mem_cons, List.not_mem_nil, or_false] at h
  rcases h with rfl | rfl | rfl
  · exact .start
  · exact .condition n
  · exact .sign '{'

/-- A name has no white space. -/
theorem IsName.solid (h : IsName t) : Text.Solid t := by
  obtain ⟨body, hbody, rfl⟩ := h
  refine ⟨List.cons_ne_nil _ _, fun c hc => ?_⟩
  rcases List.mem_append.1 hc with hc | hc
  · rcases List.mem_cons.1 hc with rfl | hc
    · decide
    · exact isBlank_of_isIdentifierChar (hbody c hc)
  · rw [List.mem_singleton.1 hc]
    decide

/-- A line comment has no white space. -/
theorem IsLineComment.solid (h : IsLineComment t) : Text.Solid t := by
  obtain ⟨n, rfl⟩ := h
  refine ⟨List.cons_ne_nil _ _, fun c hc => ?_⟩
  rcases List.mem_append.1 hc with hc | hc
  · exact (Text.solid_of_all (by decide) (by decide) : Text.Solid "//".toList).2 c hc
  · rw [List.eq_of_mem_replicate hc]
    decide

/-- A word has no white space to change. -/
theorem IsWord.respaced_eq {word : Text} (h : IsWord word) (hsolid : Text.Solid word)
    (ht : Respaced word t) : t = word := by
  have hjoins : Text.Joins [word] t :=
    (Text.Joins.last hsolid).respaced (fun w hw => List.mem_singleton.1 hw ▸ h) ht
  exact hjoins.eq_of_singleton

/-- A condition with other white space is a condition. -/
theorem IsCondition.respaced {core : Text} (h : IsCondition core) (ht : Respaced core t) :
    IsCondition t := by
  obtain ⟨n, hjoins⟩ := isCondition_iff_joins.1 h
  exact isCondition_iff_joins.2 ⟨n, hjoins.respaced (fun _ => isWord_of_mem_conditionWords) ht⟩

/-- A comment with other white space is a comment. -/
theorem IsComment.respaced {filler : Char} (hfiller : Text.isBlank filler = false) {core : Text}
    (h : IsComment filler core) (ht : Respaced core t) : IsComment filler t := by
  obtain ⟨n, hjoins⟩ := (isComment_iff_joins hfiller).1 h
  exact (isComment_iff_joins hfiller).2
    ⟨n, hjoins.respaced (fun _ => isWord_of_mem_commentWords) ht⟩

/-- A comment behind words stays behind them, with white space in front of it. -/
theorem IsComment.respaced_behind {filler : Char} (hfiller : Text.isBlank filler = false)
    {head : List Text} {front core : Text} (h : IsComment filler core)
    (hhead : Text.Joins head front) (hwords : ∀ word ∈ head, IsWord word)
    (ht : Respaced (front ++ core) t) :
    ∃ front' trail, Text.Joins head front' ∧ IsTrail filler trail ∧ t = front' ++ trail := by
  obtain ⟨n, hcore⟩ := (isComment_iff_joins hfiller).1 h
  have hall : ∀ word ∈ head ++ commentWords filler n, IsWord word := by
    intro word hword
    rcases List.mem_append.1 hword with hword | hword
    · exact hwords word hword
    · exact isWord_of_mem_commentWords hword
  have hboth := hhead.append Text.blanks_nil hcore
  rw [List.append_nil] at hboth
  obtain ⟨front', space, core', hfront', hspace, hcore', rfl⟩ :=
    (hboth.respaced hall ht).split hhead.words_ne_nil hcore.words_ne_nil
  have hcomment : IsComment filler core' := (isComment_iff_joins hfiller).2 ⟨n, hcore'⟩
  exact ⟨front', space ++ core', hfront', ⟨space, core', hspace, hcomment, rfl⟩, by simp⟩

/-- A comment behind a brace stays behind it, with white space between them. -/
theorem IsComment.respaced_lead {filler mark : Char} (hfiller : Text.isBlank filler = false)
    {core : Text} (h : IsComment filler core) (hmark : Text.isBlank mark = false)
    (ht : Respaced ([mark] ++ core) t) :
    ∃ lead core', IsLead mark lead ∧ IsComment filler core' ∧ t = lead ++ core' := by
  have hsolid : Text.Solid [mark] := ⟨List.cons_ne_nil _ _, by simpa using hmark⟩
  obtain ⟨front, trail, hjoins, ⟨space, core', hspace, hcore', rfl⟩, rfl⟩ :=
    h.respaced_behind hfiller (.last hsolid)
      (fun _ hword => List.mem_singleton.1 hword ▸ .sign mark) ht
  obtain rfl := hjoins.eq_of_singleton
  exact ⟨mark :: space, core', ⟨space, hspace, rfl⟩, hcore', by simp⟩

end Placeholder

end Stencil
