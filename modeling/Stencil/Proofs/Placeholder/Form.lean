import Stencil.Placeholder.Recognise
import Stencil.Proofs.Text.Scanning

/-!
# The forms of placeholders

What the scans for placeholders take, said without scanning: a comment of fillers, a condition, a
name, and the brace in front of a comment or the comment behind a condition or name. Every scan
takes exactly the texts of its form.

`Found.Proper` puts the parts together. The text of a proper placeholder up to its first sentinel
has few forms, which `Found.Proper.front` lists; that is why no placeholder is found where none was
put.
-/

set_option autoImplicit false

namespace Stencil

namespace Text

/-- Nothing but white space. -/
def Blanks (t : Text) : Prop := ∀ c ∈ t, isBlank c = true

/-- No sentinel. -/
def Plain (t : Text) : Prop := ∀ c ∈ t, isSentinel c = false

/-- The empty text has no sentinel. -/
theorem plain_nil : Plain [] := fun _ hc => absurd hc List.not_mem_nil

/-- A text none of whose characters is a sentinel is plain. -/
theorem plain_of_all {t : Text} (h : t.all (!isSentinel ·) = true) : Plain t := by
  intro c hc
  simpa using List.all_eq_true.1 h c hc

/-- A text all of whose characters are white space is blank. -/
theorem blanks_of_all {t : Text} (h : t.all isBlank = true) : Blanks t :=
  fun c hc => List.all_eq_true.1 h c hc

/-- Two plain texts are plain together. -/
theorem Plain.append {s t : Text} (hs : Plain s) (ht : Plain t) : Plain (s ++ t) := by
  intro c hc
  rcases List.mem_append.1 hc with hc | hc
  · exact hs c hc
  · exact ht c hc

/-- The parts of a plain text are plain. -/
theorem Plain.of_append {s t : Text} (h : Plain (s ++ t)) : Plain s ∧ Plain t :=
  ⟨fun c hc => h c (List.mem_append_left _ hc), fun c hc => h c (List.mem_append_right _ hc)⟩

/-- No sentinel is white space. -/
theorem isBlank_of_isSentinel {c : Char} (h : isSentinel c = true) : isBlank c = false := by
  simp only [isSentinel, Sentinel.all, List.contains_eq_mem, List.mem_cons, List.not_mem_nil,
    or_false, decide_eq_true_eq] at h
  rcases h with rfl | rfl | rfl | rfl | rfl <;> decide

/-- White space is plain. -/
theorem Blanks.plain {t : Text} (h : Blanks t) : Plain t := by
  intro c hc
  cases hsentinel : isSentinel c with
  | false => rfl
  | true => exact absurd (h c hc) (by simp [isBlank_of_isSentinel hsentinel])

/-- Two texts agree up to the first character of a class, if it is known where it stands. -/
theorem cancel {p : Char → Bool} {s t back back' : Text} {c d : Char}
    (hs : ∀ x ∈ s, p x = false) (ht : ∀ x ∈ t, p x = false) (hc : p c = true) (hd : p d = true)
    (h : s ++ c :: back = t ++ d :: back') : s = t ∧ c = d ∧ back = back' := by
  induction s generalizing t with
  | nil =>
      cases t with
      | nil =>
          rw [List.nil_append, List.nil_append, List.cons.injEq] at h
          exact ⟨rfl, h⟩
      | cons b t =>
          rw [List.nil_append, List.cons_append, List.cons.injEq] at h
          have hb := ht b (List.mem_cons_self ..)
          rw [← h.1, hc] at hb
          cases hb
  | cons a s ih =>
      cases t with
      | nil =>
          rw [List.nil_append, List.cons_append, List.cons.injEq] at h
          have ha := hs a (List.mem_cons_self ..)
          rw [h.1, hd] at ha
          cases ha
      | cons b t =>
          rw [List.cons_append, List.cons_append, List.cons.injEq] at h
          obtain ⟨rfl, h⟩ := h
          obtain ⟨rfl, hrest⟩ := ih (fun x hx => hs x (List.mem_cons_of_mem _ hx))
            (fun x hx => ht x (List.mem_cons_of_mem _ hx)) h
          exact ⟨rfl, hrest⟩

/-- The characters of a text that are not white space. -/
def signs (t : Text) : Text := t.filter (!isBlank ·)

/-- The signs of two texts come one behind the other. -/
theorem signs_append (s t : Text) : signs (s ++ t) = signs s ++ signs t := List.filter_append ..

/-- White space has no signs. -/
theorem signs_of_blanks {t : Text} (h : Blanks t) : signs t = [] := by
  unfold signs
  rw [List.filter_eq_nil_iff]
  intro c hc
  simp [h c hc]

/-- A text without signs is white space. -/
theorem blanks_of_signs {t : Text} (h : signs t = []) : Blanks t := by
  unfold signs at h
  rw [List.filter_eq_nil_iff] at h
  intro c hc
  simpa using h c hc

end Text

namespace Found

/-- A placeholder with a core alone is written as its core. -/
theorem text_core (family : Family) (core : Text) : text ⟨family, [], core, []⟩ = core := by
  rw [text, List.nil_append, List.append_nil]

/-- A placeholder without a lead is written as its core and what trails it. -/
theorem text_trail (family : Family) (core trail : Text) :
    text ⟨family, [], core, trail⟩ = core ++ trail := by
  rw [text, List.nil_append]

/-- A placeholder that nothing trails is written as its lead and its core. -/
theorem text_lead (family : Family) (lead core : Text) :
    text ⟨family, lead, core, []⟩ = lead ++ core := by
  rw [text, List.append_nil]

end Found

namespace Placeholder

/-- Fillers with white space among them. -/
structure Fillers (filler : Char) (t : Text) : Prop where
  only : ∀ c ∈ t, c = filler ∨ Text.isBlank c = true
  mem : filler ∈ t

/-- A comment of fillers. -/
def IsComment (filler : Char) (t : Text) : Prop :=
  ∃ body, Fillers filler body ∧ t = "/*".toList ++ body ++ "*/".toList

/-- A line comment of fillers. -/
def IsLineComment (t : Text) : Prop :=
  ∃ n, t = "//".toList ++ List.replicate (n + 1) Sentinel.comment

/-- The condition of an opening, up to its brace. -/
def IsCondition (t : Text) : Prop :=
  ∃ space n space', Text.Blanks space ∧ Text.Blanks space' ∧
    t = "if".toList ++ space ++ '(' :: List.replicate (n + 1) Sentinel.opening ++
      ')' :: space' ++ ['{']

/-- The name of an identifier between its half rings. -/
def IsName (t : Text) : Prop :=
  ∃ body, (∀ c ∈ body, isIdentifierChar c = true) ∧
    t = Sentinel.identifierStart :: body ++ [Sentinel.identifierEnd]

/-- A mark with white space behind it. -/
def IsLead (mark : Char) (t : Text) : Prop := ∃ space, Text.Blanks space ∧ t = mark :: space

/-- A comment of fillers with white space in front of it. -/
def IsTrail (filler : Char) (t : Text) : Prop :=
  ∃ space core, Text.Blanks space ∧ IsComment filler core ∧ t = space ++ core

/-- A comment up to its first filler. -/
theorem IsComment.split {filler : Char} (hfiller : Text.isBlank filler = false) {t : Text}
    (h : IsComment filler t) :
    ∃ space back, t = "/*".toList ++ space ++ filler :: back ∧ Text.Blanks space := by
  obtain ⟨body, ⟨honly, hmem⟩, rfl⟩ := h
  have hsplit : body = body.takeWhile Text.isBlank ++ body.dropWhile Text.isBlank :=
    List.takeWhile_append_dropWhile.symm
  cases hdrop : body.dropWhile Text.isBlank with
  | nil =>
      rw [List.dropWhile_eq_nil_iff] at hdrop
      have hblank := hdrop _ hmem
      rw [hfiller] at hblank
      cases hblank
  | cons c back =>
      have hc : Text.isBlank c = false := by
        have hnot := List.head?_dropWhile_not Text.isBlank body
        rw [hdrop] at hnot
        simpa using hnot
      have hcmem : c ∈ body := by
        rw [hsplit, hdrop]
        simp
      obtain rfl : c = filler := by
        rcases honly c hcmem with h | h
        · exact h
        · rw [hc] at h
          cases h
      obtain ⟨space, hspace⟩ : ∃ space, space = body.takeWhile Text.isBlank := ⟨_, rfl⟩
      rw [hdrop, ← hspace] at hsplit
      refine ⟨space, back ++ "*/".toList, by simp [hsplit], fun x hx => ?_⟩
      rw [hspace] at hx
      exact List.mem_takeWhile_imp hx

/-- A comment starts with a slash. -/
theorem IsComment.head {filler : Char} {t : Text} (h : IsComment filler t) :
    t.head? = some '/' := by
  obtain ⟨body, -, rfl⟩ := h
  rfl

/-- A comment is not empty. -/
theorem IsComment.ne_nil {filler : Char} {t : Text} (h : IsComment filler t) : t ≠ [] := by
  rintro rfl
  cases h.head

/-- A line comment starts with a slash. -/
theorem IsLineComment.head {t : Text} (h : IsLineComment t) : t.head? = some '/' := by
  obtain ⟨n, rfl⟩ := h
  rfl

/-- A condition starts with the first letter of its word. -/
theorem IsCondition.head {t : Text} (h : IsCondition t) : t.head? = some 'i' := by
  obtain ⟨space, n, space', -, -, rfl⟩ := h
  rfl

/-- A name starts with its half ring. -/
theorem IsName.head {t : Text} (h : IsName t) : t.head? = some Sentinel.identifierStart := by
  obtain ⟨body, -, rfl⟩ := h
  rfl

/-- No comment is a condition. -/
theorem IsComment.not_isCondition {filler : Char} {t : Text} (h : IsComment filler t) :
    ¬ IsCondition t := by
  intro hcondition
  have heq := h.head.symm.trans hcondition.head
  exact absurd heq (by decide)

/-- No comment is a name. -/
theorem IsComment.not_isName {filler : Char} {t : Text} (h : IsComment filler t) :
    ¬ IsName t := by
  intro hname
  have heq := h.head.symm.trans hname.head
  exact absurd heq (by decide)

/-- White space is taken as far as it goes. -/
theorem blanks_eq_some_iff {t taken rest : Text} :
    blanks t = some (taken, rest) ↔
      Text.Blanks taken ∧ (∀ c, rest.head? = some c → Text.isBlank c = false) ∧
        t = taken ++ rest := by
  unfold blanks
  exact Scan.run_eq_some_iff

/-- Fillers are taken with the white space among them, as far as they go. -/
theorem fillers_eq_some_iff {filler : Char} {t taken rest : Text} :
    fillers filler t = some (taken, rest) ↔
      Fillers filler taken ∧
        (∀ c, rest.head? = some c → c ≠ filler ∧ Text.isBlank c = false) ∧ t = taken ++ rest := by
  unfold fillers
  rw [Scan.runWith_eq_some_iff]
  constructor
  · rintro ⟨hmem, honly, hrest, rfl⟩
    exact ⟨⟨by simpa using honly, by simpa using hmem⟩, by simpa using hrest, rfl⟩
  · rintro ⟨⟨honly, hmem⟩, hrest, rfl⟩
    exact ⟨by simpa using hmem, by simpa using honly, by simpa using hrest, rfl⟩

/-- A run of a character takes one at least, and all there are. -/
theorem run1_eq_some_iff {c : Char} {t taken rest : Text} :
    Scan.run1 (· == c) t = some (taken, rest) ↔
      (∃ n, taken = List.replicate (n + 1) c) ∧ rest.head? ≠ some c ∧ t = taken ++ rest := by
  unfold Scan.run1
  rw [Scan.runWith_eq_some_iff]
  constructor
  · rintro ⟨hne, hall, hrest, rfl⟩
    have hreplicate : taken = List.replicate taken.length c :=
      List.eq_replicate_of_mem fun x hx => by simpa using hall x hx
    have hpos : 0 < taken.length := by
      rw [List.length_pos_iff]
      simpa using hne
    refine ⟨⟨taken.length - 1, ?_⟩, fun hhead => by simpa using hrest c hhead, rfl⟩
    rw [Nat.sub_add_cancel hpos]
    exact hreplicate
  · rintro ⟨⟨n, rfl⟩, hrest, rfl⟩
    refine ⟨by simp [List.replicate_succ], fun x hx => by simpa using List.eq_of_mem_replicate hx,
      fun x hx => ?_, rfl⟩
    rw [beq_eq_false_iff_ne]
    rintro rfl
    exact hrest hx

/-- A comment is taken where there is one. -/
theorem commentOf_eq_some_iff {filler : Char} (hfiller : filler ≠ '*') {t taken rest : Text} :
    commentOf filler t = some (taken, rest) ↔ IsComment filler taken ∧ t = taken ++ rest := by
  unfold commentOf
  simp only [Scan.all_cons_eq_some_iff, Scan.all_nil_eq_some_iff, Scan.text_eq_some_iff,
    fillers_eq_some_iff]
  constructor
  · rintro ⟨_, _, _, ⟨rfl, rfl⟩, ⟨body, _, _, ⟨hbody, -, rfl⟩,
      ⟨_, _, _, ⟨rfl, rfl⟩, ⟨rfl, rfl⟩, rfl⟩, rfl⟩, rfl⟩
    exact ⟨⟨body, hbody, by simp⟩, by simp⟩
  · rintro ⟨⟨body, hbody, rfl⟩, rfl⟩
    refine ⟨_, body ++ "*/".toList ++ rest, body ++ "*/".toList, ⟨rfl, by simp⟩,
      ⟨body, "*/".toList ++ rest, "*/".toList, ⟨hbody, ?_, by simp⟩,
        ⟨_, rest, [], ⟨rfl, rfl⟩, ⟨rfl, rfl⟩, by simp⟩, rfl⟩, by simp⟩
    intro c hc
    obtain rfl : '*' = c := by simpa using hc
    exact ⟨hfiller.symm, by decide⟩

/-- A condition is taken where there is one. -/
theorem condition_eq_some_iff {t taken rest : Text} :
    condition t = some (taken, rest) ↔ IsCondition taken ∧ t = taken ++ rest := by
  unfold condition
  simp only [Scan.all_cons_eq_some_iff, Scan.all_nil_eq_some_iff, Scan.text_eq_some_iff,
    blanks_eq_some_iff, run1_eq_some_iff]
  constructor
  · rintro ⟨_, _, _, ⟨rfl, rfl⟩, ⟨space, _, _, ⟨hspace, -, rfl⟩, ⟨_, _, _, ⟨rfl, rfl⟩,
      ⟨_, _, _, ⟨⟨n, rfl⟩, -, rfl⟩, ⟨_, _, _, ⟨rfl, rfl⟩, ⟨space', _, _, ⟨hspace', -, rfl⟩,
      ⟨_, _, _, ⟨rfl, rfl⟩, ⟨rfl, rfl⟩, rfl⟩, rfl⟩, rfl⟩, rfl⟩, rfl⟩, rfl⟩, rfl⟩
    exact ⟨⟨space, n, space', hspace, hspace', by simp⟩, by simp⟩
  · rintro ⟨⟨space, n, space', hspace, hspace', rfl⟩, rfl⟩
    refine ⟨_, _, _, ⟨rfl, by simp only [List.append_assoc]; rfl⟩,
      ⟨space, _, _, ⟨hspace, ?_, rfl⟩, ⟨_, _, _, ⟨rfl, rfl⟩,
      ⟨_, _, _, ⟨⟨n, rfl⟩, ?_, rfl⟩, ⟨_, _, _, ⟨rfl, rfl⟩, ⟨space', _, _, ⟨hspace', ?_, rfl⟩,
      ⟨_, _, _, ⟨rfl, rfl⟩, ⟨rfl, rfl⟩, rfl⟩, rfl⟩, rfl⟩, rfl⟩, rfl⟩, rfl⟩, ?_⟩
    · simp; decide
    · simp; decide
    · simp; decide
    · simp

/-- A name is taken where there is one. -/
theorem name_eq_some_iff {t taken rest : Text} :
    name t = some (taken, rest) ↔ IsName taken ∧ t = taken ++ rest := by
  unfold name
  simp only [Scan.all_cons_eq_some_iff, Scan.all_nil_eq_some_iff, Scan.text_eq_some_iff,
    Scan.run_eq_some_iff]
  constructor
  · rintro ⟨_, _, _, ⟨rfl, rfl⟩, ⟨body, _, _, ⟨hbody, -, rfl⟩,
      ⟨_, _, _, ⟨rfl, rfl⟩, ⟨rfl, rfl⟩, rfl⟩, rfl⟩, rfl⟩
    exact ⟨⟨body, hbody, by simp⟩, by simp⟩
  · rintro ⟨⟨body, hbody, rfl⟩, rfl⟩
    refine ⟨_, _, _, ⟨rfl, by simp only [List.append_assoc]; rfl⟩,
      ⟨body, _, _, ⟨hbody, ?_, rfl⟩, ⟨_, _, _, ⟨rfl, rfl⟩, ⟨rfl, rfl⟩, rfl⟩, rfl⟩, ?_⟩
    · simp; decide
    · simp

/-- A brace is taken with the white space behind it, as far as that goes. -/
theorem brace_eq_some_iff {mark : Char} {t taken rest : Text} :
    brace mark t = some (taken, rest) ↔
      IsLead mark taken ∧ (∀ c, rest.head? = some c → Text.isBlank c = false) ∧
        t = taken ++ rest := by
  unfold brace
  simp only [Scan.all_cons_eq_some_iff, Scan.all_nil_eq_some_iff, Scan.text_eq_some_iff,
    blanks_eq_some_iff]
  constructor
  · rintro ⟨_, _, _, ⟨rfl, rfl⟩, ⟨space, _, _, ⟨hspace, hrest, rfl⟩, ⟨rfl, rfl⟩, rfl⟩, rfl⟩
    exact ⟨⟨space, hspace, by simp⟩, hrest, by simp⟩
  · rintro ⟨⟨space, hspace, rfl⟩, hrest, rfl⟩
    exact ⟨_, space ++ rest, space, ⟨rfl, by simp⟩,
      ⟨space, rest, [], ⟨hspace, hrest, rfl⟩, ⟨rfl, rfl⟩, by simp⟩, by simp⟩

/-- A comment with white space in front is taken as a trail. -/
theorem trail_eq_some_iff {filler : Char} (hfiller : filler ≠ '*') {t taken rest : Text} :
    Scan.all [blanks, commentOf filler] t = some (taken, rest) ↔
      IsTrail filler taken ∧ t = taken ++ rest := by
  simp only [Scan.all_cons_eq_some_iff, Scan.all_nil_eq_some_iff, blanks_eq_some_iff,
    commentOf_eq_some_iff hfiller]
  constructor
  · rintro ⟨space, _, _, ⟨hspace, -, rfl⟩, ⟨core, _, _, ⟨hcore, rfl⟩, ⟨rfl, rfl⟩, rfl⟩, rfl⟩
    exact ⟨⟨space, core, hspace, hcore, by simp⟩, by simp⟩
  · rintro ⟨⟨space, core, hspace, hcore, rfl⟩, rfl⟩
    refine ⟨space, core ++ rest, core, ⟨hspace, ?_, by simp⟩,
      ⟨core, rest, [], ⟨hcore, rfl⟩, ⟨rfl, rfl⟩, by simp⟩, rfl⟩
    obtain ⟨body, -, rfl⟩ := hcore
    intro c hc
    obtain rfl : '/' = c := by simpa using hc
    decide

/-- A comment behind something is taken where there is one. -/
theorem trailing_eq_some_iff {filler : Char} (hfiller : filler ≠ '*') {t taken rest : Text} :
    trailing filler t = some (taken, rest) ↔
      IsTrail filler taken ∧ t = taken ++ rest ∨
        taken = [] ∧ t = rest ∧ ∀ x y, t = x ++ y → ¬ IsTrail filler x := by
  unfold trailing Scan.orNothing
  cases hscan : Scan.all [blanks, commentOf filler] t with
  | none =>
      have hnone : ∀ x y, t = x ++ y → ¬ IsTrail filler x := by
        intro x y hxy htrail
        rw [(trail_eq_some_iff hfiller).2 ⟨htrail, hxy⟩] at hscan
        cases hscan
      constructor
      · intro h
        cases h
        exact Or.inr ⟨rfl, rfl, hnone⟩
      · rintro (⟨htrail, heq⟩ | ⟨rfl, rfl, -⟩)
        · exact absurd htrail (hnone _ _ heq)
        · rfl
  | some answer =>
      obtain ⟨taken', rest'⟩ := answer
      have hsome := (trail_eq_some_iff hfiller).1 hscan
      constructor
      · intro h
        cases h
        exact Or.inl hsome
      · rintro (⟨htrail, heq⟩ | ⟨rfl, rfl, hnone⟩)
        · rw [(trail_eq_some_iff hfiller).2 ⟨htrail, heq⟩] at hscan
          cases hscan
          rfl
        · exact absurd hsome.1 (hnone _ _ hsome.2)

/-- A core is found with what may trail it. -/
theorem trailed?_eq_some_iff {family : Family} {scan : Scan} {filler : Char} {t rest : Text}
    {f : Found} :
    trailed? family scan filler t = some (f, rest) ↔
      ∃ core rest' trail, scan t = some (core, rest') ∧ trailing filler rest' = some (trail, rest) ∧
        f = ⟨family, [], core, trail⟩ := by
  unfold trailed?
  constructor
  · intro h
    split at h
    · cases h
    · rename_i core rest' hscan
      obtain ⟨⟨trail, rest''⟩, htrail, heq⟩ := Option.map_eq_some_iff.1 h
      cases heq
      exact ⟨core, rest', trail, hscan, htrail, rfl⟩
  · rintro ⟨core, rest', trail, hscan, htrail, rfl⟩
    rw [hscan]
    dsimp only
    rw [htrail]
    rfl

/-- No brace is taken where another character stands. -/
theorem brace_eq_none {mark c : Char} {t : Text} (hmark : mark ≠ c) (h : t.head? = some c) :
    brace mark t = none := by
  cases hbrace : brace mark t with
  | none => rfl
  | some answer =>
      obtain ⟨taken, rest⟩ := answer
      obtain ⟨⟨space, -, rfl⟩, -, ht⟩ := brace_eq_some_iff.1 hbrace
      rw [ht, List.cons_append, List.head?_cons, Option.some.injEq] at h
      exact absurd h hmark

/-- A comment is taken with a brace in front of it, if there is one. -/
theorem bracedComment?_eq_some_iff {family : Family} {mark filler : Char} (hmark : mark ≠ '/')
    (hfiller : filler ≠ '*') {t rest : Text} {f : Found} :
    bracedComment? family mark filler t = some (f, rest) ↔
      ∃ lead core, (lead = [] ∨ IsLead mark lead) ∧ IsComment filler core ∧
        t = lead ++ core ++ rest ∧ f = ⟨family, lead, core, []⟩ := by
  unfold bracedComment?
  dsimp only
  constructor
  · intro h
    obtain ⟨⟨core, rest'⟩, hcomment, heq⟩ := Option.map_eq_some_iff.1 h
    cases heq
    obtain ⟨hcore, hrest⟩ := (commentOf_eq_some_iff hfiller).1 hcomment
    cases hbrace : brace mark t with
    | none =>
        rw [hbrace] at hrest
        exact ⟨[], core, Or.inl rfl, hcore, hrest, rfl⟩
    | some answer =>
        obtain ⟨lead, rest''⟩ := answer
        obtain ⟨hlead, -, ht⟩ := brace_eq_some_iff.1 hbrace
        rw [hbrace] at hrest
        dsimp only [Option.getD_some] at hrest
        exact ⟨lead, core, Or.inr hlead, hcore, by rw [ht, hrest, List.append_assoc], rfl⟩
  · rintro ⟨lead, core, hlead, hcore, rfl, rfl⟩
    have hhead : (core ++ rest).head? = some '/' := by
      obtain ⟨body, -, rfl⟩ := hcore
      rfl
    have hbrace : (brace mark (lead ++ core ++ rest)).getD ([], lead ++ core ++ rest) =
        (lead, core ++ rest) := by
      rcases hlead with rfl | hlead
      · rw [List.nil_append, brace_eq_none hmark hhead]
        rfl
      · have hsome : brace mark (lead ++ core ++ rest) = some (lead, core ++ rest) := by
          refine brace_eq_some_iff.2 ⟨hlead, fun c hc => ?_, List.append_assoc ..⟩
          rw [hhead] at hc
          cases hc
          decide
        rw [hsome]
        rfl
    rw [hbrace]
    dsimp only
    rw [(commentOf_eq_some_iff hfiller).2 ⟨hcore, rfl⟩]
    rfl

end Placeholder

namespace Family

/-- The filler of the comments of a family. -/
def filler : Family → Char
  | comment => Sentinel.comment
  | identifier => Sentinel.identifierEnd
  | opening => Sentinel.opening
  | closing => Sentinel.closing

/-- The first sentinel in the placeholders of a family. -/
def sentinel : Family → Char
  | identifier => Sentinel.identifierStart
  | family => family.filler

/-- The brace that may stand in front of the comments of a family. -/
def mark? : Family → Option Char
  | opening => some '{'
  | closing => some '}'
  | _ => none

/-- No filler is white space. -/
theorem isBlank_filler (family : Family) : Text.isBlank family.filler = false := by
  cases family <;> decide

/-- The first sentinels of the families are sentinels. -/
theorem isSentinel_sentinel (family : Family) : isSentinel family.sentinel = true := by
  cases family <;> decide

/-- The first sentinel tells the families apart. -/
theorem sentinel_inj {family family' : Family} (h : family.sentinel = family'.sentinel) :
    family = family' := by
  cases family <;> cases family' <;> first | rfl | exact absurd h (by decide)

/-- A mark is a brace. -/
theorem mark?_cases {family : Family} {mark : Char} (h : family.mark? = some mark) :
    mark = '{' ∨ mark = '}' := by
  cases family with
  | comment => cases h
  | identifier => cases h
  | opening => exact Or.inl (Option.some.inj h).symm
  | closing => exact Or.inr (Option.some.inj h).symm

end Family

end Stencil
