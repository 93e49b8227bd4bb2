import Stencil.Proofs.Jsp.Progress
import Stencil.Proofs.Jsp.Tags
import Stencil.Proofs.Matcher.Unfolding

/-!
# Template text

Template text is read chunk by chunk: runs of characters with which no construct starts, escapes of
two characters, and single characters that start nothing because of what follows them. Put together
the chunks are the longest beginning of a text in which no construct starts (`Jsp.templateRun`),
where the only thing to remember from one character to the next is whether a backslash stands in
front: behind one a dollar or hash sign starts nothing.
-/

set_option autoImplicit false

namespace Stencil.Jsp

open Matcher (many maybe ref)

/-- Whether a construct starts with a text. Behind a backslash no expression of the expression
language starts, and where the language is off none starts at all. -/
def startsConstruct (el escaped : Bool) : Text → Bool
  | [] => false
  | x :: t =>
    (x == '<' && startsMarkup t) || (el && !escaped && isElMark x && startsBrace t)

/-- The longest beginning of a text in which no construct starts. -/
def templateRun (el : Bool) : Bool → Text → Text
  | _, [] => []
  | escaped, x :: t =>
    if startsConstruct el escaped (x :: t) then [] else x :: templateRun el (x == '\\') t

/-- Whether a backslash stands in front of what follows a text. -/
def behindBackslash : Bool → Text → Bool
  | escaped, [] => escaped
  | _, x :: t => behindBackslash (x == '\\') t

section TemplateRun

variable {el escaped : Bool} {t : Text}

/-- No template text stands where a construct starts. -/
theorem templateRun_of_starts (h : startsConstruct el escaped t = true) :
    templateRun el escaped t = [] := by
  cases t with
  | nil => rfl
  | cons x t => rw [templateRun, if_pos h]

/-- Where no construct starts, the run has the first character and goes on behind it. -/
theorem templateRun_cons {x : Char} (h : startsConstruct el escaped (x :: t) = false) :
    templateRun el escaped (x :: t) = x :: templateRun el (x == '\\') t := by
  rw [templateRun, h]
  rfl

/-- What starts a construct behind a backslash does so without it. -/
theorem startsConstruct_unescaped (h : startsConstruct el escaped t = true) :
    startsConstruct el false t = true := by
  cases escaped with
  | false => exact h
  | true =>
      cases t with
      | nil => cases h
      | cons x t =>
          simp only [startsConstruct, Bool.not_true, Bool.and_false, Bool.false_and,
            Bool.or_false] at h
          simp [startsConstruct, h]

/-- A backslash stands in front if it is the last character. -/
theorem behindBackslash_append_singleton (escaped : Bool) (t : Text) (x : Char) :
    behindBackslash escaped (t ++ [x]) = (x == '\\') := by
  induction t generalizing escaped with
  | nil => rfl
  | cons y t ih => exact ih _

/-- Behind a text a backslash stands in front exactly if the text ends with one. -/
theorem behindBackslash_iff : behindBackslash false t = true ↔ ∃ lead, t = lead ++ ['\\'] := by
  constructor
  · intro h
    rcases List.eq_nil_or_concat t with rfl | ⟨lead, x, rfl⟩
    · cases h
    · rw [List.concat_eq_append, behindBackslash_append_singleton, beq_iff_eq] at h
      exact ⟨lead, by rw [List.concat_eq_append, h]⟩
  · rintro ⟨lead, rfl⟩
    rw [behindBackslash_append_singleton]
    rfl

/-- A run of template text ends where the text does or a construct starts. -/
theorem exists_templateRun_append (el escaped : Bool) (t : Text) :
    ∃ rest, t = templateRun el escaped t ++ rest ∧
      (rest = [] ∨
        startsConstruct el (behindBackslash escaped (templateRun el escaped t)) rest = true) := by
  induction t generalizing escaped with
  | nil => exact ⟨[], rfl, .inl rfl⟩
  | cons x t ih =>
      by_cases h : startsConstruct el escaped (x :: t) = true
      · rw [templateRun_of_starts h]
        exact ⟨x :: t, rfl, .inr h⟩
      · obtain ⟨rest, hsplit, hrest⟩ := ih (x == '\\')
        rw [templateRun_cons (by simpa using h)]
        exact ⟨rest, congrArg (x :: ·) hsplit, hrest⟩

/-- No construct starts inside a run of template text, whatever stands behind the run. -/
theorem not_startsConstruct_of_run {rest before after : Text} {x : Char}
    (hsplit : t = templateRun el escaped t ++ rest)
    (h : templateRun el escaped t = before ++ x :: after) :
    startsConstruct el (behindBackslash escaped before) (x :: (after ++ rest)) = false := by
  induction t generalizing escaped before with
  | nil => simp [templateRun] at h
  | cons y t ih =>
      by_cases hstarts : startsConstruct el escaped (y :: t) = true
      · rw [templateRun_of_starts hstarts] at h
        simp at h
      · have hstarts : startsConstruct el escaped (y :: t) = false := by simpa using hstarts
        have hcons := templateRun_cons hstarts
        rw [hcons] at h hsplit
        have hsplit' : t = templateRun el (y == '\\') t ++ rest := (List.cons.inj hsplit).2
        cases before with
        | nil =>
            obtain ⟨rfl, htail⟩ := List.cons.inj h
            rw [← htail, ← hsplit']
            exact hstarts
        | cons z before =>
            obtain ⟨rfl, htail⟩ := List.cons.inj h
            have hinside := ih hsplit' htail
            exact hinside

/-- With a plain character no construct starts. -/
theorem templateRun_plain {x : Char} (h : (x == '<' || isElMark x || x == '\\') = false) :
    templateRun el escaped (x :: t) = x :: templateRun el false t := by
  simp only [Bool.or_eq_false_iff] at h
  obtain ⟨⟨hbracket, hmark⟩, hbackslash⟩ := h
  rw [templateRun_cons (by simp [startsConstruct, hbracket, hmark]), hbackslash]

/-- Plain characters belong to the run, which goes on behind them. -/
theorem templateRun_plain_append {run : Text}
    (h : ∀ x ∈ run, (x == '<' || isElMark x || x == '\\') = false) :
    templateRun el false (run ++ t) = run ++ templateRun el false t := by
  induction run with
  | nil => rfl
  | cons x run ih =>
      rw [List.forall_mem_cons] at h
      rw [List.cons_append, templateRun_plain h.1, ih h.2, List.cons_append]

end TemplateRun

/-! ## Chunks -/

/-- The place behind a chunk of template text. -/
def chunkStop? (el : Bool) (c : Cursor) : Option Cursor :=
  plainRun.ahead? c <|> c.after? "\\$".toList <|> c.after? "\\#".toList <|>
    c.after? "\\".toList <|> loneBracket.ahead? c <|>
    (if el then loneMark.ahead? c else (Pattern.char "$ or #" isElMark).ahead? c) <|> none

/-- A chunk of template text is read as far as the characters at hand say. -/
theorem parses_templateChunk (view : View) (c : Cursor) :
    (ref .templateChunk).Parses rules view c
      (.ofStop view (chunkStop? (elEnabled.holds view) c)) := by
  rw [parses_ref_iff, production]
  unfold chunkStop? text
  refine Matcher.parses_oneOf_cons_ofStop (Matcher.parses_pattern_iff.2 rfl) ?_
  refine Matcher.parses_oneOf_cons_ofStop (Matcher.parses_literal_iff.2 rfl) ?_
  refine Matcher.parses_oneOf_cons_ofStop (Matcher.parses_literal_iff.2 rfl) ?_
  refine Matcher.parses_oneOf_cons_ofStop (Matcher.parses_literal_iff.2 rfl) ?_
  refine Matcher.parses_oneOf_cons_ofStop (Matcher.parses_pattern_iff.2 rfl) ?_
  refine Matcher.parses_oneOf_cons_ofStop (Matcher.parses_whenElse_iff.2 ?_)
    (Matcher.parses_oneOf_nil_iff.2 rfl)
  split
  · exact Matcher.parses_pattern_iff.2 rfl
  · exact Matcher.parses_pattern_iff.2 rfl

variable {el : Bool} {view : View} {c : Cursor}

/-- One character in front of what follows it is read where it is admitted. -/
theorem ahead?_charBefore_cons (label : String) (admits : Char → Text → Bool) (front : Text)
    (x : Char) (t : Text) :
    (Pattern.charBefore label admits).ahead? ⟨front, x :: t, 0⟩ =
      if admits x t then some ⟨x :: front, t, 0⟩ else none := by
  cases h : admits x t <;> simp [Pattern.ahead?, Pattern.charBefore, h, Cursor.advance]

/-- A run of plain characters does not start with a sign. -/
theorem plainRun_none {x : Char} (h : (x == '<' || isElMark x || x == '\\') = true)
    (front : Text) (t : Text) : plainRun.ahead? ⟨front, x :: t, 0⟩ = none := by
  rw [Pattern.ahead?]
  simp only [plainRun, Pattern.run1, Pattern.word, h, Bool.not_true, Bool.false_eq_true, if_false]

/-- There is no chunk at the end of the text. -/
theorem chunkStop?_nil (el : Bool) (front : Text) : chunkStop? el ⟨front, [], 0⟩ = none := by
  cases el <;> rfl

/-- An angle bracket is a chunk of its own, unless markup follows. -/
theorem chunkStop?_bracket (el : Bool) (front : Text) (t : Text) :
    chunkStop? el ⟨front, '<' :: t, 0⟩ =
      if startsMarkup t then none else some ⟨'<' :: front, t, 0⟩ := by
  cases el <;> cases h : startsMarkup t <;>
    simp [chunkStop?, plainRun_none, loneBracket, loneMark, Pattern.char, ahead?_charBefore_cons,
      Cursor.after?, Text.after?, isElMark, h]

/-- A sign of the expression language is a chunk of its own, unless an expression starts with it. -/
theorem chunkStop?_mark {x : Char} (hx : isElMark x = true) (el : Bool) (front : Text) (t : Text) :
    chunkStop? el ⟨front, x :: t, 0⟩ =
      if el && startsBrace t then none else some ⟨x :: front, t, 0⟩ := by
  have hx' : x = '$' ∨ x = '#' := by simpa [isElMark] using hx
  rcases hx' with rfl | rfl <;> cases el <;> cases h : startsBrace t <;>
    simp [chunkStop?, plainRun_none, loneBracket, loneMark, Pattern.char, ahead?_charBefore_cons,
      Cursor.after?, Text.after?, isElMark, h]

/-- Behind a backslash a dollar or hash sign belongs to the chunk. -/
theorem chunkStop?_backslash (el : Bool) (front : Text) (t : Text) :
    chunkStop? el ⟨front, '\\' :: t, 0⟩ =
      match t with
      | x :: t' =>
        if isElMark x then some ⟨x :: '\\' :: front, t', 0⟩ else some ⟨'\\' :: front, t, 0⟩
      | [] => some ⟨'\\' :: front, t, 0⟩ := by
  cases t with
  | nil => simp [chunkStop?, plainRun_none, Cursor.after?, Text.after?]
  | cons x t =>
      by_cases hdollar : x = '$'
      · simp [chunkStop?, plainRun_none, Cursor.after?, Text.after?, isElMark, hdollar]
      · by_cases hhash : x = '#'
        · simp [chunkStop?, plainRun_none, Cursor.after?, Text.after?, isElMark, hhash]
        · simp [chunkStop?, plainRun_none, Cursor.after?, Text.after?, isElMark, hdollar, hhash,
            Ne.symm hdollar, Ne.symm hhash]

/-- A character leads to the place behind it. -/
theorem leads_singleton (front : Text) (x : Char) (t : Text) :
    Cursor.Leads ⟨front, x :: t, 0⟩ [x] ⟨x :: front, t, 0⟩ :=
  ⟨rfl, rfl, id⟩

/-- What a chunk has to do with the run of template text: the run is not at its end where a chunk is
read, and starts with it. -/
def ChunkSpec (el : Bool) (c : Cursor) : Prop :=
  match chunkStop? el c with
  | none => templateRun el false c.rest = []
  | some stop => ∃ x t, c.Leads (x :: t) stop ∧
      templateRun el false c.rest = x :: t ++ templateRun el false stop.rest

/-- A chunk fits the run where an angle bracket stands. -/
theorem chunkSpec_bracket (el : Bool) (front : Text) (t : Text) :
    ChunkSpec el ⟨front, '<' :: t, 0⟩ := by
  rw [ChunkSpec, chunkStop?_bracket]
  by_cases hmarkup : startsMarkup t = true
  · rw [if_pos hmarkup]
    exact templateRun_of_starts (by simp [startsConstruct, hmarkup])
  · rw [if_neg hmarkup]
    refine ⟨'<', [], leads_singleton front '<' t, templateRun_cons ?_⟩
    simp [startsConstruct, hmarkup, isElMark]

/-- A chunk fits the run where a sign of the expression language stands. -/
theorem chunkSpec_mark {x : Char} (hx : isElMark x = true) (el : Bool) (front : Text) (t : Text) :
    ChunkSpec el ⟨front, x :: t, 0⟩ := by
  have hbracket : (x == '<') = false := by
    have hx' : x = '$' ∨ x = '#' := by simpa [isElMark] using hx
    rcases hx' with rfl | rfl <;> rfl
  have hbackslash : (x == '\\') = false := by
    have hx' : x = '$' ∨ x = '#' := by simpa [isElMark] using hx
    rcases hx' with rfl | rfl <;> rfl
  have hstarts : startsConstruct el false (x :: t) = (el && startsBrace t) := by
    simp [startsConstruct, hbracket, hx]
  rw [ChunkSpec, chunkStop?_mark hx]
  by_cases hbrace : (el && startsBrace t) = true
  · rw [if_pos hbrace]
    exact templateRun_of_starts (hstarts.trans hbrace)
  · rw [if_neg hbrace]
    refine ⟨x, [], leads_singleton front x t, ?_⟩
    rw [templateRun_cons (hstarts.trans (by simpa using hbrace)), hbackslash]
    rfl

/-- Behind a backslash only a dollar or hash sign is read differently. -/
theorem templateRun_escaped {t : Text} (h : ∀ x ∈ t.head?, isElMark x = false) :
    templateRun el true t = templateRun el false t := by
  cases t with
  | nil => rfl
  | cons x t => simp [templateRun, startsConstruct, h x rfl]

/-- A chunk fits the run where a backslash stands. -/
theorem chunkSpec_backslash (el : Bool) (front : Text) (t : Text) :
    ChunkSpec el ⟨front, '\\' :: t, 0⟩ := by
  have hfirst : templateRun el false ('\\' :: t) = '\\' :: templateRun el true t :=
    templateRun_cons (by simp [startsConstruct, isElMark])
  have hsingle (h : ∀ x ∈ t.head?, isElMark x = false) :
      ∃ x t', Cursor.Leads ⟨front, '\\' :: t, 0⟩ (x :: t') ⟨'\\' :: front, t, 0⟩ ∧
        templateRun el false ('\\' :: t) = x :: t' ++ templateRun el false t := by
    refine ⟨'\\', [], leads_singleton front '\\' t, ?_⟩
    rw [hfirst, templateRun_escaped h]
    rfl
  rw [ChunkSpec, chunkStop?_backslash]
  cases t with
  | nil => exact hsingle (by simp)
  | cons x t =>
      by_cases hx : isElMark x = true
      · have hx' : x = '$' ∨ x = '#' := by simpa [isElMark] using hx
        have hescaped : templateRun el true (x :: t) = x :: templateRun el false t := by
          rw [templateRun_cons] <;> rcases hx' with rfl | rfl <;> simp [startsConstruct]
        simp only [hx, if_true]
        refine ⟨'\\', [x], ⟨rfl, rfl, id⟩, ?_⟩
        rw [hfirst, hescaped]
        rfl
      · simp only [hx, Bool.false_eq_true, if_false]
        exact hsingle (by simpa using hx)

/-- A chunk fits the run at every place inside the text. -/
theorem chunkSpec (el : Bool) (hpast : c.past = 0) : ChunkSpec el c := by
  cases hplain : plainRun.ahead? c with
  | some stop =>
      obtain ⟨x, t, hx, ht, hleads⟩ := Cursor.leads_word hplain
      have hrun : ∀ y ∈ x :: t, (y == '<' || isElMark y || y == '\\') = false := by
        simpa using And.intro hx ht
      rw [ChunkSpec, chunkStop?, hplain]
      exact ⟨x, t, hleads, by rw [hleads.rest_eq, templateRun_plain_append hrun]⟩
  | none =>
      obtain ⟨front, rest, past⟩ := c
      obtain rfl : past = 0 := hpast
      cases rest with
      | nil =>
          rw [ChunkSpec, chunkStop?_nil]
          rfl
      | cons x t =>
          have hx : x = '<' ∨ isElMark x = true ∨ x = '\\' := by
            by_contra hnot
            simp only [not_or, Bool.not_eq_true] at hnot
            simp [plainRun, Pattern.ahead?, Pattern.run1, Pattern.word, hnot] at hplain
          rcases hx with rfl | hx | rfl
          · exact chunkSpec_bracket el front t
          · exact chunkSpec_mark hx el front t
          · exact chunkSpec_backslash el front t

/-! ## The rule -/

/-- No rule matches without taking a character. -/
theorem takes_ref (r : Rule) : Matcher.Takes rules (ref r) := by
  apply Matcher.takes_of_not_nullable
  rw [nullable_ref_iff]
  simpa [rule] using not_nullable_rule r

/-- Chunks are read up to the end of the run, or none at all. -/
theorem exists_parses_chunks (view : View) (hpast : c.past = 0) :
    ∃ stop, c.Leads (templateRun (elEnabled.holds view) false c.rest) stop ∧
      (maybe (many (ref .templateChunk))).Parses rules view c (.ends stop view) := by
  have hbody := takes_ref .templateChunk
  generalize hlength : c.rest.length = length
  induction length using Nat.strongRecOn generalizing c with
  | ind length ih =>
      subst hlength
      have hchunk := parses_templateChunk view c
      have hspec := chunkSpec (elEnabled.holds view) hpast
      unfold ChunkSpec at hspec
      cases hstop : chunkStop? (elEnabled.holds view) c with
      | none =>
          rw [hstop] at hchunk hspec
          have hfails : (many (ref .templateChunk)).Parses rules view c .fails :=
            (Matcher.parses_many_iff hbody hpast).2
              (Matcher.parses_sequence_cons_iff.2 (.inr ⟨hchunk, nofun⟩))
          exact ⟨c, hspec ▸ .refl c, Matcher.parses_maybe_iff.2 (.inl ⟨hfails, rfl⟩)⟩
      | some next =>
          rw [hstop] at hchunk hspec
          obtain ⟨x, t, hleads, hrun⟩ := hspec
          have hshorter : next.rest.length < c.rest.length := by
            rw [hleads.rest_eq]
            simp
          obtain ⟨stop, hleads', hothers⟩ := ih _ hshorter (hleads.past_eq hpast) rfl
          refine ⟨stop, hrun ▸ hleads.trans hleads', ?_⟩
          refine Matcher.parses_maybe_iff.2 (.inr ⟨?_, nofun⟩)
          refine (Matcher.parses_many_iff hbody hpast).2 (Matcher.parses_sequence_cons_iff.2 ?_)
          exact .inl ⟨next, view, hchunk, Matcher.parses_sequence_singleton_iff.2 hothers⟩

/-- Template text is the run in which no construct starts, and fails where that is empty. -/
theorem parses_templateText (view : View) (hpast : c.past = 0) :
    (templateRun (elEnabled.holds view) false c.rest = [] ∧
      (rule .templateText).Parses rules view c .fails) ∨
    (templateRun (elEnabled.holds view) false c.rest ≠ [] ∧
      ∃ stop, c.Leads (templateRun (elEnabled.holds view) false c.rest) stop ∧
        (rule .templateText).Parses rules view c (.ends stop view)) := by
  obtain ⟨stop, hleads, hparses⟩ := exists_parses_chunks view hpast
  simp only [rule, Matcher.parses_labelled_iff, production]
  rcases Matcher.parses_maybe_iff.1 hparses with ⟨hfails, heq⟩ | ⟨hends, -⟩
  · -- nothing was read, so the run is empty
    cases heq
    have hlength := hleads.offset_eq
    exact .inl ⟨List.eq_nil_of_length_eq_zero (by omega), hfails⟩
  · refine .inr ⟨?_, stop, hleads, hends⟩
    intro hempty
    have htakes : Matcher.Takes rules (many (ref .templateChunk)) :=
      Matcher.takes_of_not_nullable (by simp)
    obtain ⟨x, t, hmoves⟩ := htakes hpast hends
    have hoffset := hleads.offset_eq
    have hoffset' := hmoves.offset_eq
    rw [hempty] at hoffset
    simp only [List.length_nil, List.length_cons] at hoffset hoffset'
    omega

end Stencil.Jsp
