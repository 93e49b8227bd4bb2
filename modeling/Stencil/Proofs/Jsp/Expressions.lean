import Stencil.Proofs.Jsp.Trimming
import Stencil.Proofs.Token.Ending

/-!
# Expressions as a language

The rule for an expression of the expression language is a handful of ordered choices and
repetitions that call each other. What it matches is a language that can be written down as a
grammar: a dollar or hash sign, an opening brace, and items up to the brace that closes it, where an
item is a string, a pair of braces with items in between, or one more character. The first character
of an item says of which kind it is, so the choices need no second thoughts and the rule reads just
one word of the language wherever one stands.

That makes the language prefix-free: two words of which one starts the other would be two matches of
one reading.
-/

set_option autoImplicit false

namespace Stencil

/-- A text starts with two characters if it starts with the first and goes on with the second. -/
theorem Text.pair_prefix_iff {x y z : Char} {t : Text} :
    [x, y] <+: z :: t ↔ x = z ∧ t.head? = some y := by
  cases t with
  | nil => simp
  | cons z t => simp [List.cons_prefix_cons, eq_comm]

namespace Jsp

open Matcher (oneOf pattern ref sequence upTo when)

/-! ## The language -/

/-- A unit of a string between quotes `q`, where `next` follows: two backslashes, a backslash and
the quote, or else one character other than the quote. -/
inductive IsStringUnit (q : Char) (next : Option Char) : Text → Prop where
  | backslashes : IsStringUnit q next ['\\', '\\']
  | escapedQuote : IsStringUnit q next ['\\', q]
  | char {x : Char} (hchar : Text.isXmlChar x = true) (hquote : x ≠ q)
      (halone : x = '\\' → next ≠ some '\\' ∧ next ≠ some q) : IsStringUnit q next [x]

/-- The part of a string behind its opening quote `q`: units, and the quote that closes it. -/
inductive IsStringTail (q : Char) : Text → Prop where
  | close : IsStringTail q [q]
  | unit {u t : Text} (hunit : IsStringUnit q t.head? u) (h : IsStringTail q t) :
      IsStringTail q (u ++ t)

/-- The part of an expression, or of braces in one, behind its opening brace: items, and the brace
that closes it. -/
inductive IsBracesTail : Text → Prop where
  | close : IsBracesTail ['}']
  | string {q : Char} {u t : Text} (hquote : q = '\x22' ∨ q = '\x27') (hstring : IsStringTail q u)
      (h : IsBracesTail t) : IsBracesTail (q :: u ++ t)
  | braces {u t : Text} (hbraces : IsBracesTail u) (h : IsBracesTail t) :
      IsBracesTail ('{' :: u ++ t)
  | char {x : Char} {t : Text} (hchar : x ∉ ['{', '}', '\x22', '\x27'])
      (hmark : x = '$' ∨ x = '#' → t.head? ≠ some '{') (h : IsBracesTail t) : IsBracesTail (x :: t)

/-- A text is an expression of the expression language. -/
inductive IsElExpression : Text → Prop where
  | mk {x : Char} {t : Text} (hmark : x = '$' ∨ x = '#') (h : IsBracesTail t) :
      IsElExpression (x :: '{' :: t)

/-- A unit of a string is not empty. -/
theorem IsStringUnit.ne_nil {q : Char} {next : Option Char} {u : Text}
    (h : IsStringUnit q next u) : u ≠ [] := by
  cases h <;> simp

/-- A unit does not start with the quote, unless that is a backslash. -/
theorem IsStringUnit.head?_ne {q : Char} {next : Option Char} {u : Text}
    (h : IsStringUnit q next u) (hq : q ≠ '\\') (t : Text) : (u ++ t).head? ≠ some q := by
  cases h with
  | backslashes => simpa using hq.symm
  | escapedQuote => simpa using hq.symm
  | char hchar hquote halone => simpa using hquote

/-- The tail of a string has a first character, its closing quote at least. -/
theorem IsStringTail.head?_append {q : Char} {t : Text} (h : IsStringTail q t) (s : Text) :
    (t ++ s).head? = t.head? := by
  cases h with
  | close => rfl
  | unit hunit h =>
      obtain ⟨x, u, rfl⟩ := List.exists_cons_of_ne_nil hunit.ne_nil
      rfl

/-- The tail of braces has a first character, the closing brace at least. -/
theorem IsBracesTail.head?_append {t : Text} (h : IsBracesTail t) (s : Text) :
    (t ++ s).head? = t.head? := by
  cases h <;> rfl

/-! ## Fixed texts -/

section Fixed

variable {view view' : View} {c d e : Cursor} {s : String} {nonempty : s.toList ≠ []}

/-- A fixed text is read where it leads on. -/
theorem parses_text_of_leads (hpast : c.past = 0) (h : c.Leads s.toList d) :
    (text s nonempty).Parses rules view c (.ends d view) := by
  rw [text, Matcher.parses_literal_iff, Cursor.after?_of_leads hpast h]
  rfl

/-- A fixed text fails where the text does not start with it. -/
theorem parses_text_fails (h : ¬s.toList <+: c.rest) :
    (text s nonempty).Parses rules view c .fails := by
  rw [text, Matcher.parses_literal_iff, Cursor.after?_of_not_stands h]
  rfl

/-- Reading a fixed text leads over that text and keeps the map. -/
theorem leads_text (h : (text s nonempty).Parses rules view c (.ends d view')) :
    view' = view ∧ c.Leads s.toList d := by
  rw [text, Matcher.parses_literal_iff, Matcher.ofStop_eq_ends_iff] at h
  exact ⟨h.2, Cursor.leads_after? h.1⟩

/-- Where a fixed text fails inside a source, the text does not start with it. -/
theorem not_prefix_of_fails (hpast : c.past = 0)
    (h : (text s nonempty).Parses rules view c .fails) : ¬s.toList <+: c.rest := by
  rintro ⟨rest, hrest⟩
  have hleads : c.Leads s.toList ⟨s.toList.reverse ++ c.front, rest, 0⟩ :=
    ⟨hrest.symm, rfl, fun _ => rfl⟩
  have hends : (text s nonempty).Parses rules view c _ := parses_text_of_leads hpast hleads
  cases h.unique hends

end Fixed

/-! ## Strings -/

section Strings

variable {view view' : View} {c d : Cursor} {q : Char} {quote escape : String}
  {nonempty : quote.toList ≠ []} {nonempty' : escape.toList ≠ []}

/-- A character is read if it is one that may stand in a page. -/
theorem parses_char_iff :
    (ref .char).Parses rules view c (.ends d view') ↔
      view' = view ∧ (Pattern.char "character" Text.isXmlChar).ahead? c = some d := by
  rw [parses_ref_iff, production, Matcher.parses_pattern_iff, Matcher.ofStop_eq_ends_iff, and_comm]

/-- A pattern of one character leads over a character that it admits in front of the rest. -/
theorem ahead?_charBefore_iff {label : String} {admits : Char → Text → Bool} (hpast : c.past = 0) :
    (Pattern.charBefore label admits).ahead? c = some d ↔
      ∃ x, admits x d.rest = true ∧ c.Leads [x] d := by
  obtain ⟨front, rest, past⟩ := c
  obtain rfl : past = 0 := hpast
  cases rest with
  | nil =>
      constructor
      · intro h
        simp [Pattern.ahead?, Pattern.charBefore] at h
      · rintro ⟨x, -, hleads⟩
        cases hleads.rest_eq
  | cons x t =>
      rw [ahead?_charBefore_cons]
      constructor
      · intro h
        split at h
        · rename_i hadmits
          cases h
          exact ⟨x, hadmits, leads_singleton front x t⟩
        · cases h
      · rintro ⟨y, hadmits, hleads⟩
        have hrest : x = y ∧ t = d.rest := by simpa using hleads.rest_eq
        obtain ⟨rfl, rfl⟩ := hrest
        rw [if_pos hadmits, (leads_singleton front x d.rest).stop_eq hleads rfl]

/-- The units of a string are what may stand between its quotes. -/
theorem parses_unit_iff (hchars : escape.toList = ['\\', q]) (hpast : c.past = 0)
    (hbefore : c.rest.head? ≠ some q) :
    (oneOf [text "\\\\", text escape nonempty', ref .char]).Parses rules view c (.ends d view') ↔
      view' = view ∧ ∃ u, IsStringUnit q d.rest.head? u ∧ c.Leads u d := by
  simp only [Matcher.parses_oneOf_cons_iff (m := text _ _), Matcher.parses_oneOf_singleton_iff,
    parses_char_iff]
  constructor
  · rintro (⟨hfirst, ⟨hsecond, hview, hchar⟩ | ⟨hescaped, -⟩⟩ | ⟨hbackslashes, -⟩)
    · obtain ⟨x, hchar, hleads⟩ := (ahead?_charBefore_iff hpast).1 hchar
      have hrest : c.rest = x :: d.rest := hleads.rest_eq
      refine ⟨hview, [x], .char hchar ?_ ?_, hleads⟩
      · rintro rfl
        exact hbefore (by rw [hrest]; rfl)
      · -- a backslash stands for itself only where neither escape does
        rintro rfl
        have hfirst := not_prefix_of_fails hpast hfirst
        have hsecond := not_prefix_of_fails hpast hsecond
        rw [hrest] at hfirst hsecond
        rw [hchars] at hsecond
        exact ⟨fun hnext => hfirst (Text.pair_prefix_iff.2 ⟨rfl, hnext⟩),
          fun hnext => hsecond (Text.pair_prefix_iff.2 ⟨rfl, hnext⟩)⟩
    · obtain ⟨hview, hleads⟩ := leads_text hescaped
      exact ⟨hview, _, .escapedQuote, hchars ▸ hleads⟩
    · obtain ⟨hview, hleads⟩ := leads_text hbackslashes
      exact ⟨hview, _, .backslashes, hleads⟩
  · rintro ⟨rfl, u, hunit, hleads⟩
    have hrest := hleads.rest_eq
    cases hunit with
    | backslashes => exact .inr ⟨parses_text_of_leads hpast hleads, Matcher.ends_ne_fails⟩
    | escapedQuote =>
        refine .inl ⟨parses_text_fails ?_, .inr ⟨?_, Matcher.ends_ne_fails⟩⟩
        · rw [hrest]
          intro hstands
          obtain ⟨-, hq⟩ := Text.pair_prefix_iff.1 hstands
          cases hq
          exact hbefore (by rw [hrest]; rfl)
        · exact parses_text_of_leads hpast (hchars.symm ▸ hleads)
    | @char x hchar hquote halone =>
        have hescapes : ∀ y, ['\\', y] <+: c.rest → x = '\\' ∧ d.rest.head? = some y := by
          intro y hstands
          obtain ⟨hx, hnext⟩ := Text.pair_prefix_iff.1 (hrest ▸ hstands)
          exact ⟨hx.symm, hnext⟩
        refine .inl ⟨parses_text_fails fun hstands => ?_, .inl ⟨parses_text_fails fun hstands => ?_,
          rfl, (ahead?_charBefore_iff hpast).2 ⟨x, hchar, hleads⟩⟩⟩
        · obtain ⟨hx, hnext⟩ := hescapes _ hstands
          exact (halone hx).1 hnext
        · obtain ⟨hx, hnext⟩ := hescapes q (hchars ▸ hstands)
          exact (halone hx).2 hnext

/-- A text with another first character does not start with this one. -/
theorem not_prefix_singleton {x : Char} {t : Text} (h : t.head? ≠ some x) : ¬[x] <+: t := by
  rintro ⟨rest, rfl⟩
  exact h rfl

/-- Behind its opening quote the rule for a string reads the tail of a string. -/
theorem parses_stringTail_iff (hquote : quote.toList = [q]) (hescape : escape.toList = ['\\', q])
    (hq : q ≠ '\\') (hpast : c.past = 0) :
    (upTo (oneOf [text "\\\\", text escape nonempty', ref .char])
      (text quote nonempty)).Parses rules view c (.ends d view') ↔
      view' = view ∧ ∃ t, IsStringTail q t ∧ c.Leads t d := by
  constructor
  · generalize hlength : c.rest.length = length
    induction length using Nat.strongRecOn generalizing c with
    | ind length ih =>
        subst hlength
        intro h
        rcases h.round_of_upTo takes_escapes hpast with
          hends | ⟨hfails, e, view₁, hpast', hshorter, hunit, hothers⟩
        · obtain ⟨hview, hleads⟩ := leads_text hends
          exact ⟨hview, _, .close, hquote ▸ hleads⟩
        · have hbefore : c.rest.head? ≠ some q := by
            intro hhead
            obtain ⟨rest, hrest⟩ := List.head?_eq_some_iff.1 hhead
            exact not_prefix_of_fails hpast hfails ⟨rest, by rw [hrest, hquote]; rfl⟩
          obtain ⟨rfl, u, hunit, hleads⟩ := (parses_unit_iff hescape hpast hbefore).1 hunit
          obtain ⟨hview, t, htail, hleads'⟩ := ih _ hshorter hpast' rfl hothers
          refine ⟨hview, u ++ t, .unit ?_ htail, hleads.trans hleads'⟩
          rwa [hleads'.rest_eq, htail.head?_append] at hunit
  · rintro ⟨rfl, t, htail, hleads⟩
    induction htail generalizing c with
    | close =>
        have hends : (text quote nonempty).Parses rules view' c (.ends d view') :=
          parses_text_of_leads hpast (hquote.symm ▸ hleads)
        exact Matcher.parses_upTo_of_terminator hends Matcher.ends_ne_fails
    | @unit u t hunit htail ih =>
        obtain ⟨e, hleads₁, hleads₂⟩ := hleads.exists_between
        have hbefore : c.rest.head? ≠ some q := by
          rw [hleads₁.rest_eq]
          exact hunit.head?_ne hq e.rest
        have hunit' : IsStringUnit q e.rest.head? u := by
          rwa [hleads₂.rest_eq, htail.head?_append]
        refine Matcher.parses_upTo_of_round takes_escapes hpast ?_
          ((parses_unit_iff hescape hpast hbefore).2 ⟨rfl, u, hunit', hleads₁⟩)
          (ih (hleads₁.past_eq hpast) hleads₂)
        exact parses_text_fails (hquote ▸ not_prefix_singleton hbefore)

/-- A quote and the tail of a string. -/
theorem parses_between_iff (hquote : quote.toList = [q]) (hescape : escape.toList = ['\\', q])
    (hq : q ≠ '\\') (hpast : c.past = 0) :
    (between quote (oneOf [text "\\\\", text escape nonempty', ref .char]) nonempty).Parses rules
        view c (.ends d view') ↔
      view' = view ∧ ∃ t, IsStringTail q t ∧ c.Leads (q :: t) d := by
  rw [between]
  constructor
  · intro h
    obtain ⟨e, view₁, hopen, hothers⟩ := h.of_sequence_cons
    obtain ⟨rfl, hleads⟩ := leads_text hopen
    rw [Matcher.parses_sequence_singleton_iff,
      parses_stringTail_iff hquote hescape hq (hleads.past_eq hpast)] at hothers
    obtain ⟨hview, t, htail, hleads'⟩ := hothers
    exact ⟨hview, t, htail, (hquote ▸ hleads).trans hleads'⟩
  · rintro ⟨rfl, t, htail, hleads⟩
    obtain ⟨e, hleads₁, hleads₂⟩ := Cursor.Leads.exists_between (t := [q]) hleads
    refine Matcher.parses_sequence_cons_iff.2 (.inl ⟨e, view',
      parses_text_of_leads hpast (hquote.symm ▸ hleads₁), ?_⟩)
    rw [Matcher.parses_sequence_singleton_iff,
      parses_stringTail_iff hquote hescape hq (hleads₁.past_eq hpast)]
    exact ⟨rfl, t, htail, hleads₂⟩

/-- The rule for a string reads strings. -/
theorem parses_elString_iff (hpast : c.past = 0) :
    (ref .elString).Parses rules view c (.ends d view') ↔
      view' = view ∧ ∃ q t, (q = '\x22' ∨ q = '\x27') ∧ IsStringTail q t ∧ c.Leads (q :: t) d := by
  rw [parses_ref_iff, production, Matcher.parses_oneOf_cons_iff,
    Matcher.parses_oneOf_singleton_iff, parses_between_iff rfl rfl (by decide) hpast,
    parses_between_iff rfl rfl (by decide) hpast]
  constructor
  · rintro (⟨-, hview, t, htail, hleads⟩ | ⟨⟨hview, t, htail, hleads⟩, -⟩)
    · exact ⟨hview, _, t, .inr rfl, htail, hleads⟩
    · exact ⟨hview, _, t, .inl rfl, htail, hleads⟩
  · rintro ⟨hview, q, t, rfl | rfl, htail, hleads⟩
    · exact .inr ⟨⟨hview, t, htail, hleads⟩, Matcher.ends_ne_fails⟩
    · refine .inl ⟨misses_between (p := isChar '\x22') rfl hpast ?_, hview, t, htail, hleads⟩
      rw [hleads.rest_eq]
      rintro x ⟨⟩
      rfl

end Strings

/-! ## Braces -/

section Braces

variable {view view' : View} {c d e : Cursor}

/-- An ordinary character of an expression is no brace and no quote, and opens no expression. -/
theorem elChar_ahead?_iff (hpast : c.past = 0) :
    elChar.ahead? c = some d ↔ ∃ x, x ∉ ['{', '}', '\x22', '\x27'] ∧
      (x = '$' ∨ x = '#' → d.rest.head? ≠ some '{') ∧ c.Leads [x] d := by
  have hbrace : startsBrace d.rest = true ↔ d.rest.head? = some '{' := by
    rw [startsBrace_iff, List.head?_eq_some_iff]
  rw [elChar, ahead?_charBefore_iff hpast]
  refine exists_congr fun x => ?_
  cases hstarts : startsBrace d.rest <;>
    simp [hstarts, isElMark, and_assoc, ← hbrace, and_left_comm]

/-- Braces in an expression are the opening brace and a body like that of an expression. -/
theorem parses_elBraces_iff (hpast : c.past = 0) :
    (ref .elBraces).Parses rules view c (.ends d view') ↔
      ∃ e, c.Leads ['{'] e ∧ (production .elBody).Parses rules view e (.ends d view') := by
  rw [parses_ref_iff, production, production]
  constructor
  · intro h
    obtain ⟨e, view₁, hopen, hothers⟩ := h.of_sequence_cons
    obtain ⟨rfl, hleads⟩ := leads_text hopen
    exact ⟨e, hleads, Matcher.parses_sequence_singleton_iff.1 hothers⟩
  · rintro ⟨e, hleads, hothers⟩
    exact Matcher.parses_sequence_cons_iff.2 (.inl ⟨e, view, parses_text_of_leads hpast hleads,
      Matcher.parses_sequence_singleton_iff.2 hothers⟩)

/-- The first character of an item says of which kind it is. -/
theorem parses_elBodyChar_iff (hpast : c.past = 0) :
    (ref .elBodyChar).Parses rules view c (.ends d view') ↔
      (ref .elString).Parses rules view c (.ends d view') ∨
      (ref .elBraces).Parses rules view c (.ends d view') ∨
      view' = view ∧ elChar.ahead? c = some d := by
  rw [parses_ref_iff, production]
  simp only [Matcher.parses_oneOf_cons_iff (m := ref _), Matcher.parses_oneOf_singleton_iff,
    Matcher.parses_pattern_iff, Matcher.ofStop_eq_ends_iff]
  constructor
  · rintro (⟨-, ⟨-, hchar, hview⟩ | ⟨hbraces, -⟩⟩ | ⟨hstring, -⟩)
    · exact .inr (.inr ⟨hview, hchar⟩)
    · exact .inr (.inl hbraces)
    · exact .inl hstring
  · rintro (hstring | hbraces | ⟨hview, hchar⟩)
    · exact .inr ⟨hstring, Matcher.ends_ne_fails⟩
    · obtain ⟨e, hleads, -⟩ := (parses_elBraces_iff hpast).1 hbraces
      refine .inl ⟨misses_elString hpast ?_, .inr ⟨hbraces, Matcher.ends_ne_fails⟩⟩
      rw [hleads.rest_eq]
      rintro x ⟨⟩
      rfl
    · obtain ⟨x, hx, -, hleads⟩ := (elChar_ahead?_iff hpast).1 hchar
      have hhead : ∀ y ∈ c.rest.head?, y = x := by
        rw [hleads.rest_eq]
        rintro y ⟨⟩
        rfl
      refine .inl ⟨misses_elString hpast fun y hy => ?_,
        .inl ⟨misses_elBraces hpast fun y hy => ?_, hchar, hview⟩⟩
      · rw [hhead y hy]
        simp_all [isQuote]
      · rw [hhead y hy]
        simp_all [isChar]

/-- Items and the brace that closes them are all that the rule reads. -/
theorem bracesTail_of_parses (hpast : c.past = 0)
    (h : (production .elBody).Parses rules view c (.ends d view')) :
    view' = view ∧ ∃ t, IsBracesTail t ∧ c.Leads t d := by
  generalize hlength : c.rest.length = length
  induction length using Nat.strongRecOn generalizing c d view view' with
  | ind length ih =>
      subst hlength
      rw [production] at h
      rcases h.round_of_upTo (takes_ref .elBodyChar) hpast with
        hends | ⟨-, e, view₁, hpast', hshorter, hitem, hothers⟩
      · obtain ⟨hview, hleads⟩ := leads_text hends
        exact ⟨hview, _, .close, hleads⟩
      obtain ⟨rfl, t, htail, hleads⟩ := ih _ hshorter hpast' hothers rfl
      rcases (parses_elBodyChar_iff hpast).1 hitem with hstring | hbraces | ⟨hview, hchar⟩
      · obtain ⟨hview, q, u, hquote, hu, hleads'⟩ := (parses_elString_iff hpast).1 hstring
        exact ⟨hview, _, .string hquote hu htail, hleads'.trans hleads⟩
      · obtain ⟨e', hopen, hinner⟩ := (parses_elBraces_iff hpast).1 hbraces
        have hshorter' : e'.rest.length < c.rest.length := by
          rw [hopen.rest_eq]
          simp
        obtain ⟨hview, u, hu, hleads'⟩ := ih _ hshorter' (hopen.past_eq hpast) hinner rfl
        exact ⟨hview, _, .braces hu htail, (hopen.trans hleads').trans hleads⟩
      · obtain ⟨x, hx, hmark, hleads'⟩ := (elChar_ahead?_iff hpast).1 hchar
        refine ⟨hview, _, .char hx (fun h => ?_) htail, hleads'.trans hleads⟩
        rw [← htail.head?_append d.rest, ← hleads.rest_eq]
        exact hmark h

/-- One item more in front of what the rule reads. -/
theorem parses_elBody_of_item (hpast : c.past = 0) (hbefore : c.rest.head? ≠ some '}')
    (hitem : (ref .elBodyChar).Parses rules view c (.ends e view))
    (hothers : (production .elBody).Parses rules view e (.ends d view)) :
    (production .elBody).Parses rules view c (.ends d view) := by
  rw [production] at hothers ⊢
  exact Matcher.parses_upTo_of_round (takes_ref .elBodyChar) hpast
    (parses_text_fails (not_prefix_singleton hbefore)) hitem hothers

/-- Wherever items and the brace that closes them stand the rule reads them. -/
theorem parses_elBody_of_bracesTail {t : Text} (h : IsBracesTail t) (hpast : c.past = 0)
    (hleads : c.Leads t d) : (production .elBody).Parses rules view c (.ends d view) := by
  induction h generalizing c d with
  | close =>
      rw [production]
      exact Matcher.parses_upTo_of_terminator (parses_text_of_leads hpast hleads)
        Matcher.ends_ne_fails
  | @string q u t hquote hstring htail ih =>
      obtain ⟨e, hleads₁, hleads₂⟩ := hleads.exists_between
      have hitem : (ref .elString).Parses rules view c (.ends e view) :=
        (parses_elString_iff hpast).2 ⟨rfl, q, u, hquote, hstring, hleads₁⟩
      refine parses_elBody_of_item hpast ?_ ((parses_elBodyChar_iff hpast).2 (.inl hitem))
        (ih (hleads₁.past_eq hpast) hleads₂)
      rw [hleads₁.rest_eq]
      rcases hquote with rfl | rfl <;> simp
  | @braces u t hbraces htail ihBraces ih =>
      obtain ⟨e, hleads₁, hleads₂⟩ := hleads.exists_between
      obtain ⟨e', hopen, hinner⟩ := Cursor.Leads.exists_between (t := ['{']) hleads₁
      have hitem : (ref .elBraces).Parses rules view c (.ends e view) :=
        (parses_elBraces_iff hpast).2 ⟨e', hopen, ihBraces (hopen.past_eq hpast) hinner⟩
      refine parses_elBody_of_item hpast ?_ ((parses_elBodyChar_iff hpast).2 (.inr (.inl hitem)))
        (ih (hleads₁.past_eq hpast) hleads₂)
      rw [hleads₁.rest_eq]
      simp
  | @char x t hchar hmark htail ih =>
      obtain ⟨e, hleads₁, hleads₂⟩ := Cursor.Leads.exists_between (t := [x]) hleads
      have hitem := (elChar_ahead?_iff hpast).2 ⟨x, hchar, fun h => by
        rw [hleads₂.rest_eq, htail.head?_append]
        exact hmark h, hleads₁⟩
      refine parses_elBody_of_item hpast ?_
        ((parses_elBodyChar_iff hpast).2 (.inr (.inr ⟨rfl, hitem⟩)))
        (ih (hleads₁.past_eq hpast) hleads₂)
      rw [hleads₁.rest_eq]
      rintro ⟨⟩
      simp at hchar

end Braces

/-! ## Expressions -/

section Expressions

variable {view view' : View} {c d : Cursor}

/-- An expression starts with a sign and a brace, where the language is on. -/
theorem parses_elExpressionStart_iff (hpast : c.past = 0) :
    (ref .elExpressionStart).Parses rules view c (.ends d view') ↔
      elEnabled.holds view = true ∧ view' = view ∧
        ∃ x, (x = '$' ∨ x = '#') ∧ c.Leads [x, '{'] d := by
  rw [parses_ref_iff, production, Matcher.parses_when_iff, Matcher.parses_oneOf_cons_iff,
    Matcher.parses_oneOf_singleton_iff]
  cases hel : elEnabled.holds view with
  | false => simp
  | true =>
      simp only [if_true, true_and]
      constructor
      · rintro (⟨-, hhash⟩ | ⟨hdollar, -⟩)
        · obtain ⟨hview, hleads⟩ := leads_text hhash
          exact ⟨hview, _, .inr rfl, hleads⟩
        · obtain ⟨hview, hleads⟩ := leads_text hdollar
          exact ⟨hview, _, .inl rfl, hleads⟩
      · rintro ⟨rfl, x, rfl | rfl, hleads⟩
        · exact .inr ⟨parses_text_of_leads hpast hleads, Matcher.ends_ne_fails⟩
        · refine .inl ⟨parses_text_fails ?_, parses_text_of_leads hpast hleads⟩
          rw [hleads.rest_eq]
          simp [List.cons_prefix_cons]

/-- The rule for an expression reads expressions, if the expression language is on. -/
theorem parses_elExpression_iff (hpast : c.past = 0) :
    (rule .elExpression).Parses rules view c (.ends d view') ↔
      elEnabled.holds view = true ∧ view' = view ∧ ∃ e, IsElExpression e ∧ c.Leads e d := by
  rw [rule, Matcher.parses_labelled_iff, production, Matcher.parses_when_iff]
  constructor
  · intro h
    split at h
    · obtain ⟨c₁, view₁, hstart, hbody⟩ := h.of_sequence_cons
      obtain ⟨hel, rfl, x, hmark, hleads⟩ := (parses_elExpressionStart_iff hpast).1 hstart
      rw [Matcher.parses_sequence_singleton_iff, parses_ref_iff] at hbody
      obtain ⟨hview, t, htail, hleads'⟩ := bracesTail_of_parses (hleads.past_eq hpast) hbody
      exact ⟨hel, hview, _, .mk hmark htail, hleads.trans hleads'⟩
    · cases h
  · rintro ⟨hel, rfl, e, he, hleads⟩
    cases he with
    | @mk x t hmark htail =>
        obtain ⟨c₁, hleads₁, hleads₂⟩ := Cursor.Leads.exists_between (t := [x, '{']) hleads
        have hstart := (parses_elExpressionStart_iff hpast).2 ⟨hel, rfl, x, hmark, hleads₁⟩
        have hbody : (production .elBody).Parses rules view' c₁ (.ends d view') :=
          parses_elBody_of_bracesTail htail (hleads₁.past_eq hpast) hleads₂
        rw [if_pos hel]
        refine Matcher.parses_sequence_cons_iff.2 (.inl ⟨c₁, view', hstart, ?_⟩)
        rw [Matcher.parses_sequence_singleton_iff, parses_ref_iff]
        exact hbody

/-- A text starts with one expression at most. -/
theorem IsElExpression.unique {e e' t : Text} (h : IsElExpression e) (h' : IsElExpression e')
    (hstands : e <+: t) (hstands' : e' <+: t) : e = e' := by
  obtain ⟨rest, rfl⟩ := hstands
  obtain ⟨rest', hrest'⟩ := hstands'
  -- both are matches of one reading, with an empty store in hand
  have hleads : (⟨[], e ++ rest, 0⟩ : Cursor).Leads e ⟨e.reverse ++ [], rest, 0⟩ := ⟨rfl, rfl, id⟩
  have hleads' : (⟨[], e ++ rest, 0⟩ : Cursor).Leads e' ⟨e'.reverse ++ [], rest', 0⟩ :=
    ⟨hrest'.symm, rfl, id⟩
  have hparses : (rule .elExpression).Parses rules (fun _ => none) _ _ :=
    (parses_elExpression_iff rfl).2 ⟨rfl, rfl, e, h, hleads⟩
  have hparses' : (rule .elExpression).Parses rules (fun _ => none) _ _ :=
    (parses_elExpression_iff rfl).2 ⟨rfl, rfl, e', h', hleads'⟩
  injection hparses.unique hparses' with hstop
  rw [hstop] at hleads
  exact hleads.unique hleads'

/-- Where no character follows, be it past the end, no expression starts. -/
theorem parse_elExpression_of_nil (hrest : c.rest = []) :
    (rule .elExpression).parse rules 8 view c = .ok .fails := by
  obtain ⟨front, rest, past⟩ := c
  obtain rfl : rest = [] := hrest
  cases hel : elEnabled.holds view <;>
    simp [rule, rules, production, text, Matcher.parse, Parse.sequence, Parse.oneOf, Parse.pure,
      Verdict.ofStop, Cursor.after?, Text.after?, hel]

/-- Trying the rule for an expression finds the expression that starts at the place, if one does. -/
theorem run_elExpression {a : Attempt} (ha : a.fatal = none) (source : Text) (position : Nat) :
    ∃ found a', (rule .elExpression).run rules a (.ofPosition source position) = .ok (found, a') ∧
      ∀ stop, found = some stop ↔ elEnabled.holds a.store.view = true ∧
        ∃ e, IsElExpression e ∧ e <+: source.drop position ∧
          stop = .ofPosition source (position + e.length) := by
  rcases Nat.lt_or_ge source.length position with hpast | hle
  · -- nothing follows, and the rule fails
    have hrest : (Cursor.ofPosition source position).rest = [] := List.drop_eq_nil_of_le hpast.le
    have hparse : (rule .elExpression).parse rules ((rule .elExpression).bound rules 0)
        a.store.view (.ofPosition source position) = .ok .fails :=
      Matcher.parse_mono (Nat.le_add_right_of_le (by decide)) (parse_elExpression_of_nil hrest)
    have hagrees := Matcher.agrees_step regular_rules (regular_rule .elExpression) ha
      ((rule .elExpression).bound rules 0) (.ofPosition source position)
    rw [hparse] at hagrees
    obtain ⟨a', hstep⟩ : ∃ a', (rule .elExpression).step rules
        ((rule .elExpression).bound rules 0) a (.ofPosition source position) = .ok (none, a') := by
      generalize (rule .elExpression).step rules _ a _ = outcome at hagrees ⊢
      cases hagrees with
      | @fails a' => exact ⟨a', rfl⟩
    refine ⟨none, a', ?_, fun stop => ⟨nofun, ?_⟩⟩
    · rw [Matcher.run, hrest]
      exact hstep
    · rintro ⟨-, e, he, hstands, -⟩
      rw [List.drop_eq_nil_of_le hpast.le] at hstands
      cases he
      simp at hstands
  · have hpast : (Cursor.ofPosition source position).past = 0 := Nat.sub_eq_zero_of_le hle
    have hregular := regular_rule .elExpression
    obtain ⟨⟨found, a'⟩, houtcome⟩ := exists_outcome hregular (levels_rule .elExpression).2 a hpast
    have hrun := houtcome _ (depthFor_le_bound (rule .elExpression) _)
    refine ⟨found, a', hrun, fun stop => ⟨?_, ?_⟩⟩
    · rintro rfl
      obtain ⟨-, -, hparses⟩ := Matcher.step_some regular_rules hregular hrun
      obtain ⟨hel, -, e, he, hleads⟩ := (parses_elExpression_iff hpast).1 hparses
      exact ⟨hel, e, he, (Cursor.leads_ofPosition_iff hle).1 hleads⟩
    · rintro ⟨hel, e, he, hplace⟩
      have hleads := (Cursor.leads_ofPosition_iff hle).2 hplace
      have hends := (parses_elExpression_iff hpast).2 ⟨hel, rfl, e, he, hleads⟩
      cases found with
      | none => exact absurd hends (Matcher.step_none regular_rules hregular ha hrun _ _)
      | some stop' =>
          obtain ⟨-, -, hparses⟩ := Matcher.step_some regular_rules hregular hrun
          injection hparses.unique hends with hstop
          rw [hstop]

/-- While the expression language is on, the rule for an expression matches at a place of a text,
or past its end, just if a word of the language starts there, and ends behind that word; no text
starts with two of them, so a word in front of any other text is read to its own end. While the
expression language is off the rule never matches. -/
theorem elExpression_reads_language {a : Attempt} (ha : a.fatal = none) :
    (elEnabled.holds a.store.view = true →
      (∀ source position, ∃ found a',
        (rule .elExpression).run rules a (.ofPosition source position) = .ok (found, a') ∧
        ∀ stop, found = some stop ↔ ∃ e, IsElExpression e ∧ e <+: source.drop position ∧
          stop = .ofPosition source (position + e.length)) ∧
      ∀ e s, IsElExpression e → ∃ a', (rule .elExpression).run rules a (.ofPosition (e ++ s) 0) =
        .ok (some (.ofPosition (e ++ s) e.length), a')) ∧
    (∀ e e' t, IsElExpression e → IsElExpression e' → e <+: t → e' <+: t → e = e') ∧
    (elEnabled.holds a.store.view = false → ∀ source position, ∃ a',
      (rule .elExpression).run rules a (.ofPosition source position) = .ok (none, a')) := by
  refine ⟨fun hel => ⟨fun source position => ?_, fun e s he => ?_⟩, fun e e' t he he' => ?_,
    fun hel source position => ?_⟩
  · simpa only [hel, true_and] using run_elExpression ha source position
  · obtain ⟨found, a', hrun, hfound⟩ := run_elExpression ha (e ++ s) 0
    refine ⟨a', ?_⟩
    rw [hrun, (hfound _).2 ⟨hel, e, he, List.prefix_append e s, rfl⟩, Nat.zero_add]
  · exact he.unique he'
  · obtain ⟨found, a', hrun, hfound⟩ := run_elExpression ha source position
    cases found with
    | none => exact ⟨a', hrun⟩
    | some stop =>
        obtain ⟨hon, -⟩ := (hfound stop).1 rfl
        rw [hel] at hon
        cases hon

/-- Braces and a string that holds a brace and an escaped quote, and braces behind the expression:
it is read up to the brace that closes the first one. -/
theorem elExpression_reads_braces_and_string :
    let e := "#\x7b\x7b\x22\x7d\\\x22\x22\x7d$\x7d".toList
    let a : Attempt := {}
    a.fatal = none ∧ elEnabled.holds a.store.view = true ∧ IsElExpression e ∧
      ∃ a', (rule .elExpression).run rules a (.ofPosition (e ++ "\x7d\x7d".toList) 0) =
        .ok (some (.ofPosition (e ++ "\x7d\x7d".toList) 11), a') := by
  intro e a
  have he : IsElExpression e := by
    refine .mk (.inr rfl) (.braces (u := "\x22\x7d\\\x22\x22\x7d".toList) ?_ ?_)
    · refine .string (q := '\x22') (u := "\x7d\\\x22\x22".toList) (.inl rfl) ?_ .close
      exact .unit (.char rfl (by decide) (by decide)) (.unit .escapedQuote .close)
    · exact .char (by decide) (by decide) .close
  exact ⟨rfl, rfl, he, ((elExpression_reads_language rfl).1 rfl).2 e _ he⟩

end Expressions

end Jsp

end Stencil
