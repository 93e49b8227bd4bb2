import Stencil.Proofs.Jsp.Keeping
import Stencil.Proofs.Text.Scanning

/-!
# Tags of custom actions

What the rules for custom tags read. The start of a tag is an angle bracket, a qualified name and,
set off by white space, attributes (`Text.OpensTag`); reading it leaves the name in the map. The end
tag of a name repeats exactly that name (`Text.EndsTag`), and the matcher that is made for it looks
at nothing but the text.
-/

set_option autoImplicit false

namespace Stencil

namespace Text

/-- A name without a colon. -/
def IsNcName (t : Text) : Prop :=
  ∃ c rest, t = c :: rest ∧ isNcNameStart c = true ∧ ∀ d ∈ rest, isNcNameChar d = true

/-- A qualified name: a name on each side of a colon. -/
def IsQName (t : Text) : Prop :=
  ∃ lead name, IsNcName lead ∧ IsNcName name ∧ t = lead ++ ':' :: name

/-- A start tag without the bracket that ends it: its name, and what white space sets off. -/
def OpensTag (name t : Text) : Prop :=
  IsQName name ∧
    ∃ behind, t = '<' :: (name ++ behind) ∧ ∀ c ∈ behind.head?, isXmlSpace c = true

/-- The end tag of a name. -/
def EndsTag (name t : Text) : Prop :=
  ∃ blanks, (∀ c ∈ blanks, isXmlSpace c = true) ∧ t = '<' :: '/' :: (name ++ (blanks ++ ['>']))

end Text

namespace Jsp

open Cursor

/-! ## End tags -/

/-- A run of white space. -/
def blankRun : Pattern := .run1 "white space" Text.isXmlSpace

/-- The place behind the end tag of a name, if it stands at a place. -/
def endTagStop? (name : Text) (c : Cursor) : Option Cursor :=
  (c.after? "</".toList).bind fun c => (c.after? name).bind fun c =>
    (some ((blankRun.ahead? c).getD c)).bind fun c => (c.after? ">".toList).bind some

/-- The matcher of an end tag looks at nothing but the text. -/
theorem readsAs_closer (name : Text) (nonempty : name ≠ []) :
    (closer name nonempty (rule .space)).ReadsAs rules (endTagStop? name) := by
  have hspace : (rule .space).ReadsAs rules blankRun.ahead? :=
    (Matcher.readsAs_pattern blankRun).labelled
  have hnil : (Matcher.sequence [] : Production).ReadsAs rules some :=
    Matcher.readsAs_sequence_nil
  have hclose := (Matcher.readsAs_literal ">".toList (by decide)).sequence_cons hnil
  have hname := (Matcher.readsAs_literal name nonempty).sequence_cons
    (hspace.maybe.sequence_cons hclose)
  exact ((Matcher.readsAs_literal "</".toList (by decide)).sequence_cons hname).labelled

/-- What leads to the place behind an end tag is an end tag of the name. -/
theorem endsTag_of_endTagStop? {name : Text} {c stop : Cursor}
    (h : endTagStop? name c = some stop) : ∃ t, Text.EndsTag name t ∧ c.Leads t stop := by
  simp only [endTagStop?, Option.bind_eq_some_iff, Option.some.injEq] at h
  obtain ⟨c₁, hopen, c₂, hname, _, rfl, c₄, hclose, rfl⟩ := h
  have hlead := (leads_after? hopen).trans (leads_after? hname)
  have hclose := leads_after? hclose
  cases hblank : blankRun.ahead? c₂ with
  | none =>
      rw [hblank, Option.getD_none] at hclose
      refine ⟨_, ⟨[], by simp, ?_⟩, hlead.trans hclose⟩
      simp
  | some c₃ =>
      rw [hblank, Option.getD_some] at hclose
      obtain ⟨x, t, hx, ht, hblanks⟩ := leads_word hblank
      refine ⟨_, ⟨x :: t, ?_, ?_⟩, (hlead.trans hblanks).trans hclose⟩
      · intro y hy
        rcases List.mem_cons.1 hy with rfl | hy
        · exact hx
        · exact ht y hy
      · simp

/-- Where the end tag of a name stands its matcher finds it. -/
theorem isSome_endTagStop? {name t rest : Text} {c : Cursor} (ht : Text.EndsTag name t)
    (hrest : c.rest = t ++ rest) : (endTagStop? name c).isSome = true := by
  obtain ⟨blanks, hblanks, rfl⟩ := ht
  obtain ⟨c₁, hopen, hrest₁⟩ : ∃ c₁, c.after? "</".toList = some c₁ ∧
      c₁.rest = name ++ (blanks ++ '>' :: rest) :=
    ⟨_, after?_eq_some_iff.2 ⟨_, by simpa using hrest, rfl⟩, rfl⟩
  obtain ⟨c₂, hname, hrest₂⟩ : ∃ c₂, c₁.after? name = some c₂ ∧
      c₂.rest = blanks ++ '>' :: rest :=
    ⟨_, after?_eq_some_iff.2 ⟨_, hrest₁, rfl⟩, rfl⟩
  -- the run of white space ends in front of the bracket
  have hstop : ∀ x ∈ ('>' :: rest).head?, Text.isXmlSpace x = false := by
    rintro x ⟨⟩
    decide
  have hrun : (blanks ++ '>' :: rest).takeWhile Text.isXmlSpace = blanks :=
    Text.takeWhile_append_of_stop hblanks hstop
  have hblank : ((blankRun.ahead? c₂).getD c₂).rest = '>' :: rest := by
    cases blanks with
    | nil =>
        have hnone : blankRun.ahead? c₂ = none := by
          simp [blankRun, Pattern.ahead?, Pattern.run1, Pattern.word, hrest₂, hstop '>' rfl]
        rw [hnone]
        exact hrest₂
    | cons x xs =>
        have hx := hblanks x (List.mem_cons_self ..)
        rw [List.cons_append, List.takeWhile_cons_of_pos hx, List.cons.injEq] at hrun
        simp [blankRun, Pattern.ahead?, Pattern.run1, Pattern.word, hrest₂, hx, hrun.2,
          Cursor.advance]
  obtain ⟨c₄, hclose⟩ : ∃ c₄, ((blankRun.ahead? c₂).getD c₂).after? ">".toList = some c₄ :=
    ⟨_, after?_eq_some_iff.2 ⟨_, hblank, rfl⟩⟩
  simp only [endTagStop?, hopen, hname, Option.bind_some, hclose, Option.isSome_some]

/-! ## Start tags -/

/-- A reference is read as the production of its rule. -/
theorem parses_ref_iff {r : Rule} {view : View} {c : Cursor} {verdict : Verdict} :
    (Matcher.ref r).Parses rules view c verdict ↔ (production r).Parses rules view c verdict :=
  (Matcher.parses_ref_iff rfl).trans Matcher.parses_labelled_iff

variable {view view' : View} {c d : Cursor}

/-- White space leads over at least one white character and keeps the map. -/
theorem leads_space (h : (Matcher.ref .space).Parses rules view c (.ends d view')) :
    view' = view ∧ ∃ x t, Text.isXmlSpace x = true ∧ c.Leads (x :: t) d := by
  rw [parses_ref_iff, production, Matcher.parses_pattern_iff, Matcher.ofStop_eq_ends_iff] at h
  obtain ⟨hafter, hview⟩ := h
  obtain ⟨x, t, hx, -, hleads⟩ := leads_word hafter
  exact ⟨hview, x, t, hx, hleads⟩

/-- A name without a colon leads over such a name and keeps the map. -/
theorem leads_ncName (h : (Matcher.ref .ncName).Parses rules view c (.ends d view')) :
    view' = view ∧ ∃ name, Text.IsNcName name ∧ c.Leads name d := by
  rw [parses_ref_iff, production, Matcher.parses_pattern_iff, Matcher.ofStop_eq_ends_iff] at h
  obtain ⟨hafter, hview⟩ := h
  obtain ⟨x, t, hx, ht, hleads⟩ := leads_word hafter
  exact ⟨hview, x :: t, ⟨x, t, rfl, hx, ht⟩, hleads⟩

/-- A qualified name leads over such a name and keeps the map. -/
theorem leads_qName (h : (Matcher.ref .qName).Parses rules view c (.ends d view')) :
    view' = view ∧ ∃ name, Text.IsQName name ∧ c.Leads name d := by
  rw [parses_ref_iff, production] at h
  obtain ⟨c₁, view₁, hlead, h₁⟩ := h.of_sequence_cons
  obtain ⟨c₂, view₂, hcolon, h₂⟩ := h₁.of_sequence_cons
  obtain ⟨c₃, view₃, hname, h₃⟩ := h₂.of_sequence_cons
  rw [Matcher.parses_sequence_nil_iff] at h₃
  cases h₃
  obtain ⟨rfl, lead, hisLead, hleads₁⟩ := leads_ncName hlead
  rw [text, Matcher.parses_literal_iff, Matcher.ofStop_eq_ends_iff] at hcolon
  obtain ⟨hcolon, rfl⟩ := hcolon
  obtain ⟨rfl, name, hisName, hleads₃⟩ := leads_ncName hname
  refine ⟨rfl, lead ++ ':' :: name, ⟨lead, name, hisLead, hisName, rfl⟩, ?_⟩
  exact hleads₁.trans ((leads_after? hcolon).trans hleads₃)

/-- Reading the name of a start tag leaves it in the map. -/
theorem leads_actionName (hpast : c.past = 0)
    (h : (Matcher.ref .actionName).Parses rules view c (.ends d view')) :
    ∃ name, Text.IsQName name ∧ c.Leads name d ∧ view' tagNameKey = some (.text name) ∧
      (Matcher.ref .qName).Parses rules view c (.ends d view) := by
  rw [parses_ref_iff, production, Matcher.parses_hooked_ends_iff] at h
  obtain ⟨view₁, h, hleave⟩ := h
  obtain ⟨c₁, view₂, hqName, h⟩ := h.of_sequence_cons
  rw [Matcher.parses_sequence_nil_iff] at h
  cases h
  obtain ⟨rfl, name, hname, hleads⟩ := leads_qName hqName
  refine ⟨name, hname, hleads, ?_, hqName⟩
  cases hleave
  show (if tagNameKey = tagNameKey then some (Value.text (c.upTo d)) else view₁ tagNameKey) = _
  rw [if_pos rfl, hleads.upTo_eq hpast]

/-- What may stand behind the name of a start tag is set off by white space, and the name stays in
the map. -/
theorem leads_behindName {c₁ : Cursor} {view₁ : View}
    (hattributes : (Matcher.maybe (.ref .actionAttributes)).Parses rules view c (.ends c₁ view₁))
    (hspace : (Matcher.maybe (.ref .space)).Parses rules view₁ c₁ (.ends d view')) :
    ∃ behind, c.Leads behind d ∧ (∀ x ∈ behind.head?, Text.isXmlSpace x = true) ∧
      view' tagNameKey = view tagNameKey := by
  obtain ⟨hkey, t, ht⟩ := keeps_of_respects respects_of_nameless
    (by simp [Matcher.Respects, IsNameless]) hattributes
  rw [Matcher.parses_maybe_iff] at hattributes hspace
  have hblanks : view' = view₁ ∧ ∃ t', c₁.Leads t' d ∧
      ∀ x ∈ t'.head?, Text.isXmlSpace x = true := by
    rcases hspace with ⟨-, heq⟩ | ⟨hspace, -⟩
    · cases heq
      exact ⟨rfl, [], .refl _, by simp⟩
    · obtain ⟨rfl, x, t', hx, hleads⟩ := leads_space hspace
      exact ⟨rfl, x :: t', hleads, by simpa using hx⟩
  obtain ⟨rfl, t', ht', hhead⟩ := hblanks
  rcases hattributes with ⟨-, heq⟩ | ⟨hattributes, -⟩
  · cases heq
    exact ⟨t', ht', hhead, rfl⟩
  · -- the first attribute starts with white space
    refine ⟨t ++ t', ht.trans ht', ?_, hkey⟩
    rw [parses_ref_iff, production] at hattributes
    obtain ⟨c₂, view₂, hattribute⟩ := hattributes.of_many
    rw [parses_ref_iff, production] at hattribute
    obtain ⟨c₃, view₃, hfirst, -⟩ := hattribute.of_sequence_cons
    obtain ⟨-, x, t'', hx, hleads⟩ := leads_space hfirst
    intro y hy
    have hrest : x :: t'' ++ c₃.rest = t ++ t' ++ d.rest := by
      rw [← hleads.rest_eq, ← (ht.trans ht').rest_eq]
    cases hall : t ++ t' with
    | nil =>
        rw [hall] at hy
        cases hy
    | cons z zs =>
        rw [hall, List.cons_append, List.cons_append, List.cons.injEq] at hrest
        rw [hall] at hy
        cases hy
        rw [← hrest.1]
        exact hx

/-- The start of a tag is an angle bracket, a name and what is set off from it. The name stays in
the map, and the rule for names reads it. -/
theorem parts_of_actionStart (hpast : c.past = 0)
    (h : (rule .actionStart).Parses rules view c (.ends d view')) :
    ∃ c₁ c₂ name behind, c.Leads ['<'] c₁ ∧ c₁.Leads name c₂ ∧ c₂.Leads behind d ∧
      Text.IsQName name ∧ (∀ x ∈ behind.head?, Text.isXmlSpace x = true) ∧
      view' tagNameKey = some (.text name) ∧
      ∃ view₁, (Matcher.ref .qName).Parses rules view₁ c₁ (.ends c₂ view₁) := by
  rw [rule, Matcher.parses_labelled_iff, production, Matcher.parses_hooked_ends_iff] at h
  obtain ⟨view₀, h, hleave⟩ := h
  cases hleave
  obtain ⟨c₁, view₁, hbracket, h⟩ := h.of_sequence_cons
  obtain ⟨c₂, view₂, hname, h⟩ := h.of_sequence_cons
  obtain ⟨c₃, view₃, hattributes, h⟩ := h.of_sequence_cons
  obtain ⟨c₄, view₄, hspace, h⟩ := h.of_sequence_cons
  rw [Matcher.parses_sequence_nil_iff] at h
  cases h
  rw [parses_ref_iff, production, Matcher.parses_pattern_iff, Matcher.ofStop_eq_ends_iff]
    at hbracket
  have hleads₁ := leads_textBefore (by decide) hbracket.1
  obtain ⟨name, hname, hleads₂, hkey, hqName⟩ := leads_actionName (hleads₁.past_eq hpast) hname
  obtain ⟨behind, hleads₄, hhead, hkey'⟩ := leads_behindName hattributes hspace
  exact ⟨c₁, c₂, name, behind, hleads₁, hleads₂, hleads₄, hname, hhead, hkey'.trans hkey, _,
    hqName⟩

/-- Reading the start of a tag leaves its name in the map. -/
theorem leads_actionStart (hpast : c.past = 0)
    (h : (rule .actionStart).Parses rules view c (.ends d view')) :
    ∃ name t, Text.OpensTag name t ∧ c.Leads t d ∧ view' tagNameKey = some (.text name) := by
  obtain ⟨c₁, c₂, name, behind, hleads₁, hleads₂, hleads₃, hname, hhead, hkey, -⟩ :=
    parts_of_actionStart hpast h
  refine ⟨name, '<' :: (name ++ behind), ⟨hname, behind, rfl, hhead⟩, ?_, hkey⟩
  exact hleads₁.trans (hleads₂.trans hleads₃)

end Jsp

end Stencil
