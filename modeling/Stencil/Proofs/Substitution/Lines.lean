import Stencil.Proofs.Placeholder.Lines
import Stencil.Proofs.Restoration.Roundtrip
import Stencil.Proofs.Token.Delimiting

/-!
# Masking and line breaks

A placeholder stands over the line breaks of its construct, so a masked text has the lines of its
source, with one exception: where a line of a construct gives all its characters to the lines around
it, and stands between a carriage return alone and a line feed alone, these become one line break.
Constructs and placeholders neither start with a line feed nor end with a carriage return, so the
line breaks of a text are those of its pieces.
-/

set_option autoImplicit false

namespace Stencil

open Placeholder

/-- The line breaks of a segment that are lost when it is masked. -/
def Segment.lostBreaks (s : Segment) : Nat := Text.breaks s.unmasked - Text.breaks s.shown

/-- No line break runs over the ends of a construct. -/
theorem Text.Delimited.apart {t : Text} (h : t.Delimited) : t.Apart := by
  obtain ⟨⟨c, rest, hfirst, hc⟩, ⟨front, d, hlast, hd⟩⟩ := h
  constructor
  · refine ⟨c, by rw [hfirst, List.head?_cons], ?_⟩
    rintro rfl
    cases hc
  · refine ⟨d, by rw [hlast, List.getLast?_concat], ?_⟩
    rintro rfl
    cases hd

/-- No line break runs over the ends of a placeholder. -/
theorem Placed.apart {number : Nat} {r : Record} {braced braced' : List Bool} {f : Found}
    (h : Placed number r braced f braced') : f.text.Apart := by
  cases h with
  | comment hkind hcore =>
      rw [Found.text_core]
      exact hcore.elim IsComment.apart IsLineComment.apart
  | identifier hkind hcore htrail hnumber =>
      rw [Found.text_trail]
      rcases htrail with rfl | htrail
      · rw [List.append_nil]
        exact hcore.apart
      · exact hcore.apart.append htrail.apart
  | opening hkind hform hbuilt => exact hform.apart
  | @closing isBraced _ core hkind hcore =>
      rw [Found.text_lead]
      cases isBraced with
      | false => exact hcore.apart
      | true => exact (Text.apart_singleton (by decide)).append hcore.apart

namespace Masked

/-- Every placeholder is the layout of its construct, filled. -/
theorem exists_fill_of_placeholder {source : Text} {settings : Settings} {t : Token}
    {family : Family} {number : Nat} {braced braced' : List Bool} {p : Text}
    (h : placeholder source settings t family number braced = .ok (p, braced')) :
    ∃ s : Shape, s.IsPlain ∧ (Layout.of t.value).fill s = some p := by
  cases built_of_placeholder h with
  | comment hbuilt => exact exists_fill_of_comment hbuilt
  | identifier hbuilt =>
      exact exists_fill_of_identifier (fun c hc => isLabelChar_of_mem_identifierLabel hc) hbuilt
  | opening hbuilt => exact exists_fill_of_opening hbuilt
  | closing _ hbuilt => exact exists_fill_of_closing hbuilt

section Masks

variable {source : Text} {settings : Settings} {ts : List Token} {number : Nat}
  {braced : List Bool} {segments : List Segment}

/-- Each placeholder fills the layout of its construct with a plain shape. -/
theorem Masks.exists_fill (h : Masks source settings ts number braced segments) {p : Text}
    {r : Record} (hmem : .construct p r ∈ segments) :
    ∃ s : Shape, s.IsPlain ∧ (Layout.of r.construct).fill s = some p := by
  induction h with
  | nil => cases hmem
  | template hkind hplain hrest ih =>
      rcases List.mem_cons.1 hmem with heq | hmem
      · cases heq
      · exact ih hmem
  | construct hkind hplaced hrest ih =>
      rcases List.mem_cons.1 hmem with heq | hmem
      · cases heq
        exact exists_fill_of_placeholder hplaced
      · exact ih hmem

/-- Line breaks get lost inside of placeholders only: none runs over the ends of a construct or of
its placeholder. -/
theorem Masks.breaksFrom_shown (h : Masks source settings ts number braced segments)
    (hdelimited : ∀ t ∈ ts, t.kind ≠ .templateText → t.value.Delimited) (behindReturn : Bool) :
    Text.breaksFrom behindReturn (segments.flatMap Segment.shown) +
        (segments.map Segment.lostBreaks).sum =
      Text.breaksFrom behindReturn (segments.flatMap Segment.unmasked) := by
  induction h generalizing behindReturn with
  | nil => rfl
  | @template t ts number braced segments hkind hplain hrest ih =>
      obtain ⟨-, hdelimited⟩ := List.forall_mem_cons.1 hdelimited
      have hlost : (Segment.template t.value).lostBreaks = 0 := Nat.sub_self _
      rw [List.flatMap_cons, List.flatMap_cons, List.map_cons, List.sum_cons, hlost,
        Segment.shown, Segment.unmasked, Text.breaksFrom_append, Text.breaksFrom_append,
        ← ih hdelimited]
      omega
  | @construct t ts number braced braced' segments family p hkind hplaced hrest ih =>
      obtain ⟨hconstruct, hdelimited⟩ := List.forall_mem_cons.1 hdelimited
      have hsource := (hconstruct (Kind.ne_templateText hkind)).apart
      obtain ⟨-, f, rfl, hput⟩ := placeholder_spec hkind hplaced
      obtain ⟨s, hs, hfill⟩ := exists_fill_of_placeholder hplaced
      have hkept := Layout.breaks_of_fill hs hfill
      have hlost : (Segment.construct f.text ⟨t.value, t.kind⟩).lostBreaks =
          Text.breaks t.value - Text.breaks f.text := rfl
      rw [List.flatMap_cons, List.flatMap_cons, List.map_cons, List.sum_cons, hlost,
        Segment.shown, Segment.unmasked, hput.apart.breaksFrom_append, hsource.breaksFrom_append,
        ← ih hdelimited]
      omega

end Masks

/-- How many line breaks a masked text has. Each placeholder has those of its construct but the ones
that become one with the line break in front of them, because the line between them stands empty
there; it has all of them if no line of the construct that is not indented stands between a carriage
return alone and a line feed alone. What the placeholders lack is all that the text lacks, so it has
never more line breaks than its source, and as many if and only if every placeholder has those of
its construct. -/
theorem breaks_of_ofSource {source : Text} {settings : Settings} {file : Option String}
    {m : Masked} (h : ofSource source settings file = .ok m) :
    (∀ p r, .construct p r ∈ m.segments → ∃ s : Shape, (Layout.of r.construct).fill s = some p ∧
      Text.breaks p + (Layout.of r.construct).fused ((Layout.of r.construct).filledWidths s) =
        Text.breaks r.construct) ∧
    (∀ p r, .construct p r ∈ m.segments → Layout.KeepsBreaks (Layout.of r.construct).later →
      Text.breaks p = Text.breaks r.construct) ∧
    Text.breaks m.text + (m.segments.map Segment.lostBreaks).sum = Text.breaks source ∧
    (Text.breaks m.text = Text.breaks source ↔
      ∀ p r, .construct p r ∈ m.segments → Text.breaks p = Text.breaks r.construct) := by
  obtain ⟨tokens, hcomplete, hmasks⟩ := masks_of_ofSource h
  have hfilled : ∀ p r, .construct p r ∈ m.segments → ∃ s : Shape,
      (Layout.of r.construct).fill s = some p ∧
      Text.breaks p + (Layout.of r.construct).fused ((Layout.of r.construct).filledWidths s) =
        Text.breaks r.construct := by
    intro p r hmem
    obtain ⟨s, hs, hfill⟩ := hmasks.exists_fill hmem
    exact ⟨s, hfill, Layout.breaks_of_fill hs hfill⟩
  have htext : Text.breaks m.text + (m.segments.map Segment.lostBreaks).sum =
      Text.breaks source := by
    have hshown := hmasks.breaksFrom_shown (TokenStream.delimited_of_complete hcomplete) false
    rw [hmasks.unmasked, TokenStream.flatMap_value_of_complete hcomplete] at hshown
    rw [Text.breaks_eq_breaksFrom, Text.breaks_eq_breaksFrom]
    exact hshown
  refine ⟨hfilled, fun p r hmem hkeeps => ?_, htext, ?_⟩
  · obtain ⟨s, -, hbreaks⟩ := hfilled p r hmem
    rw [← hbreaks, Layout.fused_eq_zero hkeeps, Nat.add_zero]
  · have hnone : Text.breaks m.text = Text.breaks source ↔
        ∀ s ∈ m.segments, s.lostBreaks = 0 := by
      rw [← List.forall_mem_map (P := (· = 0)), ← List.sum_eq_zero_iff_forall_eq_nat, ← htext]
      omega
    rw [hnone]
    constructor
    · intro hlost p r hmem
      obtain ⟨s, -, hbreaks⟩ := hfilled p r hmem
      have hzero : Text.breaks r.construct - Text.breaks p = 0 := hlost _ hmem
      omega
    · intro hkept s hmem
      cases s with
      | template t => exact Nat.sub_self _
      | construct p r =>
          show Text.breaks r.construct - Text.breaks p = 0
          rw [hkept p r hmem, Nat.sub_self]

/-- An indented line between a carriage return and a line feed, and a tag with a line break of
both. -/
theorem breaks_of_ofSource_of_indented :
    let source := "<%=\r a\nb%>\n<a:b\r\n c='1'>x</a:b>".toList
    let p := "ʾʿ/*\r \nʿ*/".toList
    let expression : Record := ⟨"<%=\r a\nb%>".toList, .expression⟩
    let m : Masked := ⟨[.construct p expression, .template ['\n'],
      .construct "\x7b/*ʃ\r\n ʃʃʃʃ*/".toList ⟨"<a:b\r\n c='1'>".toList, .startTag⟩,
      .template ['x'], .construct "\x7d/*ʅ*/".toList ⟨"</a:b>".toList, .endTag⟩]⟩
    ofSource source {} none = .ok m ∧ Layout.KeepsBreaks (Layout.of expression.construct).later ∧
      Text.breaks p = Text.breaks expression.construct ∧
      Text.breaks m.text + (m.segments.map Segment.lostBreaks).sum = Text.breaks source := by
  intro source p expression m
  have hmasked : ofSource source {} none = .ok m := by
    decide +kernel
  have hlater : (Layout.of expression.construct).later =
      [⟨['\r'], [' '], 1⟩, ⟨['\n'], [], 3⟩] := by
    decide +kernel
  have hkeeps : Layout.KeepsBreaks (Layout.of expression.construct).later := by
    rw [hlater]
    exact List.isChain_pair.2 nofun
  obtain ⟨-, hkept, htext, -⟩ := breaks_of_ofSource hmasked
  exact ⟨hmasked, hkeeps, hkept p expression (List.mem_cons_self ..) hkeeps, htext⟩

/-- An expression of three lines whose placeholder has two: the second line gives its only character
to the first one. -/
theorem breaks_lost_in_expression :
    let source := "<%=\ra\nb%>".toList
    let p := "ʾʿ/*\r\nʿ*/".toList
    let m : Masked := ⟨[.construct p ⟨source, .expression⟩]⟩
    ofSource source {} none = .ok m ∧ Text.breaks p = 1 ∧ Text.breaks source = 2 := by
  decide +kernel

end Masked

end Stencil
