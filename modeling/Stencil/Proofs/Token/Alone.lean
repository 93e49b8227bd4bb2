import Stencil.Proofs.Jsp.Cutting
import Stencil.Proofs.Token.Running

/-!
# A token alone

The text of a token is a page of its own, which holds this token and nothing else. Only start tags
and end tags need what stands around them. Nothing that stood behind a construct is missed, since
the rules for constructs survive the cut; nothing that starts in the page starts where there was
template text, since a construct that starts with a text starts with every longer one; and nothing
that stood in front of the token mattered but the switch of the expression language.
-/

set_option autoImplicit false

namespace Stencil

open Jsp (Construct Rule delimits endTagStop? startsConstruct templateRun)

/-! ## Names of tags -/

namespace Text

/-- No white space stands in a name. -/
theorem not_space_of_isNcNameChar {x : Char} (h : isNcNameChar x = true) :
    isXmlSpace x = false := by
  have hle : 0x2d ≤ x.toNat := by
    simp only [isNcNameChar, ncNameCharRanges, ncNameStartRanges, letterRanges, digitRanges,
      combiningRanges, extenderRanges, CodeRanges.has, List.cons_append, List.nil_append,
      List.any_cons, List.any_nil, Bool.or_false, Bool.or_eq_true, Bool.and_eq_true,
      decide_eq_true_eq] at h
    omega
  rw [← Bool.not_eq_true]
  intro hspace
  simp only [isXmlSpace, xmlSpaceRanges, CodeRanges.has, List.any_cons, List.any_nil,
    Bool.or_false, Bool.or_eq_true, Bool.and_eq_true, decide_eq_true_eq] at hspace
  omega

/-- A name has no white space. -/
theorem IsNcName.not_space {name : Text} (h : name.IsNcName) :
    ∀ x ∈ name, isXmlSpace x = false := by
  obtain ⟨c, rest, rfl, hc, hrest⟩ := h
  exact List.forall_mem_cons.2 ⟨not_space_of_isNcNameChar (isNcNameChar_of_isNcNameStart hc),
    fun x hx => not_space_of_isNcNameChar (hrest x hx)⟩

/-- A qualified name has no white space. -/
theorem IsQName.not_space {name : Text} (h : name.IsQName) :
    ∀ x ∈ name, isXmlSpace x = false := by
  obtain ⟨lead, name, hlead, hname, rfl⟩ := h
  rw [List.forall_mem_append, List.forall_mem_cons]
  exact ⟨hlead.not_space, by decide, hname.not_space⟩

/-- A qualified name is not empty. -/
theorem IsQName.ne_nil {name : Text} (h : name.IsQName) : name ≠ [] := by
  obtain ⟨lead, name, -, -, rfl⟩ := h
  simp

/-- The name of a start tag is what stands in front of white space. -/
theorem OpensTag.name_eq {name t : Text} (h : OpensTag name t) :
    name = (t.drop 1).takeWhile fun x => !isXmlSpace x := by
  obtain ⟨hname, behind, rfl, hbehind⟩ := h
  have hchars : ∀ x ∈ name, (!isXmlSpace x) = true := fun x hx => by
    simp [hname.not_space x hx]
  have hstop : ∀ x ∈ behind.head?, (!isXmlSpace x) = false := fun x hx => by
    simp [hbehind x hx]
  rw [List.drop_one, List.tail_cons, takeWhile_append_of_stop hchars hstop]

end Text

namespace Page

variable {file : Option String} {n : Int} {p : Page} {view view' : View} {c c' : Cursor}

/-! ## Constructs -/

/-- Where a sequence stands that starts with a delimiter the delimiter does. -/
theorem delimits_of_sequence {r : Rule} (hr : r ∈ Jsp.delimiters) {ms : List Jsp.Production}
    {stop : Cursor} {left : View}
    (h : (Matcher.sequence (.ref r :: ms)).Parses Jsp.rules view c (.ends stop left)) :
    delimits (Jsp.elEnabled.holds view) c.rest r = true := by
  obtain ⟨c₁, view₁, hfirst, -⟩ := h.of_sequence_cons
  have hstands := Jsp.stands_delimiter hr view c
  by_contra hnot
  rw [Jsp.Stands, if_neg hnot, Jsp.rule, Matcher.parses_labelled_iff, ← Jsp.parses_ref_iff]
    at hstands
  cases hfirst.unique hstands

/-- Where a construct stands as a whole its delimiter does. -/
theorem delimits_of_whole {e : Construct Rule} (he : e ∈ Jsp.constructs) {stop : Cursor}
    {left : View} (h : (Jsp.rule e.whole).Parses Jsp.rules view c (.ends stop left)) :
    delimits (Jsp.elEnabled.holds view) c.rest e.delimiter = true := by
  rw [Jsp.rule, Matcher.parses_labelled_iff] at h
  simp only [Jsp.constructs, List.mem_cons, List.not_mem_nil, or_false] at he
  rcases he with rfl | rfl | rfl | rfl | rfl | rfl | rfl
  · exact delimits_of_sequence (by decide) h
  · exact delimits_of_sequence (by decide) h
  · exact delimits_of_sequence (by decide) h
  · exact delimits_of_sequence (by decide) h
  · exact delimits_of_sequence (by decide) h
  · exact delimits_of_sequence (by decide) h.of_when
  · have hsequence : (Matcher.sequence [.ref .portletNamespace]).Parses Jsp.rules view c
        (.ends stop left) := by
      rw [Matcher.parses_sequence_singleton_iff, Jsp.parses_ref_iff]
      exact h
    exact delimits_of_sequence (by decide) hsequence

/-- The first construct whose delimiter stands at a text is the first one at what is left of it, as
long as its delimiter is. -/
theorem construct?_of_append {el : Bool} {t w : Text} {e : Construct Rule}
    (h : construct? el (t ++ w) = some e) (hdelimits : delimits el t e.delimiter = true) :
    construct? el t = some e := by
  rw [construct?, List.find?_eq_some_iff_append] at h ⊢
  obtain ⟨-, before, after, hsplit, hbefore⟩ := h
  refine ⟨hdelimits, before, after, hsplit, fun a ha => ?_⟩
  have hnot := hbefore a ha
  simp only [Bool.not_eq_true'] at hnot ⊢
  rw [← Bool.not_eq_true] at hnot ⊢
  exact fun hd => hnot (Jsp.delimits_append hd w)

/-- Where no construct stands with more text behind, none stands without. -/
theorem construct?_none_of_append {el : Bool} {t w : Text}
    (h : construct? el (t ++ w) = none) : construct? el t = none := by
  rw [construct?, List.find?_eq_none] at h ⊢
  exact fun e he hd => h e he (Jsp.delimits_append hd w)

/-- A construct that stands at a place is seen there. -/
theorem Sees.of_construct {openTags : List OpenTag} {result : Except LexFailure Sighting}
    (h : p.Sees view openTags c result) {e : Construct Rule} {stop : Cursor} {left : View}
    (hfirst : construct? (Jsp.elEnabled.holds view) c.rest = some e)
    (hparses : (Jsp.rule e.whole).Parses Jsp.rules view c (.ends stop left)) :
    ∃ s, result = .ok s ∧ s.kind = e.kind ∧ s.stop = stop ∧ s.openTags = openTags := by
  cases h with
  | construct hfirst' hkind hparses' hopen =>
      rw [hfirst] at hfirst'
      cases hfirst'
      cases hparses.unique hparses'
      exact ⟨_, rfl, hkind, rfl, hopen⟩
  | brokenConstruct hfirst' hbroken =>
      rw [hfirst] at hfirst'
      cases hfirst'
      exact absurd hparses (hbroken stop left)
  | endTag hnone =>
      rw [hfirst] at hnone
      cases hnone
  | strayEndTag hnone | brokenEndTag hnone | brokenStartTag hnone | templateText hnone =>
      have hnone := hnone.construct
      rw [hfirst] at hnone
      cases hnone
  | unendedStartTag hstarts | emptyTag hstarts | closedTag hstarts | startTag _ hstarts =>
      have hnone := hstarts.construct
      rw [hfirst] at hnone
      cases hnone

/-! ## Empty tags -/

/-- Where the start of a tag is read, its delimiter stands. -/
theorem delimits_of_actionStart {el : Bool} {stop : Cursor} {left : View}
    (h : (Jsp.rule .actionStart).Parses Jsp.rules view c (.ends stop left)) :
    delimits el c.rest .actionStartDelimiter = true := by
  rw [Jsp.rule, Matcher.parses_labelled_iff, Jsp.production, Matcher.parses_hooked_ends_iff] at h
  obtain ⟨view₁, h, -⟩ := h
  exact delimits_of_sequence (by decide) h

/-- How an empty tag ends behind its name and attributes: with a slash, or with its end tag. -/
inductive EmptyEnd (name : Text) (named : Cursor) : Cursor → Prop
  | slash {stop : Cursor} (h : named.after? "/>".toList = some stop) : EmptyEnd name named stop
  | endTag {body stop : Cursor} (hslash : named.after? "/>".toList = none)
      (hbody : named.after? ">".toList = some body) (hstop : endTagStop? name body = some stop) :
      EmptyEnd name named stop

/-- An empty tag ends at one place. -/
theorem EmptyEnd.unique {name : Text} {named stop stop' : Cursor} (h : EmptyEnd name named stop)
    (h' : EmptyEnd name named stop') : stop = stop' := by
  cases h with
  | slash h =>
      cases h' with
      | slash h' => exact Option.some.inj (h.symm.trans h')
      | endTag hslash =>
          rw [h] at hslash
          cases hslash
  | endTag hslash hbody hstop =>
      cases h' with
      | slash h' =>
          rw [hslash] at h'
          cases h'
      | endTag _ hbody' hstop' =>
          rw [hbody] at hbody'
          cases hbody'
          exact Option.some.inj (hstop.symm.trans hstop')

/-- An empty tag that stands where no tag is open is seen there. -/
theorem Sees.of_emptyTag {result : Except LexFailure Sighting} (h : p.Sees view [] c result)
    (hnone : construct? (Jsp.elEnabled.holds view) c.rest = none)
    (hnoEnd : delimits (Jsp.elEnabled.holds view) c.rest .actionEndDelimiter = false)
    {named stop : Cursor} {left : View} {name : Text}
    (hparses : (Jsp.rule .actionStart).Parses Jsp.rules view c (.ends named left))
    (hname : left Jsp.tagNameKey = some (.text name)) (hend : EmptyEnd name named stop) :
    ∃ s, result = .ok s ∧ s.kind = .emptyTag ∧ s.stop = stop ∧ s.openTags = [] := by
  have hsame {name' : Text} {named' : Cursor} (hstarts : Starts view [] c name' named') :
      name = name' ∧ named = named' := by
    obtain ⟨left', hparses', hname'⟩ := hstarts.parses
    cases hparses.unique hparses'
    rw [hname] at hname'
    cases hname'
    exact ⟨rfl, rfl⟩
  cases h with
  | construct hfirst | brokenConstruct hfirst =>
      rw [hnone] at hfirst
      cases hfirst
  | endTag _ _ hopen => cases hopen
  | strayEndTag _ hends | brokenEndTag _ hends =>
      rw [hnoEnd] at hends
      cases hends
  | brokenStartTag _ _ hbroken => exact absurd hparses (hbroken named left)
  | unendedStartTag hstarts hslash hbracket =>
      obtain ⟨rfl, rfl⟩ := hsame hstarts
      cases hend with
      | slash h =>
          rw [h] at hslash
          cases hslash
      | endTag _ hbody =>
          rw [hbody] at hbracket
          cases hbracket
  | emptyTag hstarts hslash hkind hopen =>
      obtain ⟨rfl, rfl⟩ := hsame hstarts
      exact ⟨_, rfl, hkind, (EmptyEnd.slash hslash).unique hend, hopen⟩
  | closedTag hstarts hslash hbody hstop hkind hopen =>
      obtain ⟨rfl, rfl⟩ := hsame hstarts
      exact ⟨_, rfl, hkind, (EmptyEnd.endTag hslash hbody hstop).unique hend, hopen⟩
  | startTag _ hstarts hslash hbody hnot =>
      obtain ⟨rfl, rfl⟩ := hsame hstarts
      cases hend with
      | slash h =>
          rw [h] at hslash
          cases hslash
      | endTag _ hbody' hstop =>
          rw [hbody] at hbody'
          cases hbody'
          rw [hnot] at hstop
          cases hstop
  | templateText _ hnot =>
      have hdelimits : delimits (Jsp.elEnabled.holds view) c.rest .actionStartDelimiter = true :=
        delimits_of_actionStart hparses
      rw [Jsp.startsConstruct_of_delimits hdelimits] at hnot
      cases hnot

/-! ## Template text -/

/-- Template text that stands where no tag is open is seen there. -/
theorem Sees.of_no_construct {result : Except LexFailure Sighting} (h : p.Sees view [] c result)
    (hnot : startsConstruct (Jsp.elEnabled.holds view) false c.rest = false) :
    ∃ s, result = .ok s ∧ s.kind = .templateText ∧
      c.Leads (templateRun (Jsp.elEnabled.holds view) false c.rest) s.stop ∧ s.openTags = [] := by
  have hnone {r : Rule} (hdelimits : delimits (Jsp.elEnabled.holds view) c.rest r = true) :
      False := by
    rw [Jsp.startsConstruct_of_delimits hdelimits] at hnot
    cases hnot
  cases h with
  | construct hfirst | brokenConstruct hfirst =>
      have hdelimits := List.find?_some hfirst
      exact (hnone hdelimits).elim
  | endTag _ _ hopen => cases hopen
  | strayEndTag _ hends | brokenEndTag _ hends => exact (hnone hends).elim
  | brokenStartTag _ hstart => exact (hnone hstart).elim
  | unendedStartTag hstarts | emptyTag hstarts | closedTag hstarts | startTag _ hstarts =>
      exact (hnone hstarts.start).elim
  | templateText _ _ hkind hleads hopen => exact ⟨_, rfl, hkind, hleads, hopen⟩

end Page

/-- Where no construct starts with more text behind, none starts without. -/
theorem Jsp.not_startsConstruct_of_append {el escaped : Bool} {t w : Text}
    (h : startsConstruct el escaped (t ++ w) = false) : startsConstruct el escaped t = false := by
  rw [← Bool.not_eq_true] at h ⊢
  exact fun hstarts => h (Jsp.startsConstruct_append hstarts w)

/-- A run of template text is template text as a whole. -/
theorem Jsp.templateRun_templateRun (el escaped : Bool) (t : Text) :
    templateRun el escaped (templateRun el escaped t) = templateRun el escaped t := by
  induction t generalizing escaped with
  | nil => rfl
  | cons x t ih =>
      by_cases hstarts : startsConstruct el escaped (x :: t) = true
      · rw [Jsp.templateRun_of_starts hstarts]
        rfl
      · have hstarts : startsConstruct el escaped (x :: t) = false := by simpa using hstarts
        obtain ⟨rest, hsplit, -⟩ := Jsp.exists_templateRun_append el (x == '\\') t
        rw [Jsp.templateRun_cons hstarts, Jsp.templateRun_cons, ih]
        apply Jsp.not_startsConstruct_of_append (w := rest)
        rw [List.cons_append, ← hsplit]
        exact hstarts

namespace Page

variable {file : Option String} {n : Int} {p p' : Page} {view view' : View} {c : Cursor}
  {openTags : List OpenTag} {s : Sighting} {t : Text}

/-! ## What is seen of a token alone -/

/-- What ends an empty tag is not taken for an attribute. -/
theorem EmptyEnd.leads {name : Text} {named stop : Cursor} (h : EmptyEnd name named stop) :
    ∃ ending, Jsp.EndsTag ending ∧ named.Leads ending stop := by
  cases h with
  | slash h => exact ⟨_, by simp [Jsp.EndsTag]; decide, Cursor.leads_after? h⟩
  | endTag _ hbody hstop =>
      obtain ⟨ending, -, hleads⟩ := Jsp.endsTag_of_endTagStop? hstop
      exact ⟨_, by simp [Jsp.EndsTag]; decide, (Cursor.leads_after? hbody).trans hleads⟩

/-- An empty tag ends where it did if the page is cut off behind it. -/
theorem EmptyEnd.survives {w : Text} {name : Text} {named named' stop : Cursor}
    (nonempty : name ≠ []) (h : EmptyEnd name named stop) (hstop : stop.rest = w)
    (hat : (Jsp.trim false w).At named named') :
    ∃ stop', EmptyEnd name named' stop' ∧ stop'.rest = [] := by
  cases h with
  | slash h =>
      obtain ⟨stop', hstop', hleads, -⟩ := hat.leads (r := []) (Cursor.leads_after? h) hstop
      exact ⟨stop', .slash (Cursor.after?_of_leads hat.past_eq' hleads), hstop'⟩
  | @endTag body stop hslash hbody hclose =>
      have hparses : (Jsp.closer name nonempty (Jsp.rule .space)).Parses Jsp.rules (fun _ => none)
          body (.ends stop fun _ => none) :=
        (Jsp.readsAs_closer name nonempty).parses_ends_iff.2 ⟨hclose, rfl⟩
      obtain ⟨ending, hending, hleads⟩ := Jsp.endsTag_of_endTagStop? hclose
      have hrest : body.rest = ending ++ w := by rw [hleads.rest_eq, hstop]
      obtain ⟨body', hbody', hleads', hat'⟩ := hat.leads (Cursor.leads_after? hbody) hrest
      have halike : Jsp.Alike false (fun _ => none) (fun _ => none) := ⟨rfl, nofun⟩
      obtain ⟨stop', left', hstop', -, -, hparses'⟩ := Jsp.survives_closer name nonempty halike
        hat' (Nat.le_refl _) hparses (r := []) hstop trivial
      have hclose' := ((Jsp.readsAs_closer name nonempty).parses_ends_iff.1 hparses').1
      have hslash' : named'.after? "/>".toList = none := by
        rw [← Option.not_isSome_iff_eq_none, Jsp.isSome_after?, hleads'.rest_eq]
        simp
      exact ⟨stop', .endTag hslash' (Cursor.after?_of_leads hat.past_eq' hleads') hclose', hstop'⟩

/-- What is seen of a token in a page is seen of the token alone, start tags and end tags apart. -/
theorem Sees.alone (h : p.Sees view openTags c (.ok s))
    (hkind : s.kind ≠ .startTag ∧ s.kind ≠ .endTag) (hpast : c.past = 0) (hleads : c.Leads t s.stop)
    (hlast : s.kind ≠ .templateText → ∀ x ∈ t.getLast?, Text.closesConstruct x = true)
    (hel : Jsp.elEnabled.holds view' = Jsp.elEnabled.holds view)
    {result : Except LexFailure Sighting} (h' : p'.Sees view' [] ⟨[], t, 0⟩ result) :
    ∃ s', result = .ok s' ∧ s'.kind = s.kind ∧ s'.stop.rest = [] ∧ s'.openTags = [] := by
  have halike : Jsp.Alike false view view' := ⟨hel, nofun⟩
  have hat (hkind' : s.kind ≠ .templateText) : (Jsp.trim false s.stop.rest).At c ⟨[], t, 0⟩ :=
    ⟨hleads.rest_eq, hpast, rfl, hlast hkind'⟩
  have hempty {name : Text} {named : Cursor} (hkind' : s.kind = .emptyTag)
      (hstarts : Starts view openTags c name named) (hend : EmptyEnd name named s.stop) :
      ∃ s', result = .ok s' ∧ s'.kind = s.kind ∧ s'.stop.rest = [] ∧ s'.openTags = [] := by
    obtain ⟨left, hparses, hname⟩ := hstarts.parses
    obtain ⟨ending, hending, hleadsEnd⟩ := hend.leads
    have hrest : named.rest = ending ++ s.stop.rest := hleadsEnd.rest_eq
    obtain ⟨named', left', -, hat', -, hparses'⟩ := Jsp.survives_actionStart halike
      (hat (by simp [hkind'])) (Nat.le_refl _) hparses hrest hending
    -- the name is the same, since it stands in the same text
    obtain ⟨name₁, opening, hopens, hleads₁, hname₁⟩ := Jsp.leads_actionStart hpast hparses
    obtain ⟨name₂, opening', hopens', hleads₂, hname₂⟩ := Jsp.leads_actionStart rfl hparses'
    have hopening : opening = opening' :=
      (hat (by simp [hkind'])).text_eq hat' hleads₁ hleads₂
    have hnames : name₂ = name := by
      rw [hname] at hname₁
      cases hname₁
      rw [hopens'.name_eq, ← hopening, ← hopens.name_eq]
    rw [hnames] at hname₂ hopens'
    obtain ⟨stop', hend', hstop'⟩ := hend.survives hopens'.1.ne_nil rfl hat'
    have hnone := hstarts.construct
    have hnoEnd := hstarts.noEnd
    rw [hleads.rest_eq, ← hel] at hnone hnoEnd
    have hnoEnd' : delimits (Jsp.elEnabled.holds view') t .actionEndDelimiter = false := by
      rw [← Bool.not_eq_true] at hnoEnd ⊢
      exact fun hd => hnoEnd (Jsp.delimits_append hd _)
    obtain ⟨s', hok, hkind'', hstop'', hopen'⟩ :=
      h'.of_emptyTag (construct?_none_of_append hnone) hnoEnd' hparses' hname₂ hend'
    exact ⟨s', hok, hkind''.trans hkind'.symm, hstop'' ▸ hstop', hopen'⟩
  cases h with
  | endTag _ hkind' => exact absurd hkind' hkind.2
  | startTag _ _ _ _ _ hkind' => exact absurd hkind' hkind.1
  | emptyTag hstarts hslash hkind' => exact hempty hkind' hstarts (.slash hslash)
  | closedTag hstarts hslash hbody hstop hkind' =>
      exact hempty hkind' hstarts (.endTag hslash hbody hstop)
  | @construct e s hfirst hkind' hparses hopen =>
      have hmem := List.mem_of_find?_eq_some hfirst
      have hnot : s.kind ≠ .templateText := hkind' ▸ kind_of_construct? hfirst
      obtain ⟨stop', left', hstop', -, -, hparses'⟩ := Jsp.survives_construct hmem halike
        (hat hnot) (Nat.le_refl _) hparses (r := []) rfl trivial
      have hdelimits := delimits_of_whole hmem hparses'
      rw [hleads.rest_eq, ← hel] at hfirst
      obtain ⟨s', hok, hkind'', hstop'', hopen'⟩ :=
        h'.of_construct (construct?_of_append hfirst hdelimits) hparses'
      exact ⟨s', hok, hkind''.trans hkind'.symm, hstop'' ▸ hstop', hopen'⟩
  | templateText hnone hnot hkind' hleads' =>
      have ht := hleads.unique hleads'
      rw [hleads.rest_eq, ← hel] at hnot
      obtain ⟨s', hok, hkind'', hrun, hopen'⟩ :=
        h'.of_no_construct (Jsp.not_startsConstruct_of_append hnot)
      rw [ht, hel, Jsp.templateRun_templateRun, ← ht] at hrun
      refine ⟨s', hok, hkind''.trans hkind'.symm, ?_, hopen'⟩
      have hrest : t = t ++ s'.stop.rest := hrun.rest_eq
      simpa using hrest

end Page

namespace TokenStream

/-- A page starts with the switch that it is given. -/
theorem elEnabled_start (source : Text) (el : Bool) : (start source el).elEnabled = el := by
  cases el <;> rfl

/-- A page at whose start one token is seen that takes all of it holds just this token. -/
theorem complete_of_sees {t : Text} {el : Bool} {kind : Kind} (nonempty : t ≠ [])
    (settings : Settings) (file : Option String)
    (h : ∀ result, (Page.standard t file settings.excerptLength).Sees (start t el).store.view []
      ⟨[], t, 0⟩ result →
        ∃ s, result = .ok s ∧ s.kind = kind ∧ s.stop.rest = [] ∧ s.openTags = []) :
    (ofSource t settings file (some el)).complete = .ok [⟨kind, t, 0⟩] := by
  obtain ⟨q, hcuts, hstops⟩ := exists_cuts t settings file (some el)
  have hcuts : (Page.standard t file settings.excerptLength).Cuts (start t el)
      (ofSource t settings file (some el)).tokens q := hcuts
  have hsteady := steady_start t el
  cases htokens : (ofSource t settings file (some el)).tokens with
  | nil =>
      -- the first step neither fails nor is there nothing to do
      rw [htokens, Page.cuts_nil_iff] at hcuts
      subst hcuts
      generalize (ofSource t settings file (some el)).failure = failure at hstops
      cases hstops with
      | done hrest => exact absurd hrest nonempty
      | unclosed hrest => exact absurd hrest nonempty
      | fails hrest hsight =>
          have hsees := Page.sight_sees_of_steady file settings.excerptLength hsteady nonempty
          rw [hsight] at hsees
          obtain ⟨s, hok, -⟩ := h _ hsees
          cases hok
  | cons token tokens =>
      rw [htokens] at hcuts
      cases hcuts with
      | @cons _ q₁ _ _ _ hrest hnext hothers =>
          obtain ⟨s, hsees, hcutsOff⟩ := Page.next_cutsOff hsteady nonempty hnext
          obtain ⟨s', hok, hkind, hend, hopen⟩ := h _ hsees
          cases hok
          have hempty : q₁.rest = [] := by
            have hplace : q₁.rest = s.stop.rest := by rw [← hcutsOff.place]; rfl
            rw [hplace, hend]
          -- nothing is left behind the token
          cases hothers with
          | cons hrest' => exact absurd hempty hrest'
          | nil =>
              have hvalue : t = token.value := by
                have hrest := hcutsOff.leads.rest_eq
                rw [hend, List.append_nil] at hrest
                exact hrest
              have htoken : token = ⟨kind, t, 0⟩ := by
                obtain ⟨kind', value, offset⟩ := token
                have hkind' : kind' = s.kind := hcutsOff.kind
                have hoffset : offset = 0 := hcutsOff.offset
                rw [hkind', hkind, hoffset, hvalue]
              unfold complete
              generalize (ofSource t settings file (some el)).failure = failure at hstops
              cases hstops with
              | done => rw [htokens, htoken]
              | unclosed _ hopen' =>
                  rw [hcutsOff.openTags, hopen] at hopen'
                  cases hopen'
              | fails hrest' => exact absurd hempty hrest'

/-- Every token but start tags and end tags stands for itself. In the tokens of a page, also of one
that is not cut to its end, take one of them and the switch of the expression language as it is
where the token starts: the text of the token is a page that consists of this token alone, of the
same kind, whatever stands around it in the page and under whatever settings it is cut. -/
theorem tokens_self_delimiting (source : Text) (settings : Settings) (file : Option String)
    (elEnabled : Option Bool) :
    let page := Page.standard source file settings.excerptLength
    let first := start source (elEnabled.getD settings.elEnabled)
    ∀ before t after, (ofSource source settings file elEnabled).tokens = before ++ t :: after →
      t.kind ≠ .startTag → t.kind ≠ .endTag →
        ∃ q, page.Cuts first before q ∧ q.offset = t.offset ∧ ∀ settings' file',
          (ofSource t.value settings' file' (some q.elEnabled)).complete =
            .ok [⟨t.kind, t.value, 0⟩] := by
  intro page first before t after htokens hstart hend
  obtain ⟨q₀, hcuts, -⟩ := exists_cuts source settings file elEnabled
  rw [htokens] at hcuts
  obtain ⟨q, hbefore, hafter⟩ := hcuts.of_append
  have hq : q.Steady source := hbefore.steady (steady_start source _)
  cases hafter with
  | cons hrest hnext _ =>
      obtain ⟨s, hsees, hcutsOff⟩ := Page.next_cutsOff hq hrest hnext
      refine ⟨q, hbefore, hcutsOff.offset.symm, fun settings' file' => ?_⟩
      refine complete_of_sees hcutsOff.nonempty settings' file' fun result hresult => ?_
      have hkind := hcutsOff.kind
      have hlast (hnot : s.kind ≠ .templateText) :
          ∀ x ∈ t.value.getLast?, Text.closesConstruct x = true := by
        obtain ⟨front, y, hvalue, hy⟩ :=
          (Page.next_delimited hq.standard hnext (hkind ▸ hnot)).last
        rw [hvalue, List.getLast?_concat]
        rintro x ⟨⟩
        exact hy
      obtain ⟨s', hok, hkind', hrest', hopen'⟩ := hsees.alone ⟨hkind ▸ hstart, hkind ▸ hend⟩ rfl
        hcutsOff.leads hlast (elEnabled_start t.value q.elEnabled) hresult
      exact ⟨s', hok, hkind'.trans hkind.symm, hrest', hopen'⟩

/-- A tag whose attribute looks like an expression that goes on behind the tag. -/
theorem tokens_self_delimiting_of_attribute :
    let source := "<a:b c='$\x7b'/>d\x7d".toList
    let tag : Token := ⟨.emptyTag, "<a:b c='$\x7b'/>".toList, 0⟩
    let text : Token := ⟨.templateText, "d\x7d".toList, 13⟩
    (ofSource source {} none none).tokens = [tag, text] ∧
      (ofSource tag.value {} none (some true)).complete = .ok [tag] := by
  intro source tag text
  have htokens : (ofSource source {} none none).tokens = [tag, text] := by
    decide +kernel
  obtain ⟨q, hcuts, -, halone⟩ :=
    tokens_self_delimiting source {} none none [] tag [text] htokens (by decide) (by decide)
  obtain rfl : q = start source true := Page.cuts_nil_iff.1 hcuts
  refine ⟨htokens, ?_⟩
  rw [← elEnabled_start source true]
  exact halone {} none

end TokenStream

end Stencil
