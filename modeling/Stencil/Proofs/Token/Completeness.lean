import Stencil.Proofs.Token.Running

/-!
# Every place is answered

At every place of a page either a delimiter stands or template text does, never both and never
neither. So template text is never what a failure says was expected, the name of an end tag that is
out of place can always be read, and the name of a start tag is always remembered
(`Page.dispatch_complete`).
-/

set_option autoImplicit false

namespace Stencil

open Jsp (Rule)

namespace Page

variable {source : Text} {file : Option String} {n : Int} {a a' : Attempt} {c stop : Cursor}

/-- Template text stands exactly where no delimiter does. -/
theorem templateText_iff_no_delimiter (file : Option String) (n : Int) (hc : c.Within source)
    (hrest : c.rest ≠ []) (ha : a.fatal = none) :
    (∃ stop a', (standard source file n).attempt (Jsp.rule .templateText) a c =
        .ok (some stop, a')) ↔
      ∀ r ∈ Jsp.delimiters, ∃ a', (standard source file n).attempt (Jsp.rule r) a c =
        .ok (none, a') := by
  have hstarts := Jsp.startsConstruct_eq_any (Jsp.elEnabled.holds a.store.view) c.rest
  have htried := attempt_rule_tried file n .templateText hc ha
  constructor
  · rintro ⟨stop, a', htext⟩ r hr
    obtain ⟨found, a₁, hattempt, hdelimits, -⟩ := attempt_delimiter file n hr hc ha
    obtain ⟨-, -, hparses⟩ := attempt_some (Jsp.regular_rule .templateText) htext
    rcases Jsp.parses_templateText a.store.view hc.past_eq with ⟨-, hfails⟩ | ⟨hrun, -⟩
    · cases hparses.unique hfails
    cases found with
    | none => exact ⟨a₁, hattempt⟩
    | some d =>
        have hany : Jsp.delimiters.any (Jsp.delimits (Jsp.elEnabled.holds a.store.view) c.rest) =
            true := List.any_eq_true.2 ⟨r, hr, hdelimits.symm⟩
        exact absurd (Jsp.templateRun_of_starts (hstarts.trans hany)) hrun
  · intro hnone
    have hnot : Jsp.startsConstruct (Jsp.elEnabled.holds a.store.view) false c.rest = false := by
      rw [hstarts, ← Bool.not_eq_true, List.any_eq_true]
      rintro ⟨r, hr, hdelimits⟩
      obtain ⟨a₁, hfails⟩ := hnone r hr
      obtain ⟨found, a₂, hattempt, hfound, -⟩ := attempt_delimiter file n hr hc ha
      rw [hattempt] at hfails
      cases hfails
      rw [hdelimits] at hfound
      cases hfound
    rcases Jsp.parses_templateText a.store.view hc.past_eq with ⟨hempty, -⟩ | ⟨-, stop, -, hparses⟩
    · obtain ⟨x, t, hcons⟩ := List.exists_cons_of_ne_nil hrest
      rw [hcons] at hnot hempty
      rw [Jsp.templateRun_cons hnot] at hempty
      cases hempty
    · obtain ⟨a', hattempt, -⟩ := htried.of_ofStop (some stop) hparses
      exact ⟨stop, a', hattempt⟩

/-- Where the rule for end tags matches, the rule for names matches two characters on. -/
theorem qName_in_endTag (hc : c.Within source)
    (h : (standard source file n).attempt (Jsp.rule .actionEnd) a c = .ok (some stop, a')) :
    let start := Cursor.ofPosition source (c.offset + 2)
    ∃ behind a'', (standard source file n).attempt (Jsp.rule .qName) a' start =
        .ok (some behind, a'') ∧ (start.upTo behind).IsQName := by
  obtain ⟨-, hclean, hparses⟩ := attempt_some (Jsp.regular_rule .actionEnd) h
  obtain ⟨hwithin, -, name, behind, hname, hleads, hqName⟩ :=
    exists_name_of_actionEnd hc hparses a'.store.view
  obtain ⟨a'', hattempt, -⟩ := (attempt_rule_tried file n .qName hwithin hclean).of_ofStop
    (some behind) hqName
  refine ⟨behind, a'', hattempt, ?_⟩
  rw [hleads.upTo_eq hwithin.past_eq]
  exact hname

/-- Where the start of a tag matches, its name is remembered: it is what the rule for names matches
one character on. -/
theorem qName_in_startTag (hc : c.Within source)
    (h : (standard source file n).attempt (Jsp.rule .actionStart) a c = .ok (some stop, a')) :
    let start := Cursor.ofPosition source (c.offset + 1)
    ∃ behind a'', (standard source file n).attempt (Jsp.rule .qName) a' start =
        .ok (some behind, a'') ∧ (start.upTo behind).IsQName ∧
      a'.store.view Jsp.tagNameKey = some (.text (start.upTo behind)) := by
  obtain ⟨-, hclean, hparses⟩ := attempt_some (Jsp.regular_rule .actionStart) h
  obtain ⟨c₁, c₂, name, behind, hbracket, hleads, -, hname, -, hkey, view₁, hqName⟩ :=
    Jsp.parts_of_actionStart hc.past_eq hparses
  obtain ⟨hwithin, hposition⟩ := hc.of_leads hbracket
  obtain ⟨hstop, -⟩ := Jsp.readsAs_qName.parses_ends_iff.1 hqName
  have hparsesName : (Jsp.rule .qName).Parses Jsp.rules a'.store.view c₁
      (.ends c₂ a'.store.view) := by
    rw [Jsp.rule, Matcher.parses_labelled_iff, ← Jsp.parses_ref_iff]
    exact Jsp.readsAs_qName.parses_ends_iff.2 ⟨hstop, rfl⟩
  obtain ⟨a'', hattempt, -⟩ := (attempt_rule_tried file n .qName hwithin hclean).of_ofStop
    (some c₂) hparsesName
  intro start
  obtain rfl : start = c₁ := hposition
  exact ⟨c₂, a'', hattempt, by rwa [hleads.upTo_eq hwithin.past_eq],
    by rwa [hleads.upTo_eq hwithin.past_eq]⟩

/-- What a failure of a run says of template text and of the name of an end tag: it never blames the
former, and the latter is a qualified name that stands where the failure points. -/
def Explained (source : Text) (e : LexError) : Prop :=
  e.cause ≠ .mismatch Rule.templateText.label ∧
    ∀ name, (e.cause = .endTag name .unopened ∨ ∃ tag, e.cause = .endTag name (.misplaced tag)) →
      name.IsQName ∧ ∃ o : Nat, e.offset = some (o : Int) ∧
        ("</".toList ++ name).isPrefixOf (source.drop o) = true

/-- A failure that blames something else than template text is explained. -/
theorem explained_of_blames {isFault : Fault → Prop} {expected : String} {offset : Nat}
    {failure : LexFailure} (hexpected : expected ≠ Rule.templateText.label)
    (h : (standard source file n).Blames isFault expected offset failure) :
    ∃ e, failure = .error e ∧ Explained source e := by
  cases h with
  | reported f _ hcause =>
      refine ⟨_, rfl, ?_, fun name hname => ?_⟩
      · intro heq
        have heq : f.cause = .mismatch Rule.templateText.label := heq
        rw [heq] at hcause
        generalize hlabel : Rule.templateText.label = label at hcause
        cases hcause <;> revert hlabel <;> decide
      · have hname : f.cause = .endTag name .unopened ∨
            ∃ tag, f.cause = .endTag name (.misplaced tag) := hname
        rcases hname with heq | ⟨tag, heq⟩ <;> rw [heq] at hcause <;> cases hcause
  | unterminated terminator =>
      refine ⟨_, rfl, nofun, fun name hname => ?_⟩
      rcases hname with heq | ⟨tag, heq⟩ <;> cases heq
  | mismatch =>
      refine ⟨_, rfl, fun heq => hexpected (Cause.mismatch.inj heq), fun name hname => ?_⟩
      rcases hname with heq | ⟨tag, heq⟩ <;> cases heq

/-- No construct is described as template text is. -/
theorem describe_whole_ne {e : Jsp.Construct Rule} (he : e ∈ Jsp.constructs) :
    describe (Jsp.rule e.whole) ≠ Rule.templateText.label := by
  revert e
  decide

/-- However cutting off a token fails, the failure is explained. -/
theorem explained_of_sees {view : View} {openTags : List OpenTag} {failure : LexFailure}
    (hc : c.Within source) (h : (standard source file n).Sees view openTags c (.error failure)) :
    ∃ e, failure = .error e ∧ Explained source e := by
  cases h with
  | brokenConstruct hfirst _ hblames =>
      exact explained_of_blames (describe_whole_ne (List.mem_of_find?_eq_some hfirst)) hblames
  | brokenEndTag hnone hend _ hblames => exact explained_of_blames (by decide) hblames
  | brokenStartTag hnone hstart _ hblames => exact explained_of_blames (by decide) hblames
  | unendedStartTag hstarts hempty hend hblames => exact explained_of_blames (by decide) hblames
  | @strayEndTag name behind hnone hend hname hleads =>
      have hcause : ∀ name', ((misplacedEndTag openTags name) = .endTag name' .unopened ∨
          ∃ tag, (misplacedEndTag openTags name) = .endTag name' (.misplaced tag)) →
            name' = name := by
        intro name' heq
        cases openTags <;> rcases heq with heq | ⟨tag, heq⟩ <;> cases heq <;> rfl
      refine ⟨_, rfl, ?_, fun name' hname' => ?_⟩
      · cases openTags <;> nofun
      · obtain rfl := hcause name' hname'
        refine ⟨hname, c.offset, ?_, ?_⟩
        · simp only [standard, LexError.located]
          rw [Location.offset_ofOffset hc.offset_le]
        · rw [List.isPrefixOf_iff_prefix, ← hc.rest_eq, hleads.rest_eq]
          exact List.prefix_append _ _

/-- The dispatch is complete. At every place of a page, whatever the grammar remembers and in
particular whether the expression language is on or off, template text stands exactly where none of
the nine delimiters does. A page is cut to its end or there is an error that blames the page, never
for want of template text; an error about an end tag that is out of place names the qualified name
that stands in the tag. Wherever the rule for end tags matches, the rule for names matches two
characters on, and wherever the start of a tag matches, the name that is remembered is the qualified
name that the rule for names matches one character on. -/
theorem dispatch_complete :
    (∀ (source : Text) (file : Option String) (n : Int) (store : Store) (p : Nat),
      p < source.length →
      let page := standard source file n
      let place := Cursor.ofPosition source p
      (∃ stop a', page.attempt (Jsp.rule .templateText) { store } place = .ok (some stop, a')) ↔
        ∀ r ∈ Jsp.delimiters, ∃ a', page.attempt (Jsp.rule r) { store } place = .ok (none, a')) ∧
    (∀ (source : Text) (settings : Settings) (file : Option String) (elEnabled : Option Bool)
        (failure : LexFailure),
      (TokenStream.ofSource source settings file elEnabled).failure = some failure →
        ∃ e, failure = .error e ∧ e.cause ≠ .mismatch "TEMPLATE_TEXT" ∧
          ∀ name, (e.cause = .endTag name .unopened ∨
              ∃ tag, e.cause = .endTag name (.misplaced tag)) →
            name.IsQName ∧ ∃ o : Nat, e.offset = some (o : Int) ∧
              ("</".toList ++ name).isPrefixOf (source.drop o) = true) ∧
    (∀ (source : Text) (file : Option String) (n : Int) (a a' : Attempt) (p : Nat) (stop : Cursor),
      p < source.length →
      (standard source file n).attempt (Jsp.rule .actionEnd) a (Cursor.ofPosition source p) =
        .ok (some stop, a') →
      let start := Cursor.ofPosition source (p + 2)
      ∃ behind a'', (standard source file n).attempt (Jsp.rule .qName) a' start =
        .ok (some behind, a'') ∧ (start.upTo behind).IsQName) ∧
    ∀ (source : Text) (file : Option String) (n : Int) (a a' : Attempt) (p : Nat) (stop : Cursor),
      p < source.length →
      (standard source file n).attempt (Jsp.rule .actionStart) a (Cursor.ofPosition source p) =
        .ok (some stop, a') →
      let start := Cursor.ofPosition source (p + 1)
      ∃ behind a'', (standard source file n).attempt (Jsp.rule .qName) a' start =
          .ok (some behind, a'') ∧ (start.upTo behind).IsQName ∧
        a'.store.view Jsp.tagNameKey = some (.text (start.upTo behind)) := by
  have hplace {source : Text} {p : Nat} (hp : p < source.length) :
      (Cursor.ofPosition source p).Within source ∧ (Cursor.ofPosition source p).offset = p ∧
        (Cursor.ofPosition source p).rest ≠ [] := by
    refine ⟨Cursor.within_ofPosition hp.le, Cursor.offset_ofPosition hp.le, ?_⟩
    simpa [Cursor.ofPosition] using hp
  refine ⟨?_, ?_, ?_, ?_⟩
  · intro source file n store p hp
    exact templateText_iff_no_delimiter file n (hplace hp).1 (hplace hp).2.2 rfl
  · intro source settings file elEnabled failure hfailure
    obtain ⟨q, hcuts, hstops⟩ := TokenStream.exists_cuts source settings file elEnabled
    have hq := hcuts.steady (TokenStream.steady_start source _)
    rw [hfailure] at hstops
    cases hstops with
    | unclosed hrest hopen =>
        refine ⟨_, rfl, fun heq => ?_, fun name hname => ?_⟩
        · cases heq
        rcases hname with heq | ⟨tag, heq⟩ <;> cases heq
    | fails hrest h =>
        have hsees := sight_sees_of_steady file settings.excerptLength hq hrest
        rw [h] at hsees
        exact explained_of_sees hq.within hsees
  · intro source file n a a' p stop hp h
    obtain ⟨hwithin, hoffset, -⟩ := hplace hp
    have hname := qName_in_endTag hwithin h
    rwa [hoffset] at hname
  · intro source file n a a' p stop hp h
    obtain ⟨hwithin, hoffset, -⟩ := hplace hp
    have hname := qName_in_startTag hwithin h
    rwa [hoffset] at hname

/-- An end tag that is out of place, behind a start tag and template text. At the end tag a
delimiter stands, and no template text. -/
theorem dispatch_complete_of_misplaced :
    let source := "<a:b>x</c:d >".toList
    let e := LexError.located (.endTag "c:d".toList (.misplaced "a:b".toList)) source 6 none 30
    (TokenStream.ofSource source { excerptLength := 30 } none none).failure = some (.error e) ∧
      Text.IsQName "c:d".toList ∧
      6 < source.length ∧
      ¬∃ stop a', (standard source none 30).attempt (Jsp.rule .templateText) {}
        (Cursor.ofPosition source 6) = .ok (some stop, a') := by
  intro source e
  obtain ⟨htext, hfailures, -, -⟩ := dispatch_complete
  have hfailure : (TokenStream.ofSource source { excerptLength := 30 } none none).failure =
      some (.error e) := by decide +kernel
  obtain ⟨e', he', -, hname⟩ := hfailures source _ none none _ hfailure
  cases he'
  refine ⟨hfailure, (hname _ (.inr ⟨_, rfl⟩)).1, by decide, fun hstands => ?_⟩
  obtain ⟨a', hfails⟩ := (htext source none 30 {} 6 (by decide)).1 hstands
    .actionEndDelimiter (by decide)
  have hwithin : (Cursor.ofPosition source 6).Within source :=
    Cursor.within_ofPosition (by decide)
  obtain ⟨found, a'', hattempt, hfound, -⟩ := attempt_delimiter (a := {}) none 30
    (r := .actionEndDelimiter) (by decide) hwithin rfl
  rw [hattempt] at hfails
  cases hfails
  revert hfound
  decide

end Page

end Stencil
