import Stencil.Proofs.Token.Nesting

/-!
# Constructs are delimited

A construct starts with an angle bracket, or with a dollar or hash sign, and ends with an angle
bracket or a brace, whatever stands between. That a rule starts or ends so is seen from its first or
its last part; the parts between them only have to lead from one place to another, which every
matcher does (`Matcher.Parses.moves`).
-/

set_option autoImplicit false

namespace Stencil

open Jsp (Construct Production Rule)

namespace Text

/-- Whether a character may start a construct. -/
def opensConstruct (c : Char) : Bool := c == '<' || Jsp.isElMark c

/-- Whether a character may end a construct. -/
def closesConstruct (c : Char) : Bool := c == '>' || c == '}'

/-- A text that starts and ends as constructs do. -/
structure Delimited (t : Text) : Prop where
  first : ∃ c rest, t = c :: rest ∧ opensConstruct c = true
  last : ∃ front c, t = front ++ [c] ∧ closesConstruct c = true

end Text

namespace Jsp

open Matcher (StartsWith EndsWith)

/-- What a rule reads starts as what its production reads. -/
theorem startsWith_ref {p : Char → Bool} {r : Rule} (h : StartsWith rules p (production r)) :
    StartsWith rules p (.ref r) :=
  fun _ _ _ _ hparses => h (parses_ref_iff.1 hparses)

/-- What a rule reads ends as what its production reads. -/
theorem endsWith_ref {p : Char → Bool} {r : Rule} (h : EndsWith rules p (production r)) :
    EndsWith rules p (.ref r) :=
  fun _ _ _ _ hparses => h (parses_ref_iff.1 hparses)

/-- The rule for the whole of a construct starts and ends as constructs do. -/
theorem production_delimits {e : Construct Rule} (he : e ∈ constructs) :
    StartsWith rules Text.opensConstruct (production e.whole) ∧
      EndsWith rules Text.closesConstruct (production e.whole) := by
  have hopen {r : Rule} (h : StartsWith rules Text.opensConstruct (production r))
      (ms : List Production) : StartsWith rules Text.opensConstruct (.sequence (.ref r :: ms)) :=
    (startsWith_ref h).sequence_cons ms
  have hclose (s : String) (nonempty : s.toList ≠ [])
      (h : s.toList.getLast?.any Text.closesConstruct = true) (body : Production) :
      EndsWith rules Text.closesConstruct (.upTo body (text s nonempty)) :=
    EndsWith.upTo (Matcher.endsWith_literal h) body
  simp only [constructs, List.mem_cons, List.not_mem_nil, or_false] at he
  rcases he with rfl | rfl | rfl | rfl | rfl | rfl | rfl
  · exact ⟨hopen (Matcher.startsWith_literal rfl) _, (hclose _ _ rfl _).sequence_concat [_]⟩
  · have hend : EndsWith rules Text.closesConstruct (.ref .close) :=
      endsWith_ref (Matcher.endsWith_literal rfl)
    exact ⟨hopen (Matcher.startsWith_literal rfl) _, hend.sequence_concat [_, _, _, _]⟩
  · exact ⟨hopen (Matcher.startsWith_literal rfl) _, (hclose _ _ rfl _).sequence_concat [_]⟩
  · exact ⟨hopen (Matcher.startsWith_literal rfl) _, (hclose _ _ rfl _).sequence_concat [_]⟩
  · exact ⟨hopen (Matcher.startsWith_literal rfl) _, (hclose _ _ rfl _).sequence_concat [_]⟩
  · have hmark : StartsWith rules Text.opensConstruct (production .elExpressionStart) := by
      refine (StartsWith.oneOf ?_).when _
      intro m hm
      simp only [List.mem_cons, List.not_mem_nil, or_false] at hm
      rcases hm with rfl | rfl <;> exact Matcher.startsWith_literal rfl
    have hend : EndsWith rules Text.closesConstruct (.ref .elBody) :=
      endsWith_ref (hclose _ _ rfl _)
    exact ⟨(hopen hmark _).when _, (hend.sequence_concat [_]).when _⟩
  · constructor <;> intro view c stop view' hparses
    all_goals
      rw [production, Matcher.parses_pattern_iff, Matcher.ofStop_eq_ends_iff] at hparses
      obtain ⟨blanks, hleads⟩ := Cursor.leads_around (by decide) hparses.1
    · exact ⟨'<', _, rfl, hleads⟩
    · refine ⟨"<portlet:namespace".toList ++ blanks ++ ['/'], '>', rfl, ?_⟩
      rw [List.append_assoc]
      exact hleads

end Jsp

/-! ## Tokens -/

namespace Text

/-- A start tag is delimited, however it ends. -/
theorem OpensTag.delimited {name opening ending : Text} (h : OpensTag name opening)
    (hending : ∃ front x, ending = front ++ [x] ∧ closesConstruct x = true) :
    Delimited (opening ++ ending) := by
  obtain ⟨-, behind, rfl, -⟩ := h
  obtain ⟨front, x, rfl, hx⟩ := hending
  refine ⟨⟨'<', _, rfl, rfl⟩, ⟨'<' :: (name ++ behind) ++ front, x, ?_, hx⟩⟩
  rw [List.append_assoc]

/-- An end tag is delimited. -/
theorem EndsTag.delimited {name t : Text} (h : EndsTag name t) : Delimited t := by
  obtain ⟨blanks, -, rfl⟩ := h
  refine ⟨⟨'<', _, rfl, rfl⟩, ⟨'<' :: '/' :: (name ++ blanks), '>', ?_, rfl⟩⟩
  rw [List.cons_append, List.cons_append, List.append_assoc]

end Text

/-- The tag of a custom action starts and ends as constructs do. -/
theorem Sighting.Tags.delimited {openTags : List OpenTag} {c : Cursor} {s : Sighting}
    (h : s.Tags openTags c) (hkind : s.kind = .startTag ∨ s.kind = .endTag ∨ s.kind = .emptyTag) :
    ∃ t, t.Delimited ∧ c.Leads t s.stop := by
  cases h with
  | closes a hopen hstop =>
      obtain ⟨ending, hending, hleads⟩ := Jsp.endsTag_of_endTagStop? hstop
      exact ⟨ending, hending.delimited, hleads⟩
  | opens a hname hleads hnot => exact ⟨_, hname.delimited ⟨[], '>', rfl, rfl⟩, hleads⟩
  | opensAndCloses a hname hending hleads =>
      refine ⟨_, hname.delimited ?_, hleads⟩
      rcases hending with rfl | ⟨t, ht, rfl⟩
      · exact ⟨['/'], '>', rfl, rfl⟩
      · obtain ⟨front, x, rfl, hx⟩ := ht.delimited.last
        exact ⟨'>' :: front, x, rfl, hx⟩
  | other stop a hother =>
      obtain ⟨hstart, hend, hempty⟩ := hother
      rcases hkind with hkind | hkind | hkind
      · exact absurd hkind hstart
      · exact absurd hkind hend
      · exact absurd hkind hempty

namespace Page

variable {source : Text} {file : Option String} {n : Int} {p : Page} {openTags : List OpenTag}
  {a : Attempt} {c : Cursor} {s : Sighting}

/-- A construct that is cut off is delimited. -/
theorem construct_delimited (entries : List (Construct Rule))
    (hdelimits : ∀ e ∈ entries, Matcher.StartsWith Jsp.rules Text.opensConstruct
        (Jsp.production e.whole) ∧
      Matcher.EndsWith Jsp.rules Text.closesConstruct (Jsp.production e.whole))
    (h : p.construct openTags c
      (entries.map fun e => ⟨e.kind, Jsp.rule e.delimiter, Jsp.rule e.whole⟩) a = .ok (.hit s)) :
    ∃ t, t.Delimited ∧ c.Leads t s.stop := by
  induction entries generalizing a with
  | nil => cases h
  | cons e entries ih =>
      obtain ⟨⟨hstarts, hends⟩, hentries⟩ := List.forall_mem_cons.1 hdelimits
      rw [List.map_cons, construct] at h
      obtain ⟨⟨started, a₁⟩, -, h⟩ := exists_of_bind_ok h
      cases started with
      | none =>
          dsimp only at h
          split at h
          · cases h
          · exact ih hentries h
      | some d =>
          obtain ⟨⟨_ | stop, a₂⟩, hwhole, h⟩ := exists_of_bind_ok h
          · cases h
          · cases h
            obtain ⟨-, -, hparses⟩ := attempt_some (Jsp.regular_rule e.whole) hwhole
            have hproduction := Matcher.parses_labelled_iff.1 hparses
            obtain ⟨x, t, hx, hleads⟩ := hstarts hproduction
            obtain ⟨t', x', hx', hleads'⟩ := hends hproduction
            have heq : x :: t = t' ++ [x'] := by
              rw [← hleads.take_rest, hleads'.take_rest]
            exact ⟨x :: t, ⟨⟨x, t, rfl, hx⟩, ⟨t', x', heq, hx'⟩⟩, hleads⟩

/-- What is cut off as an end tag is one. -/
theorem endTag_kind (h : p.endTag openTags c a = .ok (.hit s)) : s.kind = .endTag := by
  cases openTags with
  | nil => exact absurd h strayEndTag_not_hit
  | cons tag below =>
      rw [endTag] at h
      obtain ⟨⟨_ | stop, a₁⟩, -, h⟩ := exists_of_bind_ok h
      · exact absurd h strayEndTag_not_hit
      · cases h
        rfl

/-- What is cut off as a start tag is one, or an empty tag. -/
theorem startTag_kind (h : p.startTag openTags c a = .ok (.hit s)) :
    s.kind = .startTag ∨ s.kind = .emptyTag := by
  simp only [startTag, bind, Except.bind] at h
  repeat' split at h
  all_goals cases h
  · exact .inr rfl
  · exact .inr rfl
  · exact .inl rfl

/-- What stands at a place starts and ends as constructs do, unless it is template text. -/
theorem sight_delimited {q : Progress} (hopen : ∀ tag ∈ q.openTags, tag.IsStandard)
    (h : (standard source file n).sight q = .ok s) (hkind : s.kind ≠ .templateText) :
    ∃ t, t.Delimited ∧ q.place.Leads t s.stop := by
  have htags := sight_tags hopen h
  unfold sight at h
  obtain ⟨⟨a⟩ | ⟨s'⟩, hfirst, h⟩ := exists_of_bind_ok h
  · obtain ⟨⟨a⟩ | ⟨s'⟩, hsecond, h⟩ := exists_of_bind_ok h
    · obtain ⟨⟨a⟩ | ⟨s'⟩, hthird, h⟩ := exists_of_bind_ok h
      · simp only [templateText, lookUp_standard, ok_bind] at h
        obtain ⟨⟨_ | stop, a'⟩, -, h⟩ := exists_of_bind_ok h
        · cases h
        · cases h
          exact absurd rfl hkind
      · cases h
        exact htags.delimited ((startTag_kind hthird).imp_right .inr)
    · cases h
      exact htags.delimited (.inr (.inl (endTag_kind hsecond)))
  · cases h
    exact construct_delimited Jsp.constructs (fun e he => Jsp.production_delimits he) hfirst

/-- A token that is cut off starts and ends as constructs do, unless it is template text. -/
theorem next_delimited {q q' : Progress} {t : Token} (hopen : ∀ tag ∈ q.openTags, tag.IsStandard)
    (h : (standard source file n).next q = .ok (t, q')) (hkind : t.kind ≠ .templateText) :
    t.value.Delimited := by
  obtain ⟨s, hsight, h⟩ := exists_of_bind_ok h
  cases h
  obtain ⟨value, hdelimited, hleads⟩ := sight_delimited hopen hsight hkind
  have hvalue : q.rest.take (s.stop.offset - q.offset) = value := hleads.take_rest
  rw [hvalue]
  exact hdelimited

/-- All constructs among the tokens are delimited. -/
theorem cut_delimited (count : Nat) {q : Progress} {unclosed : List Token}
    (hs : q.Sound source unclosed) {tokens : List Token} {failure : Option LexFailure}
    (h : (standard source file n).cut count q = (tokens, failure)) :
    ∀ t ∈ tokens, t.kind ≠ .templateText → t.value.Delimited := by
  induction count generalizing q unclosed tokens with
  | zero =>
      cases h
      exact fun t ht => absurd ht List.not_mem_nil
  | succ count ih =>
      unfold cut at h
      split at h
      · split at h <;> cases h <;> exact fun t ht => absurd ht List.not_mem_nil
      · split at h
        · cases h
          exact fun t ht => absurd ht List.not_mem_nil
        · rename_i t q' hnext
          have hspec := next_spec file n hs
          rw [hnext] at hspec
          obtain ⟨-, -, -, -, hs'⟩ := hspec
          cases hcut : (standard source file n).cut count q' with
          | mk tokens' failure' =>
              rw [hcut] at h
              cases h
              exact List.forall_mem_cons.2 ⟨next_delimited hs.standard hnext, ih hs' hcut⟩

end Page

namespace TokenStream

/-- Every construct of a page starts with an angle bracket, or with a dollar or hash sign, and ends
with an angle bracket or a brace. -/
theorem delimited_of_complete {source : Text} {settings : Settings} {file : Option String}
    {elEnabled : Option Bool} {tokens : List Token}
    (h : (ofSource source settings file elEnabled).complete = .ok tokens) :
    ∀ t ∈ tokens, t.kind ≠ .templateText → t.value.Delimited := by
  obtain ⟨count, hcut⟩ := cut_eq_ofSource source settings file elEnabled
  obtain ⟨rfl, -⟩ := complete_eq_ok_iff.1 h
  exact Page.cut_delimited count (sound_start source _) hcut

end TokenStream

end Stencil
