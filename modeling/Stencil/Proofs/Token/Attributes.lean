import Stencil.Proofs.Jsp.AttributeRows
import Stencil.Proofs.Token.Switching

/-!
# The attributes of tags and directives

What a run says of attributes. In what it cuts off, the attributes of a tag or directive obey the
rules for their names (`Page.exists_tag_attributes`, `Page.exists_directive_attributes`). Where it
stops because of a duplicate, the name stands again in the tag or directive at which it stops,
behind an attribute that has it (`Page.Sees.repeats`). Both are about the attributes of this tag or
directive alone, since the names recorded before are forgotten when it starts.
-/

set_option autoImplicit false

namespace Stencil

open Jsp (Attribute Bearer Rule)

/-- How what bears attributes ends behind them: a directive with its bracket, a tag with its bracket
or with a slash, or with the end tag that stands right behind it. -/
def Jsp.Bearer.Closes : Bearer → Text → Prop
  | .tag, t => t = "/>".toList ∨ t = ">".toList ∨
      ∃ name behind, Text.EndsTag name behind ∧ t = '>' :: behind
  | _, t => t = "%>".toList

/-- A token has attributes. They are read in front of the rest of the page, and end where the token
does. -/
def Token.HasAttributes (b : Bearer) (el : Bool) (rest : Text) (t : Token) (as : List Attribute) :
    Prop :=
  ∃ blanks ending, Jsp.Bears b el (t.value ++ rest) as (blanks ++ (ending ++ rest)) ∧
    (∀ x ∈ blanks, Text.isXmlSpace x = true) ∧ b.Closes ending

namespace Page

variable {source : Text} {file : Option String} {n : Int} {p : Page} {q q' : Progress} {t : Token}
  {ts : List Token} {el : Bool} {view : View} {c : Cursor} {openTags : List OpenTag} {s : Sighting}

/-- A start tag is read up to what ends it. -/
theorem Sees.exists_start (h : p.Sees view openTags c (.ok s))
    (hkind : s.kind = .startTag ∨ s.kind = .emptyTag) :
    ∃ named left ending, (Jsp.rule .actionStart).Parses Jsp.rules view c (.ends named left) ∧
      Bearer.tag.Closes ending ∧ named.rest = ending ++ s.stop.rest := by
  cases h with
  | construct hfirst hkind' =>
      have hkinds : ∀ e ∈ Jsp.constructs, e.kind ≠ .startTag ∧ e.kind ≠ .emptyTag := by decide
      obtain ⟨hstart, hempty⟩ := hkinds _ (List.mem_of_find?_eq_some hfirst)
      rw [hkind'] at hkind
      exact absurd hkind (by simp [hstart, hempty])
  | endTag _ hkind' | templateText _ _ hkind' =>
      rw [hkind'] at hkind
      exact absurd hkind (by decide)
  | emptyTag hstarts hempty =>
      obtain ⟨left, hparses, -⟩ := hstarts.parses
      exact ⟨_, left, _, hparses, .inl rfl, (Cursor.leads_after? hempty).rest_eq⟩
  | startTag _ hstarts _ hend =>
      obtain ⟨left, hparses, -⟩ := hstarts.parses
      exact ⟨_, left, _, hparses, .inr (.inl rfl), (Cursor.leads_after? hend).rest_eq⟩
  | closedTag hstarts _ hend hstop =>
      obtain ⟨left, hparses, -⟩ := hstarts.parses
      obtain ⟨behind, hbehind, hleads⟩ := Jsp.endsTag_of_endTagStop? hstop
      refine ⟨_, left, _, hparses, .inr (.inr ⟨_, behind, hbehind, rfl⟩), ?_⟩
      rw [(Cursor.leads_after? hend).rest_eq, hleads.rest_eq]
      rfl

/-- A start tag or empty tag that is cut off gives no name twice. -/
theorem exists_tag_attributes (hel : q.store.view Jsp.elEnabledKey = some (.flag el))
    (hsees : p.Sees q.store.view q.openTags q.place (.ok s)) (hcuts : CutsOff source q s t q')
    (hkind : t.kind = .startTag ∨ t.kind = .emptyTag) :
    ∃ as, t.HasAttributes .tag el s.stop.rest as ∧ (as.map (·.name)).Nodup := by
  obtain ⟨named, left, ending, hparses, hcloses, hrest⟩ :=
    hsees.exists_start (hcuts.kind ▸ hkind)
  cases Jsp.readsTag hel rfl hparses with
  | @ends as blanks _ _ hbears hblanks hadmits =>
      rw [hcuts.leads.rest_eq, hrest] at hbears
      exact ⟨as, ⟨blanks, ending, hbears, hblanks, hcloses⟩, hadmits⟩

/-- A directive that is cut off is an inclusion or obeys the rules for its attributes. -/
theorem exists_directive_attributes (hel : q.store.view Jsp.elEnabledKey = some (.flag el))
    (hsees : p.Sees q.store.view q.openTags q.place (.ok s)) (hcuts : CutsOff source q s t q')
    (hkind : t.kind = .directive) :
    (∃ blanks more, (∀ x ∈ blanks, Text.isXmlSpace x = true) ∧
        t.value = "<%@".toList ++ (blanks ++ ("include".toList ++ more))) ∨
      ∃ b as, b ≠ Bearer.tag ∧ t.HasAttributes b el s.stop.rest as ∧ b.Admits as := by
  have hsort : s.kind = .directive := hcuts.kind ▸ hkind
  obtain ⟨e, hfirst, hkind', hparses⟩ := hsees.exists_construct (by rw [hsort]; decide)
  have hwhole : ∀ e ∈ Jsp.constructs, e.kind = .directive → e.whole = .directive := by decide
  rw [hwhole e (List.mem_of_find?_eq_some hfirst) (hkind' ▸ hsort)] at hparses
  rcases Jsp.admits_of_directive hel rfl hparses with
    ⟨blanks, more, hblanks, hleads⟩ | ⟨b, as, blanks, hb, hbears, hblanks, hadmits⟩
  · exact .inl ⟨blanks, more, hblanks, hcuts.leads.unique hleads⟩
  · rw [hcuts.leads.rest_eq] at hbears
    refine .inr ⟨b, as, hb, ⟨blanks, _, hbears, hblanks, ?_⟩, hadmits⟩
    cases b with
    | page | library => rfl
    | tag => exact absurd rfl hb

/-- A duplicate that is blamed was found by a rule. -/
theorem Blames.duplicate {isFault : Fault → Prop} {expected : String} {offset : Nat}
    {e : LexError} {name : Text} (h : p.Blames isFault expected offset (.error e))
    (hcause : e.cause = .duplicateAttribute name) :
    ∃ position, isFault ⟨.duplicateAttribute name, position⟩ ∧
      .error e = p.fault (.duplicateAttribute name) position := by
  generalize hfailure : LexFailure.error e = failure at h
  cases h with
  | reported f hfault _ =>
      cases hfailure
      obtain ⟨cause, position⟩ := f
      obtain rfl : cause = .duplicateAttribute name := hcause
      exact ⟨position, hfault, rfl⟩
  | unterminated terminator | mismatch =>
      cases hfailure
      cases hcause

/-- Where a duplicate stops the run, the name stands again behind an attribute that has it. -/
theorem Sees.repeats {e : LexError} {name : Text} (h : p.Sees view openTags c (.error (.error e)))
    (hel : view Jsp.elEnabledKey = some (.flag el)) (hpast : c.past = 0)
    (hcause : e.cause = .duplicateAttribute name) :
    ∃ b front, Jsp.Repeats b el c.rest front name ∧
      .error e = p.fault (.duplicateAttribute name) (c.position + front.length) := by
  generalize hresult : Except.error (LexFailure.error e) = result at h
  cases h with
  | @brokenConstruct entry _ hfirst _ hblames =>
      cases hresult
      obtain ⟨position, hfaulty, heq⟩ := hblames.duplicate hcause
      have hwhole : ∀ e ∈ Jsp.constructs, e.whole = .directive ∨ Jsp.IsPlain e.whole := by decide
      rcases hwhole entry (List.mem_of_find?_eq_some hfirst) with hdirective | hplain
      · rw [hdirective] at hfaulty
        obtain ⟨b, front, hrepeats, hposition⟩ :=
          Jsp.repeats_of_faulty_directive hel hpast hfaulty rfl
        exact ⟨b, front, hrepeats, hposition ▸ heq⟩
      · exact absurd hfaulty (Jsp.not_faults_of_plain (Jsp.plain_rules _ _ hplain rfl) hpast _)
  | brokenEndTag _ _ _ hblames =>
      cases hresult
      obtain ⟨position, hfaulty, -⟩ := hblames.duplicate hcause
      have hplain : Jsp.IsPlain .actionEnd := by decide
      exact absurd hfaulty (Jsp.not_faults_of_plain (Jsp.plain_rules _ _ hplain rfl) hpast _)
  | brokenStartTag _ _ _ hblames =>
      cases hresult
      obtain ⟨position, hfaulty, heq⟩ := hblames.duplicate hcause
      cases Jsp.readsTag hel hpast hfaulty with
      | faults hrepeats => exact ⟨.tag, _, hrepeats, heq⟩
  | unendedStartTag _ _ _ hblames =>
      cases hresult
      obtain ⟨position, hnone, -⟩ := hblames.duplicate hcause
      exact hnone.elim
  | strayEndTag =>
      cases hresult
      cases openTags <;> cases hcause
  | _ => cases hresult

/-- Tokens that are cut off stand in front of what is left. -/
theorem Cuts.rest_eq (h : (standard source file n).Cuts q ts q') (hq : q.Steady source) :
    q.rest = ts.flatMap (·.value) ++ q'.rest ∧
      q'.offset = q.offset + (ts.flatMap (·.value)).length := by
  induction h with
  | nil => simp
  | @cons q q₁ q' t ts hrest hnext _ ih =>
      obtain ⟨s, -, hcuts⟩ := next_cutsOff hq hrest hnext
      obtain ⟨hrest', hoffset⟩ := ih hcuts.steady
      have hleads := hcuts.leads
      rw [← hcuts.place] at hleads
      have hfirst : q.rest = t.value ++ q₁.rest := hleads.rest_eq
      have hplace : q₁.offset = q.offset + t.value.length := hleads.offset_eq
      constructor
      · rw [hfirst, hrest', List.flatMap_cons, List.append_assoc]
      · rw [hoffset, hplace, List.flatMap_cons, List.length_append, Nat.add_assoc]

/-- What is left behind a token is the source behind it. -/
theorem CutsOff.rest_eq (h : CutsOff source q s t q') : s.stop.rest = source.drop t.stop := by
  have hoffset : q'.offset = q.offset + t.value.length := by
    have hleads := h.leads
    rw [← h.place] at hleads
    exact hleads.offset_eq
  rw [← h.place, Token.stop, h.offset, ← hoffset]
  exact h.steady.rest_eq

end Page

namespace TokenStream

variable {source : Text} {settings : Settings} {file : Option String} {elEnabled : Option Bool}

/-- Where a run stops because of a duplicate, the name stands again in the tag or directive behind
the tokens, at the offset of the error. -/
theorem exists_repeats {e : LexError} {name : Text}
    (hfailure : (ofSource source settings file elEnabled).failure = some (.error e))
    (hcause : e.cause = .duplicateAttribute name) :
    let stream := ofSource source settings file elEnabled
    let cut := stream.tokens.flatMap (·.value)
    ∃ b tag front, source = cut ++ tag ∧
      Jsp.Repeats b (stream.tokens.foldl Token.switch (elEnabled.getD settings.elEnabled)) tag front
        name ∧
      e.offset = some ((cut ++ front).length : Int) := by
  intro stream cut
  have hsteady := steady_start source (elEnabled.getD settings.elEnabled)
  obtain ⟨q, hcuts, hstops⟩ := exists_cuts source settings file elEnabled
  have hel := (hcuts.settled hsteady (settled_start source _)).switch_eq
  obtain ⟨hrest, hoffset⟩ := hcuts.rest_eq hsteady
  have hsource : source = cut ++ q.rest := hrest
  have hplace : q.place.position = cut.length := hoffset.trans (Nat.zero_add _)
  rw [hfailure] at hstops
  cases hstops with
  | unclosed => cases hcause
  | fails hrest hsight =>
      have hsees :=
        Page.sight_sees_of_steady file settings.excerptLength (hcuts.steady hsteady) hrest
      rw [hsight] at hsees
      obtain ⟨b, front, hrepeats, heq⟩ := hsees.repeats hel rfl hcause
      refine ⟨b, q.rest, front, hsource, hrepeats, ?_⟩
      obtain ⟨as, blanks, rest, -, -, -, hbehind, -⟩ := hrepeats
      have hle : (cut ++ front).length ≤ source.length := by
        have hlength := congrArg List.length hsource
        rw [show q.rest = front ++ (name ++ rest) from hbehind] at hlength
        simp only [List.length_append] at hlength ⊢
        omega
      rw [hplace, ← List.length_append] at heq
      obtain rfl := LexFailure.error.inj heq
      exact congrArg (fun n : Nat => some (n : Int)) (Location.offset_ofOffset hle)

/-- Attribute rules hold on all that is cut off, and are never said to be violated where they are
not. In every run, also one that does not come to the end of its page, a start tag or empty tag
gives no name twice; a directive is an inclusion, or a page directive that gives no name twice but
`import`, or a library directive that gives no name twice, names its prefix, and names either its
address or its directory. Where a run stops because a name is given twice, the name stands at the
offset of the error, directly behind white space, in the tag or directive that starts behind the
tokens, and one of the attributes that stand complete in front of it has the name. -/
theorem attributes_distinct (source : Text) (settings : Settings) (file : Option String)
    (elEnabled : Option Bool) :
    let initial := elEnabled.getD settings.elEnabled
    let stream := ofSource source settings file elEnabled
    (∀ before t after, stream.tokens = before ++ t :: after →
      let el := before.foldl Token.switch initial
      let rest := source.drop t.stop
      (t.kind = .startTag ∨ t.kind = .emptyTag →
        ∃ as, t.HasAttributes .tag el rest as ∧ (as.map (·.name)).Nodup) ∧
      (t.kind = .directive →
        (∃ blanks more, (∀ x ∈ blanks, Text.isXmlSpace x = true) ∧
          t.value = "<%@".toList ++ (blanks ++ ("include".toList ++ more))) ∨
        (∃ as, t.HasAttributes .page el rest as ∧
          ((as.map (·.name)).filter fun name => name != "import".toList).Nodup) ∨
        ∃ as, t.HasAttributes .library el rest as ∧ (as.map (·.name)).Nodup ∧
          "prefix".toList ∈ as.map (·.name) ∧
          ("uri".toList ∈ as.map (·.name) ↔ "tagdir".toList ∉ as.map (·.name)))) ∧
    ∀ e name, stream.failure = some (.error e) → e.cause = .duplicateAttribute name →
      let cut := stream.tokens.flatMap (·.value)
      ∃ b tag front, source = cut ++ tag ∧
        Jsp.Repeats b (stream.tokens.foldl Token.switch initial) tag front name ∧
        e.offset = some ((cut ++ front).length : Int) := by
  intro initial stream
  refine ⟨fun before t after htokens => ?_, fun e name => exists_repeats⟩
  obtain ⟨q, s, q', hbefore, hq, hsees, hcuts⟩ := exists_cutsOff htokens
  have hsettled := hbefore.settled (steady_start source initial) (settled_start source initial)
  have hel := hsettled.switch_eq
  intro el rest
  have hrest : s.stop.rest = rest := hcuts.rest_eq
  constructor
  · intro hkind
    obtain ⟨as, has, hnodup⟩ := Page.exists_tag_attributes hel hsees hcuts hkind
    rw [hrest] at has
    exact ⟨as, has, hnodup⟩
  · intro hkind
    rcases Page.exists_directive_attributes hel hsees hcuts hkind with
      hinclude | ⟨b, as, hb, has, hadmits⟩
    · exact .inl hinclude
    · rw [hrest] at has
      cases b with
      | page => exact .inr (.inl ⟨as, has, hadmits⟩)
      | library => exact .inr (.inr ⟨as, has, hadmits⟩)
      | tag => exact absurd rfl hb

/-- A tag gives two names, a directive its prefix and its address, and the next tag gives one name
twice. The names of the first tag do not count for the last one. -/
theorem attributes_distinct_until_duplicate :
    let source :=
      "<a:b x='1' y='2'/><%@ taglib prefix='p' uri='u' %><c:d x='1' x='2'/>".toList
    let tag : Token := ⟨.emptyTag, "<a:b x='1' y='2'/>".toList, 0⟩
    let directive : Token := ⟨.directive, "<%@ taglib prefix='p' uri='u' %>".toList, 18⟩
    let e : LexError :=
      { cause := .duplicateAttribute ['x'], excerpt := "x='2'/>".toList, offset := some 61,
        line := some 1, column := some 62 }
    (ofSource source {} none none).tokens = [tag, directive] ∧
      (ofSource source {} none none).failure = some (.error e) ∧
      (∃ as, tag.HasAttributes .tag true (source.drop 18) as ∧ (as.map (·.name)).Nodup) ∧
      (∃ as, directive.HasAttributes .library true (source.drop 50) as ∧
        (as.map (·.name)).Nodup ∧ "prefix".toList ∈ as.map (·.name) ∧
        ("uri".toList ∈ as.map (·.name) ↔ "tagdir".toList ∉ as.map (·.name))) ∧
      ∃ b bearing front, source = tag.value ++ directive.value ++ bearing ∧
        Jsp.Repeats b true bearing front ['x'] ∧
        ((tag.value ++ directive.value ++ front).length : Int) = 61 := by
  intro source tag directive e
  have htokens : (ofSource source {} none none).tokens = [tag, directive] := by decide +kernel
  have hfailure : (ofSource source {} none none).failure = some (.error e) := by decide +kernel
  have hstart : [tag].foldl Token.switch (none.getD ({} : Settings).elEnabled) = true := by
    decide +kernel
  have hend : [tag, directive].foldl Token.switch (none.getD ({} : Settings).elEnabled) = true := by
    decide +kernel
  obtain ⟨hcut, hduplicates⟩ := attributes_distinct source {} none none
  have htag := (hcut [] tag [directive] htokens).1 (.inr rfl)
  have hdirective := (hcut [tag] directive [] htokens).2 rfl
  have hrepeats := hduplicates e _ hfailure rfl
  rw [htokens] at hrepeats
  refine ⟨htokens, hfailure, htag, ?_, ?_⟩
  · -- behind `<%@` and white space stands `taglib`
    have hsort {blanks t u : Text} (hblanks : ∀ x ∈ blanks, Text.isXmlSpace x = true)
        (hvalue : directive.value ++ t = "<%@".toList ++ (blanks ++ u)) :
        u.head? = some ' ' ∨ u.head? = some 't' := by
      have htext : " taglib prefix='p' uri='u' %>".toList ++ t = blanks ++ u :=
        (List.append_right_inj "<%@".toList).1 hvalue
      rcases blanks with _ | ⟨x, _ | ⟨y, blanks⟩⟩
      · exact .inl (congrArg List.head? htext).symm
      · exact .inr (congrArg List.head? (List.cons.inj htext).2).symm
      · obtain rfl : 't' = y := (List.cons.inj (List.cons.inj htext).2).1
        exact absurd (hblanks 't' (by simp)) (by decide)
    rcases hdirective with ⟨blanks, more, hblanks, hvalue⟩ | ⟨as, hpage, -⟩ | hlibrary
    · rw [← List.append_nil directive.value] at hvalue
      rcases hsort hblanks hvalue with h | h <;> exact absurd h (by simp)
    · obtain ⟨_, _, ⟨_, inside, ⟨blanks, hblanks, rfl⟩, hvalue, -⟩, -⟩ := hpage
      simp only [List.append_assoc] at hvalue
      rcases hsort hblanks hvalue with h | h <;> exact absurd h (by simp)
    · rw [hstart] at hlibrary
      exact hlibrary
  · obtain ⟨b, bearing, front, hsource, hbearing, hoffset⟩ := hrepeats
    rw [hend] at hbearing
    exact ⟨b, bearing, front, hsource, hbearing, (Option.some.inj hoffset).symm⟩

end TokenStream

end Stencil
