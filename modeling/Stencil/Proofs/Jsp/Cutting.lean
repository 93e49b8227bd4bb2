import Stencil.Proofs.Jsp.Trimming

/-!
# Cutting a page off behind a token: tags and constructs

Nothing is lost when a page is cut off behind a construct (`Jsp.survives_construct`) or behind a
start tag (`Jsp.survives_actionStart`), although the values of attributes are read by trying
expressions in them that may run far past the end of the tag before they fail. These expressions are
rigid, so that what was read in their place is read again. The attributes go on as long as a name
stands behind white space, and what ends a tag is not the start of a name.
-/

set_option autoImplicit false

namespace Stencil.Jsp

open Matcher (many maybe oneOf pattern ref sequence hooked Misses)
open Text (closesConstruct)

/-- A sequence that starts with a rule takes a character, as every rule does. -/
theorem takes_sequence_ref (r : Rule) (ms : List Production) :
    Matcher.Takes rules (sequence (ref r :: ms)) := by
  intro view c stop view' hpast hends
  obtain ⟨c₁, view₁, hfirst, hothers⟩ := hends.of_sequence_cons
  obtain ⟨x, t, hleads⟩ := takes_ref r hpast hfirst
  obtain ⟨t', hleads'⟩ := hothers.moves
  exact ⟨x, t ++ t', hleads.trans hleads'⟩

/-! ## Attributes -/

section Attributes

variable {inTag : Bool} {w : Text} {n : Nat} {P : Text → Prop}

/-- A fixed text survives the cut, so that a choice with one more does if the others do. -/
theorem survives_text_or {s : String} {nonempty : s.toList ≠ []} {ms : List Production}
    (h : (trim inTag w).Survives P n (oneOf ms)) :
    (trim inTag w).Survives P n (oneOf (text s nonempty :: ms)) :=
  (Trim.survives_literal P n).oneOf_cons h (.inl (Trim.perishes_literal n))

/-- The expressions that are tried between quotes are found in front of the cut or fail there. -/
theorem survives_quotedChar : (trim inTag w).Survives (fun _ => True) n (ref .quotedChar) := by
  have hexpressions : (trim inTag w).Survives (fun _ => True) n
      (oneOf [ref .elExpression, ref .expression, ref .char]) :=
    have helExpression : (trim inTag w).Rigid n (ref .elExpression) :=
      rigid_ref (rigid_elExpression n)
    helExpression.survives.oneOf_cons
      ((rigid_expression n).survives.oneOf_cons (rigid_char n).survives.oneOf_singleton
        (.inl (rigid_expression n).perishes))
      (.inl helExpression.perishes)
  exact survives_ref (survives_text_or (survives_text_or (survives_text_or (survives_text_or
    (survives_text_or (survives_text_or (survives_text_or hexpressions)))))))

/-- A quoted value survives the cut behind its closing quote. -/
theorem survives_between {quote : String} {nonempty : quote.toList ≠ []} :
    (trim inTag w).Survives P n (between quote (ref .quotedChar) nonempty) :=
  (Trim.survives_literal _ n).sequence_cons
    (survives_quotedChar.upTo (takes_ref .quotedChar)).sequence_singleton

/-- The value of an attribute survives the cut, whether it is a runtime value or quoted. -/
theorem survives_attributeValue :
    (trim inTag w).Survives (fun _ => True) n (ref .attributeValue) := by
  have hsingle : (trim inTag w).Survives (fun _ => True) n (ref .singleQuotedValue) :=
    survives_ref survives_between
  have hdouble : (trim inTag w).Survives (fun _ => True) n (ref .doubleQuotedValue) :=
    survives_ref survives_between
  have hmisses : Misses rules (isChar '\x22') (ref .doubleQuotedValue) :=
    misses_ref (misses_between rfl)
  have hmisses' : Misses rules (isChar '\x27') (oneOf [ref .singleQuotedValue]) :=
    (misses_ref (misses_between rfl)).oneOf_cons Matcher.misses_oneOf_nil
  refine survives_ref ((rigid_runtimeValue n).survives.oneOf_cons
    (hdouble.oneOf_cons hsingle.oneOf_singleton (.inr ?_)) (.inl (rigid_runtimeValue n).perishes))
  refine Trim.excludes_of_misses hmisses' hmisses fun x hx => ?_
  simp only [isChar, beq_iff_eq] at hx
  subst hx
  rfl

/-- What stands behind white space is not the start of a name. -/
def StartsNoName (t : Text) : Prop :=
  ∀ x ∈ (t.dropWhile Text.isXmlSpace).head?, Text.isNameStart x = false

/-- White space in front of what starts no name changes nothing of that. -/
theorem startsNoName_append {blanks t : Text} (hblanks : ∀ x ∈ blanks, Text.isXmlSpace x = true)
    (ht : ∀ x ∈ t.head?, Text.isXmlSpace x = false ∧ Text.isNameStart x = false) :
    StartsNoName (blanks ++ t) := by
  rw [StartsNoName, List.dropWhile_append_of_pos hblanks]
  cases t with
  | nil => simp
  | cons x t =>
      obtain ⟨hspace, hname⟩ := ht x rfl
      rw [List.dropWhile_cons_of_neg (by simp [hspace])]
      rintro y ⟨⟩
      exact hname

/-- Where no name starts behind white space no attribute does. -/
theorem attribute_fails {m : Production} {ms : List Production} {view : View} {c : Cursor}
    (hm : Misses rules Text.isNameStart m) (hpast : c.past = 0) (h : StartsNoName c.rest) :
    (sequence (ref .space :: m :: ms)).Parses rules view c .fails := by
  have hspace : (ref .space).Parses rules view c (.ofStop view (blankRun.ahead? c)) := by
    rw [parses_ref_iff, production, Matcher.parses_pattern_iff]
    rfl
  have hother : ∀ stop view', Verdict.fails ≠ .ends stop view' := by
    intro stop view' heq
    cases heq
  rw [Matcher.parses_sequence_cons_iff]
  cases hafter : blankRun.ahead? c with
  | none =>
      rw [hafter] at hspace
      exact .inr ⟨hspace, hother⟩
  | some d =>
      rw [hafter] at hspace
      refine .inl ⟨d, view, hspace, Matcher.parses_sequence_cons_iff.2 (.inr ⟨hm ?_ ?_, hother⟩)⟩
      · obtain ⟨x, t, -, -, hleads⟩ := Cursor.leads_word hafter
        exact hleads.past_eq hpast
      · obtain ⟨front, rest, past⟩ := c
        obtain rfl : past = 0 := hpast
        cases rest with
        | nil => cases hafter
        | cons x t =>
            by_cases hx : Text.isXmlSpace x = true
            · rw [blankRun, Pattern.run1, ahead?_word hx] at hafter
              cases hafter
              rw [StartsNoName, List.dropWhile_cons_of_pos hx] at h
              exact h
            · simp [blankRun, Pattern.ahead?, Pattern.run1, Pattern.word, hx] at hafter

/-- The attributes of one kind of tag, in front of a text with which no attribute starts. -/
theorem survives_attributes {r : Rule}
    (hattribute : (trim inTag w).Survives (fun _ => True) n (ref r))
    (hfails : ∀ view c, c.past = 0 → StartsNoName c.rest → (ref r).Parses rules view c .fails) :
    (trim inTag w).Survives StartsNoName n (many (ref r)) :=
  hattribute.many (takes_ref r) hfails

/-- An attribute survives the cut if its name never comes as far as the cut. -/
theorem survives_named {m : Production} (hm : (trim inTag w).Tame m) (ht : Matcher.Takes rules m) :
    (trim inTag w).Survives (fun _ => True) n
      (sequence [ref .space, m, ref .eq, ref .attributeValue]) :=
  (rigid_space n).survives.sequence_cons ((hm.survives ht _ n).sequence_cons
    ((survives_eq n).sequence_cons survives_attributeValue.sequence_singleton))

end Attributes

/-! ## Directives -/

section Directives

variable {w : Text} {n : Nat}

/-- The directive for inclusion survives the cut if no name could follow. -/
theorem survives_includeDirective :
    (trim false w).Survives StartsNoName n (ref .includeDirective) := by
  refine survives_ref ?_
  exact (Trim.survives_literal _ n).sequence_cons ((rigid_space n).survives.sequence_cons
    ((Trim.survives_literal _ n).sequence_cons ((survives_eq n).sequence_cons
      (survives_attributeValue.weaken fun _ _ => trivial).sequence_singleton)))

/-- A fixed text that starts like a name and does not hold what may stand in front of a cut. -/
def IsFixedName (m : Production) : Prop :=
  ∃ s nonempty, m = text s nonempty ∧ s.toList.all (fun x => !closesConstruct x) = true ∧
    s.toList.head?.any Text.isNameStart = true

/-- A choice among fixed names never comes as far as the cut. -/
theorem tame_names {names : List Production} (h : ∀ m ∈ names, IsFixedName m) :
    (trim true w).Tame (oneOf names) := by
  refine Trim.tame_oneOf fun m hm => ?_
  obtain ⟨s, nonempty, rfl, hclosed, -⟩ := h m hm
  exact tame_text s nonempty hclosed

/-- A choice among fixed names fails where no name starts. -/
theorem misses_names {names : List Production} (h : ∀ m ∈ names, IsFixedName m) :
    Misses rules Text.isNameStart (oneOf names) := by
  induction names with
  | nil => exact Matcher.misses_oneOf_nil
  | cons m names ih =>
      rw [List.forall_mem_cons] at h
      obtain ⟨⟨s, nonempty, rfl, -, hfirst⟩, hnames⟩ := h
      exact (misses_text hfirst).oneOf_cons (ih hnames)

/-- The attributes of a page directive have fixed names. -/
theorem isFixedName_pageAttributeNames : ∀ m ∈ pageAttributeNames, IsFixedName m := by
  simp only [pageAttributeNames, List.forall_mem_cons]
  and_intros <;> first | exact ⟨_, _, rfl, by decide, by decide⟩ | simp

/-- The attributes of a library directive have fixed names. -/
theorem isFixedName_taglibAttributeNames : ∀ m ∈ taglibAttributeNames, IsFixedName m := by
  simp only [taglibAttributeNames, List.forall_mem_cons]
  and_intros <;> first | exact ⟨_, _, rfl, by decide, by decide⟩ | simp

/-- A value of the switch never comes as far as the cut. -/
theorem tame_isElIgnoredValue : (trim true w).Tame (ref .isElIgnoredValue) := by
  have hvalue (on : Bool) {s s' : String} {hs : s.toList ≠ []} {hs' : s'.toList ≠ []}
      (h : s.toList.all fun x => !closesConstruct x)
      (h' : s'.toList.all fun x => !closesConstruct x) :
      (trim true w).Tame (hooked [] [switchEl on] (oneOf [text s hs, text s' hs'])) :=
    ((tame_text s hs h).oneOf_cons ((tame_text s' hs' h').oneOf_cons Trim.tame_oneOf_nil)).hooked
      (keeps_switchEl on)
  exact tame_ref ((hvalue false (by decide) (by decide)).oneOf_cons
    ((hvalue true (by decide) (by decide)).oneOf_cons Trim.tame_oneOf_nil))

/-- The name of an attribute of a page directive never comes as far as the cut. -/
theorem tame_pageAttributeName : (trim true w).Tame (ref .pageAttributeName) :=
  tame_ref ((tame_names isFixedName_pageAttributeNames).hooked keeps_recordPageAttributeName)

/-- No attribute of a page directive is named where no name starts. -/
theorem misses_pageAttributeName : Misses rules Text.isNameStart (ref .pageAttributeName) :=
  misses_ref ((misses_names isFixedName_pageAttributeNames).hooked _ _)

/-- The name of an attribute of a library directive never comes as far as the cut. -/
theorem tame_taglibAttributeName : (trim true w).Tame (ref .taglibAttributeName) :=
  tame_ref ((tame_names isFixedName_taglibAttributeNames).hooked keeps_recordAttributeName)

/-- No attribute of a library directive is named where no name starts. -/
theorem misses_taglibAttributeName : Misses rules Text.isNameStart (ref .taglibAttributeName) :=
  misses_ref ((misses_names isFixedName_taglibAttributeNames).hooked _ _)

/-- The switch of the expression language is tried first. It never comes as far as the cut, so that
another attribute is tried in front of the cut exactly where it was tried before. -/
theorem survives_pageAttribute : (trim true w).Survives (fun _ => True) n (ref .pageAttribute) := by
  have hswitch : (trim true w).Tame
      (sequence
        [ref .space, hooked [] [recordPageAttributeName] (text "isELIgnored"), ref .eq,
          ref .isElIgnoredValue]) :=
    tame_space.sequence_cons (((tame_text "isELIgnored" (by decide) (by decide)).hooked
      keeps_recordPageAttributeName).sequence_cons (tame_eq.sequence_cons
        (tame_isElIgnoredValue.sequence_cons Trim.tame_sequence_nil)))
  have hrigid := hswitch.rigid (takes_sequence_ref .space _) (misses_space.sequence_cons _) n
  have hnamed := survives_named (n := n) (tame_pageAttributeName (w := w)) (takes_ref _)
  exact survives_ref (hrigid.survives.oneOf_cons
    hnamed.oneOf_singleton (.inl hrigid.perishes))

/-- Where no name starts behind white space a page directive has no further attribute. -/
theorem pageAttribute_fails (view : View) (c : Cursor) (hpast : c.past = 0)
    (h : StartsNoName c.rest) : (ref .pageAttribute).Parses rules view c .fails := by
  have hswitch : Misses rules Text.isNameStart
      (hooked [] [recordPageAttributeName] (text "isELIgnored")) :=
    Matcher.Misses.hooked (misses_text (by decide)) _ _
  rw [parses_ref_iff, production, Matcher.parses_oneOf_cons_iff]
  refine .inl ⟨attribute_fails hswitch hpast h, Matcher.parses_oneOf_cons_iff.2 (.inl ?_)⟩
  exact ⟨attribute_fails misses_pageAttributeName hpast h, Matcher.parses_oneOf_nil_iff.2 rfl⟩

/-- A page directive survives the cut if no further attribute could follow. -/
theorem survives_pageDirective :
    (trim false w).Survives StartsNoName n (ref .pageDirective) := by
  have hbody : (trim true w).Survives StartsNoName n
      (sequence [text "page", many (ref .pageAttribute)]) :=
    (Trim.survives_literal _ n).sequence_cons
      (survives_attributes survives_pageAttribute pageAttribute_fails).sequence_singleton
  exact survives_ref (Trim.Survives.hooked hbody (keeps_resetAttributeNames keeps_nil))

/-- A library directive survives the cut if no further attribute could follow. -/
theorem survives_taglibDirective :
    (trim false w).Survives StartsNoName n (ref .taglibDirective) := by
  have hattribute : (trim true w).Survives (fun _ => True) n (ref .taglibAttribute) :=
    survives_ref (survives_named tame_taglibAttributeName (takes_ref _))
  have hfails (view : View) (c : Cursor) (hpast : c.past = 0) (h : StartsNoName c.rest) :
      (ref .taglibAttribute).Parses rules view c .fails := by
    rw [parses_ref_iff]
    exact attribute_fails misses_taglibAttributeName hpast h
  have hbody : (trim true w).Survives StartsNoName n
      (sequence [text "taglib", many (ref .taglibAttribute)]) :=
    (Trim.survives_literal _ n).sequence_cons
      (survives_attributes hattribute hfails).sequence_singleton
  exact survives_ref (Trim.Survives.hooked hbody
    (keeps_resetAttributeNames keeps_checkTaglibAttributes))

/-- White space that may be missing leads over white space alone. -/
theorem leads_maybe_space {view view' : View} {c d : Cursor}
    (h : (maybe (ref .space)).Parses rules view c (.ends d view')) :
    ∃ blanks, (∀ x ∈ blanks, Text.isXmlSpace x = true) ∧ c.Leads blanks d := by
  rcases Matcher.parses_maybe_iff.1 h with ⟨-, heq⟩ | ⟨h, -⟩
  · cases heq
    exact ⟨[], by simp, .refl _⟩
  · rw [parses_ref_iff, production, Matcher.parses_pattern_iff, Matcher.ofStop_eq_ends_iff] at h
    obtain ⟨x, t, hx, ht, hleads⟩ := Cursor.leads_word h.1
    exact ⟨x :: t, List.forall_mem_cons.2 ⟨hx, ht⟩, hleads⟩

/-- A directive survives a cut behind its closing bracket. -/
theorem survives_directive :
    (trim false w).Survives (fun _ => True) n (production .directive) := by
  have hinclude : Misses rules (isChar 'i') (ref .includeDirective) :=
    misses_ref ((misses_text rfl).sequence_cons _)
  have hpage : Misses rules (isChar 'p') (ref .pageDirective) :=
    misses_ref (((misses_text rfl).sequence_cons _).hooked _ _)
  have htaglib : Misses rules (isChar 't') (oneOf [ref .taglibDirective]) :=
    (misses_ref (((misses_text rfl).sequence_cons _).hooked _ _)).oneOf_cons
      Matcher.misses_oneOf_nil
  have hothers : Misses rules (fun x => x == 'p' || x == 't')
      (oneOf [ref .pageDirective, ref .taglibDirective]) :=
    (hpage.mono fun x hx => by simp_all [isChar]).oneOf_cons
      (htaglib.mono fun x hx => by simp_all [isChar])
  have hsorts (k : Nat) : (trim false w).Survives StartsNoName k
      (oneOf [ref .includeDirective, ref .pageDirective, ref .taglibDirective]) := by
    refine survives_includeDirective.oneOf_cons (survives_pageDirective.oneOf_cons
      survives_taglibDirective.oneOf_singleton (.inr ?_)) (.inr ?_)
    · refine Trim.excludes_of_misses htaglib hpage fun x hx => ?_
      simp only [isChar, beq_iff_eq] at hx
      subst hx
      rfl
    · refine Trim.excludes_of_misses hothers hinclude fun x hx => ?_
      simp only [Bool.or_eq_true, beq_iff_eq] at hx
      rcases hx with rfl | rfl <;> rfl
  have hclose (k : Nat) : (trim false w).Survives (fun _ => True) k
      (sequence [maybe (ref .space), ref .close]) :=
    (survives_maybe_space k).sequence_cons
      (survives_ref (Trim.survives_literal _ k)).sequence_singleton
  refine (survives_ref (Trim.survives_literal _ n)).sequence_cons
    ((survives_maybe_space n).sequence_cons ((hsorts n).sequence_cons_of
      (fun k _ _ => hclose k) ?_))
  -- white space and the end of the directive follow the attributes
  intro view c stop left r r' hends hc hstop _
  obtain ⟨c₁, view₁, hspace, hends⟩ := hends.of_sequence_cons
  obtain ⟨blanks, hblanks, hleads⟩ := leads_maybe_space hspace
  have hclose : (ref .close).Parses rules view₁ c₁ (.ends stop left) :=
    Matcher.parses_sequence_singleton_iff.1 hends
  rw [parses_ref_iff] at hclose
  have hrest := (hleads.trans (Matcher.leads_of_parses_literal hclose)).rest_eq
  have hr : r = blanks ++ ("%>".toList ++ r') := by
    apply (List.append_left_inj w).1
    rw [show w = (trim false w).behind from rfl, ← hc, hrest, hstop]
    simp
  rw [hr]
  refine startsNoName_append hblanks ?_
  rintro x ⟨⟩
  exact ⟨by decide, by decide⟩

end Directives

/-! ## Custom tags -/

section Tags

variable {inTag : Bool} {w : Text} {n : Nat}

/-- The end tag of a name survives the cut. -/
theorem survives_closer (name : Text) (nonempty : name ≠ []) :
    (trim inTag w).Survives (fun _ => True) n (closer name nonempty (rule .space)) := by
  have hrigid : (trim inTag w).Rigid n (rule .space) :=
    tame_blankRun.labelled.rigid (Matcher.takes_of_not_nullable (not_nullable_rule .space))
      (Matcher.misses_word.labelled _) n
  have hspace : (trim inTag w).Survives (fun _ => True) n (maybe (rule .space)) :=
    hrigid.survives.maybe (.inl hrigid.perishes)
  exact ((Trim.survives_literal _ n).sequence_cons ((Trim.survives_literal _ n).sequence_cons
    (hspace.sequence_cons (Trim.survives_literal _ n).sequence_singleton))).labelled

/-- The bracket of a start tag is found in front of the cut if the name behind it is. -/
theorem survives_actionStartDelimiter :
    (trim inTag w).Survives (fun r => Text.startsQName r = true) n (ref .actionStartDelimiter) := by
  refine survives_ref ?_
  intro view view' c c' stop left r halike hat hlength hends hrest hr
  rw [production, Matcher.parses_pattern_iff, Matcher.ofStop_eq_ends_iff] at hends
  obtain ⟨hafter, rfl⟩ := hends
  obtain ⟨stop', rfl, hleads', hat'⟩ := hat.leads (Cursor.leads_textBefore (by decide) hafter) hrest
  refine ⟨stop', view', rfl, hat', halike, ?_⟩
  have hnonempty : "<".toList ≠ [] := by decide
  have hstands := stands_textBefore "<" hnonempty Text.startsQName view' c'
  have hcut : c'.rest = '<' :: stop'.rest := hleads'.rest_eq
  unfold Stands at hstands
  rw [if_pos (by simpa [hcut] using hr)] at hstands
  obtain ⟨stop'', hends'⟩ := hstands
  have hleads'' := Cursor.leads_textBefore (by decide)
    (Matcher.ofStop_eq_ends_iff.1 (Matcher.parses_pattern_iff.1 hends')).1
  obtain rfl : stop'' = stop' := hleads''.stop_eq hleads' hat.past_eq'
  exact hends'

/-- The name of a tag never comes as far as the cut. -/
theorem tame_actionName : (trim true w).Tame (ref .actionName) :=
  tame_ref ((tame_qName.sequence_cons Trim.tame_sequence_nil).hooked keeps_captureTagName)

/-- Where no name starts behind white space a tag has no further attribute. -/
theorem actionAttribute_fails (view : View) (c : Cursor) (hpast : c.past = 0)
    (h : StartsNoName c.rest) : (ref .actionAttribute).Parses rules view c .fails := by
  have hname : Misses rules Text.isNameStart (ref .actionAttributeName) :=
    misses_ref (Matcher.misses_word.hooked _ _)
  rw [parses_ref_iff]
  exact attribute_fails hname hpast h

/-- The attributes of a tag survive the cut if no further one could follow. -/
theorem survives_actionAttributes :
    (trim true w).Survives StartsNoName n (ref .actionAttributes) := by
  have hname : (trim true w).Tame (ref .actionAttributeName) :=
    tame_ref ((Trim.tame_word (not_closes (by decide) (by decide))
      (not_closes (by decide) (by decide))).hooked keeps_recordAttributeName)
  have hattribute : (trim true w).Survives (fun _ => True) n (ref .actionAttribute) :=
    survives_ref (survives_named hname (takes_ref _))
  exact survives_ref (survives_attributes hattribute actionAttribute_fails)

/-- What may follow a start tag that is read up to the bracket or slash that ends it. -/
def EndsTag (t : Text) : Prop :=
  ∀ x ∈ t.head?, Text.isXmlSpace x = false ∧ Text.isNameStart x = false

/-- A start tag without its end survives a cut behind that end. -/
theorem survives_actionStart : (trim false w).Survives EndsTag n (rule .actionStart) := by
  have hspace (k : Nat) : (trim true w).Survives EndsTag k (sequence [maybe (ref .space)]) :=
    ((survives_maybe_space k).weaken fun _ _ => trivial).sequence_singleton
  have hattributes (k : Nat) : (trim true w).Survives EndsTag k
      (sequence [maybe (ref .actionAttributes), maybe (ref .space)]) := by
    have hmaybe : (trim true w).Survives StartsNoName k (maybe (ref .actionAttributes)) :=
      survives_actionAttributes.maybe (.inr fun view c hpast h => by
        rw [show (trim true w).rules = rules from rfl, parses_ref_iff]
        exact Matcher.parses_many_fails (takes_ref .actionAttribute) hpast
          (actionAttribute_fails view c hpast h))
    refine hmaybe.sequence_cons_of (fun k _ _ => hspace k) ?_
    intro view c stop left r r' hends hc hstop hr'
    obtain ⟨blanks, hblanks, hleads⟩ :=
      leads_maybe_space (Matcher.parses_sequence_singleton_iff.1 hends)
    have hr : r = blanks ++ r' := by
      apply (List.append_left_inj w).1
      rw [show w = (trim true w).behind from rfl, ← hc, hleads.rest_eq, hstop, List.append_assoc]
    rw [hr]
    exact startsNoName_append hblanks hr'
  have hname (k : Nat) : (trim true w).Survives EndsTag k
      (sequence [ref .actionName, maybe (ref .actionAttributes), maybe (ref .space)]) :=
    (tame_actionName.survives (takes_ref .actionName) _ k).sequence_cons (hattributes k)
  have hbody : (trim true w).Survives EndsTag n
      (sequence
        [ref .actionStartDelimiter, ref .actionName, maybe (ref .actionAttributes),
          maybe (ref .space)]) := by
    refine survives_actionStartDelimiter.sequence_cons_of (fun k _ _ => hname k) ?_
    intro view c stop left r r' hends hc hstop hr'
    obtain ⟨c₁, view₁, hname, hothers⟩ := hends.of_sequence_cons
    have hname : (ref .actionName).Parses rules view c (.ends c₁ view₁) := hname
    rw [parses_ref_iff, production, Matcher.parses_hooked_ends_iff] at hname
    obtain ⟨view₂, hname, -⟩ := hname
    obtain ⟨-, name, hisName, hleads⟩ :=
      leads_qName (Matcher.parses_sequence_singleton_iff.1 hname)
    obtain ⟨behind, hleads'⟩ := hothers.moves
    have hr : r = name ++ (behind ++ r') := by
      apply (List.append_left_inj w).1
      rw [show w = (trim true w).behind from rfl, ← hc, (hleads.trans hleads').rest_eq, hstop]
      simp
    exact Text.startsQName_iff.2 ⟨name, behind ++ r', hisName, hr⟩
  exact (Trim.Survives.hooked hbody (keeps_resetAttributeNames keeps_nil)).labelled

end Tags

/-! ## Constructs -/

section Constructs

variable {w : Text} {n : Nat}

/-- The marker of the portlet namespace survives the cut. -/
theorem survives_portletNamespace :
    (trim false w).Survives (fun _ => True) n (production .portletNamespace) := by
  refine Trim.survives_pattern (p := portletMarker) _ n ?_
  intro front front' t u v hwidth
  obtain ⟨blanks, rest, hblanks, heq, hlen⟩ := portletMarker_width_iff.1 hwidth
  obtain ⟨rfl, -⟩ := List.append_inj heq hlen
  exact portletMarker_width_iff.2 ⟨blanks, u, hblanks, rfl, rfl⟩

/-- A construct that is told by its delimiter is found again if the page is cut off behind it. -/
theorem survives_construct {e : Construct Rule} (he : e ∈ constructs) :
    (trim false w).Survives (fun _ => True) n (rule e.whole) := by
  simp only [constructs, List.mem_cons, List.not_mem_nil, or_false] at he
  apply Trim.Survives.labelled
  rcases he with rfl | rfl | rfl | rfl | rfl | rfl | rfl
  · exact (rigid_script rfl (by decide)).survives
  · exact survives_directive
  · exact (rigid_script rfl (by decide)).survives
  · exact (rigid_script rfl (by decide)).survives
  · exact (rigid_script rfl (by decide)).survives
  · exact (rigid_elExpression n).survives
  · exact survives_portletNamespace

end Constructs

end Stencil.Jsp
