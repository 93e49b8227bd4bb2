import Stencil.Proofs.Jsp.Attributes
import Stencil.Proofs.Matcher.Plain

/-!
# How an attribute is recorded

Attributes stand in page directives, library directives and custom tags (`Jsp.Bearer`). In each of
them an attribute is white space, a name that is recorded, an equality sign and a value. What
reading one comes to is said by `Jsp.ReadsAttribute`: its name was not recorded before and is
recorded now, or it was and the name is found to be a duplicate where it starts, or the reading
fails and nothing is recorded (`Jsp.readsAttribute`).

A page directive tries each attribute twice if it is not one that sets the switch of the expression
language. The first try records `isELIgnored`, and the record is lost when it fails at the value.
-/

set_option autoImplicit false

namespace Stencil.Jsp

open Matcher (hooked many maybe oneOf pattern ref sequence)

variable {view left : View} {c d : Cursor} {el : Bool} {m : Production} {verdict : Verdict}

/-! ## Rules without hooks -/

/-- The rules that record something, and those that refer to them. -/
def recordingRules : List Rule :=
  [.isElIgnoredValue, .pageAttributeName, .pageAttribute, .pageDirective, .taglibAttributeName,
    .taglibAttribute, .taglibDirective, .directive, .actionAttributeName, .actionAttribute,
    .actionAttributes, .actionName, .actionStart]

/-- A rule that records nothing. -/
def IsPlain (r : Rule) : Prop := r ∉ recordingRules

instance (r : Rule) : Decidable (IsPlain r) := inferInstanceAs (Decidable (r ∉ recordingRules))

/-- A map in which the expression language is on, or off. -/
def Switched (el : Bool) (view : View) : Prop := elEnabled.holds view = el

/-- Whether the expression language is on is answered alike by maps in which it is on, and by maps
in which it is off. -/
theorem plain_elEnabled : elEnabled.Plain (Switched el) :=
  ⟨onlyAsks_elEnabled, fun _ _ h h' => h'.trans h.symm⟩

/-- What a rule matches is plain if the rule records nothing. -/
theorem plain_production {r : Rule} (h : IsPlain r) :
    (production r).Plain (Switched el) IsPlain := by
  cases r <;>
    simp [production, between, text, elChar, plainRun, loneBracket, loneMark, Pattern.char,
      Pattern.run1, Matcher.Plain, Matcher.AllPlain, IsPlain, recordingRules, plain_elEnabled,
      Pattern.looksAhead_charBefore, Pattern.looksAhead_word, Pattern.looksAhead_textBefore,
      Pattern.looksAhead_around] at h ⊢

/-- The rules that record nothing refer to each other alone, and have no hooks. -/
theorem plain_rules (r : Rule) (body : Production) (hr : IsPlain r)
    (hbody : rules.body r = some body) : body.Plain (Switched el) IsPlain := by
  cases hbody
  rw [rule, Matcher.Plain]
  exact plain_production hr

/-- What records nothing finds nothing wrong. -/
theorem not_faults_of_plain (hm : m.Plain (Switched (elEnabled.holds view)) IsPlain)
    (hpast : c.past = 0) (f : Fault) : ¬m.Parses rules view c (.faults f) :=
  hm.not_faults plain_rules rfl hpast f

/-- What records nothing leaves the map as it is. -/
theorem view_eq_of_plain (hm : m.Plain (Switched (elEnabled.holds view)) IsPlain)
    (hpast : c.past = 0) (h : m.Parses rules view c (.ends d left)) : left = view := by
  obtain ⟨t, hleads⟩ := h.moves
  have hlevel : c.Level c := ⟨rfl, hpast, hpast⟩
  exact (hm.elsewhere plain_rules rfl rfl hlevel h hleads).1

/-- A value is read off the text behind it, and reading it leaves the map as it is. -/
theorem value?_of_parses (hel : elEnabled.holds view = el) (hpast : c.past = 0)
    (h : (ref .attributeValue).Parses rules view c (.ends d left)) :
    left = view ∧ ∃ x v, isQuote x = true ∧ c.Leads (x :: v) d ∧
      value? el (x :: v ++ d.rest) = some (x :: v) := by
  obtain ⟨x, v, hquote, hleads⟩ := startsWith_attributeValue h
  have hplain : (ref .attributeValue : Production).Plain (Switched el) IsPlain := by
    simp [Matcher.Plain, IsPlain, recordingRules]
  have hview : Switched el (Store.view { base := [(elEnabledKey, .flag el)] }) := by
    cases el <;> rfl
  have hlevel : c.Level ⟨[], c.rest, 0⟩ := ⟨rfl, hpast, rfl⟩
  obtain ⟨hleft, d', hleads', h'⟩ := hplain.elsewhere plain_rules hel hview hlevel h hleads
  have hvalue : (rule .attributeValue).Parses rules
      (Store.view { base := [(elEnabledKey, .flag el)] }) ⟨[], c.rest, 0⟩ (.ends d' _) :=
    Matcher.parses_labelled_iff.2 (parses_ref_iff.1 h')
  refine ⟨hleft, x, v, hquote, hleads, ?_⟩
  rw [← hleads.rest_eq, value?, textAt_of_parses hvalue hleads']

/-! ## What bears attributes -/

/-- What bears attributes: a page directive, a library directive, or the start tag of a custom
action. -/
inductive Bearer where
  | page | library | tag
  deriving DecidableEq

namespace Bearer

/-- The rule for one of the attributes. -/
def attributeRule : Bearer → Rule
  | page => .pageAttribute
  | library => .taglibAttribute
  | tag => .actionAttribute

/-- Whether a name may be given once only. -/
def isUnique : Bearer → Text → Bool
  | page, name => name != "import".toList
  | _, _ => true

/-- The hook that records names. -/
def record : Bearer → MatchHook
  | page => recordPageAttributeName
  | _ => recordAttributeName

/-- What an attribute makes of the switch of the expression language. -/
def switch : Bearer → Bool → Attribute → Bool
  | page, el, a => a.switch el
  | _, el, _ => el

/-- The recorded names with one more name, which is recorded if it may be given once only. -/
def recorded (b : Bearer) (name : Text) (names : List Text) : List Text :=
  if b.isUnique name then names ++ [name] else names

/-- A bearer records the names that may be given once only, and no others. -/
theorem record_eq (b : Bearer) (name : Text) (view : View) :
    b.record name view = if b.isUnique name then recordAttributeName name view else ([], none) := by
  cases b with
  | page =>
      -- the two branches stand the other way round
      simp only [record, recordPageAttributeName, isUnique, bne_iff_ne, ne_eq, ite_not]
  | library | tag => rfl

end Bearer

variable {b : Bearer}

/-! ## Names -/

/-- A matcher that records nothing and reads names of attributes. -/
structure IsNameReader (m : Production) : Prop where
  plain : ∀ el, m.Plain (Switched el) IsPlain
  leads : ∀ {view c d left}, m.Parses rules view c (.ends d left) →
    ∃ name, c.Leads name d ∧ name ≠ [] ∧ ∀ x ∈ name, isAttributeNameChar x = true

/-- What reading the name of an attribute comes to: the name is new and recorded, or the reading
fails, or the name is found to be recorded before. -/
inductive ReadsName (b : Bearer) (view : View) (c : Cursor) : Verdict → Prop
  | ends {name : Text} {d : Cursor} {left : View} (hleads : c.Leads name d) (nonempty : name ≠ [])
      (hchars : ∀ x ∈ name, isAttributeNameChar x = true)
      (hnew : b.isUnique name = true → name ∉ attributeNames view)
      (hnames : attributeNames left = b.recorded name (attributeNames view))
      (hswitch : left elEnabledKey = view elEnabledKey) : ReadsName b view c (.ends d left)
  | fails : ReadsName b view c .fails
  | faults {name rest : Text} (hrest : c.rest = name ++ rest) (hunique : b.isUnique name = true)
      (hold : name ∈ attributeNames view) :
      ReadsName b view c (.faults ⟨.duplicateAttribute name, c.position⟩)

/-- The recorded names are what was put there last. -/
theorem attributeNames_set (names : List Text) :
    attributeNames (view.edits [.set attributeNamesKey (.names names)]) = names := by
  simp [attributeNames, View.edits, View.edit, Value.members]

/-- Recording names leaves the switch of the expression language alone. -/
theorem switch_set (names : List Text) :
    view.edits [.set attributeNamesKey (.names names)] elEnabledKey = view elEnabledKey := by
  simp [View.edits, View.edit, attributeNamesKey, elEnabledKey]

/-- A name that is recorded without complaint was new. -/
theorem ok_of_record {name : Text} {position : Nat}
    (h : view.leave name position [b.record] = .ok left) :
    (b.isUnique name = true → name ∉ attributeNames view) ∧
      attributeNames left = b.recorded name (attributeNames view) ∧
      left elEnabledKey = view elEnabledKey := by
  rw [View.leave, b.record_eq, recordAttributeName] at h
  unfold Bearer.recorded
  cases hunique : b.isUnique name with
  | false =>
      simp only [hunique] at h
      cases h
      exact ⟨fun h => absurd h Bool.false_ne_true, rfl, rfl⟩
  | true =>
      by_cases hold : name ∈ attributeNames view
      · simp [hunique, hold] at h
      · simp only [hunique, hold, List.contains_eq_mem, decide_false] at h
        cases h
        exact ⟨fun _ => hold, attributeNames_set _, switch_set _⟩

/-- A name that is complained about was recorded before, and the complaint points at it. -/
theorem error_of_record {name : Text} {position : Nat} {f : Fault}
    (h : view.leave name position [b.record] = .error f) :
    b.isUnique name = true ∧ name ∈ attributeNames view ∧
      f = ⟨.duplicateAttribute name, position⟩ := by
  rw [View.leave, b.record_eq, recordAttributeName] at h
  cases hunique : b.isUnique name with
  | false => simp [hunique, View.leave] at h
  | true =>
      by_cases hold : name ∈ attributeNames view
      · simp only [hunique, hold, List.contains_eq_mem, decide_true] at h
        cases h
        exact ⟨rfl, hold, rfl⟩
      · simp [hunique, hold, View.leave] at h

/-- A reader of names with the hook behind it reads a name and records it. -/
theorem readsName (hm : IsNameReader m) (hpast : c.past = 0)
    (h : (hooked [] [b.record] m).Parses rules view c verdict) : ReadsName b view c verdict := by
  have hbody {d : Cursor} {left : View} (hends : m.Parses rules view c (.ends d left)) :
      left = view ∧ ∃ name, c.Leads name d ∧ c.upTo d = name ∧ name ≠ [] ∧
        ∀ x ∈ name, isAttributeNameChar x = true := by
    obtain ⟨name, hleads, hname⟩ := hm.leads hends
    exact ⟨view_eq_of_plain (hm.plain _) hpast hends, name, hleads, hleads.upTo_eq hpast, hname⟩
  cases verdict with
  | fails => exact .fails
  | ends d left =>
      obtain ⟨view', hends, hleave⟩ := Matcher.parses_hooked_ends_iff.1 h
      obtain ⟨rfl, name, hleads, htext, nonempty, hchars⟩ := hbody hends
      rw [htext] at hleave
      obtain ⟨hnew, hnames, hswitch⟩ := ok_of_record hleave
      exact .ends hleads nonempty hchars hnew hnames hswitch
  | faults f =>
      rcases Matcher.parses_hooked_faults_iff.1 h with hfaults | ⟨d, view', hends, hleave⟩
      · exact absurd hfaults (not_faults_of_plain (hm.plain _) hpast f)
      · obtain ⟨rfl, name, hleads, htext, nonempty, hchars⟩ := hbody hends
        rw [htext] at hleave
        obtain ⟨hunique, hold, rfl⟩ := error_of_record hleave
        exact .faults hleads.rest_eq hunique hold

/-! ## Matchers of names -/

/-- The names of the attributes of a directive hold no white space and no equality sign. -/
theorem pageAttributeNames_chars : ∀ m ∈ pageAttributeNames, ∃ s nonempty, m = text s nonempty ∧
    s.toList.all isAttributeNameChar = true := by
  simp only [pageAttributeNames, List.forall_mem_cons]
  and_intros <;> first | exact ⟨_, _, rfl, by decide⟩ | simp

/-- The names of a library directive are fixed, and their characters may stand in names. -/
theorem taglibAttributeNames_chars : ∀ m ∈ taglibAttributeNames, ∃ s nonempty,
    m = text s nonempty ∧ s.toList.all isAttributeNameChar = true := by
  simp only [taglibAttributeNames, List.forall_mem_cons]
  and_intros <;> first | exact ⟨_, _, rfl, by decide⟩ | simp

/-- Nor does any other name. -/
theorem isAttributeNameChar_of_isNameChar {x : Char} (h : Text.isNameChar x = true) :
    isAttributeNameChar x = true := by
  have hcode : 0x2d ≤ x.toNat ∧ x.toNat ≠ 0x3d := by
    simp only [Text.isNameChar, Text.nameCharRanges, Text.ncNameCharRanges, Text.ncNameStartRanges,
      Text.letterRanges, Text.digitRanges, Text.combiningRanges, Text.extenderRanges,
      CodeRanges.has, List.cons_append, List.nil_append, List.any_cons, List.any_nil,
      Bool.or_false, Bool.or_eq_true, Bool.and_eq_true, decide_eq_true_eq] at h
    omega
  have hspace : Text.isXmlSpace x = false := by
    rw [← Bool.not_eq_true]
    intro hspace
    simp only [Text.isXmlSpace, Text.xmlSpaceRanges, CodeRanges.has, List.any_cons, List.any_nil,
      Bool.or_false, Bool.or_eq_true, Bool.and_eq_true, decide_eq_true_eq] at hspace
    omega
  have hequal : x ≠ '=' := by
    rintro rfl
    exact hcode.2 rfl
  simp [isAttributeNameChar, hspace, hequal]

/-- What may start a name may stand in it. -/
theorem isNameChar_of_isNameStart {x : Char} (h : Text.isNameStart x = true) :
    Text.isNameChar x = true := by
  simp only [Text.isNameStart, Text.nameStartRanges, Text.isNameChar, Text.nameCharRanges,
    Text.ncNameCharRanges, CodeRanges.has, List.any_cons, List.any_append, Bool.or_eq_true] at h ⊢
  tauto

/-- A fixed text reads a name. -/
theorem isNameReader_text {s : String} {nonempty : s.toList ≠ []}
    (h : s.toList.all isAttributeNameChar = true) : IsNameReader (text s nonempty) where
  plain _ := trivial
  leads hends := ⟨_, Matcher.leads_of_parses_literal hends, nonempty, List.all_eq_true.1 h⟩

/-- A choice among fixed texts reads a name. -/
theorem isNameReader_oneOf {names : List Production} (h : ∀ m ∈ names, ∃ s nonempty,
    m = text s nonempty ∧ s.toList.all isAttributeNameChar = true) :
    IsNameReader (oneOf names) where
  plain el := Matcher.allPlain_iff.2 fun m hm => by
    obtain ⟨s, nonempty, rfl, -⟩ := h m hm
    trivial
  leads hends := by
    obtain ⟨m, hm, hname⟩ := hends.exists_choice
    obtain ⟨s, nonempty, rfl, hchars⟩ := h m hm
    exact (isNameReader_text hchars).leads hname

/-- A word reads a name. -/
theorem isNameReader_word :
    IsNameReader (pattern (.word "name" Text.isNameStart Text.isNameChar)) where
  plain _ := Pattern.looksAhead_word _ _ _
  leads hends := by
    rw [Matcher.parses_pattern_iff, Matcher.ofStop_eq_ends_iff] at hends
    obtain ⟨x, t, hx, ht, hleads⟩ := Cursor.leads_word hends.1
    refine ⟨x :: t, hleads, List.cons_ne_nil _ _, List.forall_mem_cons.2 ⟨?_, fun y hy => ?_⟩⟩
    · exact isAttributeNameChar_of_isNameChar (isNameChar_of_isNameStart hx)
    · exact isAttributeNameChar_of_isNameChar (ht y hy)

/-! ## Attributes -/

/-- What reading a value comes to. -/
inductive ReadsValue (el : Bool) (view : View) (c : Cursor) : Verdict → Prop
  | ends {x : Char} {v : Text} {d : Cursor} {left : View} (hquote : isQuote x = true)
      (hleads : c.Leads (x :: v) d) (hvalue : value? el (x :: v ++ d.rest) = some (x :: v))
      (hnames : attributeNames left = attributeNames view) : ReadsValue el view c (.ends d left)
  | fails : ReadsValue el view c .fails

/-- What reading an attribute comes to: it is the attribute with which the text starts, and its name
is new and recorded; or the reading fails; or the name behind the white space is found to be
recorded before. -/
inductive ReadsAttribute (b : Bearer) (el : Bool) (view : View) (c : Cursor) : Verdict → Prop
  | ends {u : Text} {a : Attribute} {d : Cursor} {left : View}
      (hblank : c.rest.head?.any Text.isXmlSpace = true) (hleads : c.Leads u d)
      (hvalue : value? el (a.value ++ d.rest) = some a.value)
      (hattribute : ∀ rest, value? el (a.value ++ rest) = some a.value →
        attribute? el (u ++ rest) = some (a, rest))
      (hnew : b.isUnique a.name = true → a.name ∉ attributeNames view)
      (hnames : attributeNames left = b.recorded a.name (attributeNames view))
      (hswitch : left elEnabledKey = some (.flag (b.switch el a))) :
      ReadsAttribute b el view c (.ends d left)
  | fails : ReadsAttribute b el view c .fails
  | faults {blanks name rest : Text} (nonempty : blanks ≠ [])
      (hblanks : ∀ x ∈ blanks, Text.isXmlSpace x = true)
      (hrest : c.rest = blanks ++ (name ++ rest)) (hunique : b.isUnique name = true)
      (hold : name ∈ attributeNames view) :
      ReadsAttribute b el view c
        (.faults ⟨.duplicateAttribute name, c.position + blanks.length⟩)

/-- A sequence goes on behind a part that records nothing with the same map, or it fails. -/
theorem behind_plain {ms : List Production}
    (hm : m.Plain (Switched (elEnabled.holds view)) IsPlain) (hpast : c.past = 0)
    (h : (sequence (m :: ms)).Parses rules view c verdict) :
    verdict = .fails ∨ ∃ d, d.past = 0 ∧ m.Parses rules view c (.ends d view) ∧
      (sequence ms).Parses rules view d verdict := by
  rcases Matcher.parses_sequence_cons_iff.1 h with ⟨d, left, hends, hothers⟩ | ⟨hfirst, hstays⟩
  · obtain ⟨t, hleads⟩ := hends.moves
    obtain rfl := view_eq_of_plain hm hpast hends
    exact .inr ⟨d, hleads.past_eq hpast, hends, hothers⟩
  · cases verdict with
    | fails => exact .inl rfl
    | ends d left => exact absurd rfl (hstays d left)
    | faults f => exact absurd hfirst (not_faults_of_plain hm hpast f)

/-- A reference to a rule that records nothing. -/
theorem plain_ref {r : Rule} (h : IsPlain r) : (ref r : Production).Plain (Switched el) IsPlain := h

/-- White space leads over at least one white character. -/
theorem leads_blanks (h : (ref .space).Parses rules view c (.ends d left)) :
    ∃ blanks, blanks ≠ [] ∧ (∀ x ∈ blanks, Text.isXmlSpace x = true) ∧ c.Leads blanks d := by
  obtain ⟨-, x, t, -, hleads⟩ := leads_space h
  obtain ⟨blanks, hblanks, hleads'⟩ :=
    leads_maybe_space (Matcher.parses_maybe_iff.2 (.inr ⟨h, nofun⟩))
  refine ⟨blanks, ?_, hblanks, hleads'⟩
  rw [hleads'.unique hleads]
  exact List.cons_ne_nil x t

section Sequence

variable {N V : Production}

/-- White space, a name that is recorded, an equality sign and a value. What the value makes of the
switch is a matter of its own. -/
theorem readsAttribute_of_sequence
    (hname : ∀ {view c verdict}, c.past = 0 → N.Parses rules view c verdict →
      ReadsName b view c verdict)
    (hvalue : ∀ {view c verdict}, view elEnabledKey = some (.flag el) → c.past = 0 →
      V.Parses rules view c verdict → ReadsValue el view c verdict)
    (hturn : ∀ {c₁ c₂ c₃ d view₂ left a}, view₂ elEnabledKey = some (.flag el) →
      c₃.past = 0 → (ref .space).Parses rules view c (.ends c₁ view) →
      N.Parses rules view c₁ (.ends c₂ view₂) → (ref .eq).Parses rules view₂ c₂ (.ends c₃ view₂) →
      V.Parses rules view₂ c₃ (.ends d left) → c₁.Leads a.name c₂ → c₃.Leads a.value d →
      left elEnabledKey = some (.flag (b.switch el a)))
    (hel : view elEnabledKey = some (.flag el)) (hpast : c.past = 0)
    (h : (sequence [ref .space, N, ref .eq, V]).Parses rules view c verdict) :
    ReadsAttribute b el view c verdict := by
  rcases behind_plain (plain_ref (by decide)) hpast h with rfl | ⟨c₁, hpast₁, hspace, h₁⟩
  · exact .fails
  obtain ⟨blanks, hne, hblanks, hleads₁⟩ := leads_blanks hspace
  rcases Matcher.parses_sequence_cons_iff.1 h₁ with ⟨c₂, view₂, hnamed, h₂⟩ | ⟨hnamed, hstays⟩
  · cases hname hpast₁ hnamed with
    | @ends name _ _ hleads₂ nonempty hchars hnew hnames hswitch =>
        have hpast₂ := hleads₂.past_eq hpast₁
        rcases behind_plain (plain_ref (by decide)) hpast₂ h₂ with rfl | ⟨c₃, hpast₃, hequal, h₃⟩
        · exact .fails
        have hel₂ := hswitch.trans hel
        have hlast := Matcher.parses_sequence_singleton_iff.1 h₃
        cases hvalue hel₂ hpast₃ hlast with
        | fails => exact .fails
        | @ends x v d left hquote hleads₄ hread hnames' =>
            obtain ⟨u, hleads, hattribute⟩ := attribute?_of_parses hspace hleads₂ hchars nonempty
              hequal hleads₄ ⟨x, v, hquote, rfl⟩
            have hhead : c.rest.head?.any Text.isXmlSpace = true := by
              obtain ⟨y, blanks, rfl⟩ := List.exists_cons_of_ne_nil hne
              rw [hleads₁.rest_eq]
              exact hblanks y (List.mem_cons_self ..)
            exact .ends (a := ⟨name, x :: v⟩) hhead hleads hread (hattribute el) hnew
              (hnames'.trans hnames) (hturn hel₂ hpast₃ hspace hnamed hequal hlast hleads₂ hleads₄)
  · cases hname hpast₁ hnamed with
    | ends => exact absurd rfl (hstays _ _)
    | fails => exact .fails
    | @faults name rest hrest hunique hold =>
        have hposition : c₁.position = c.position + blanks.length := by
          simp only [Cursor.position, hpast, hpast₁, hleads₁.offset_eq, Nat.add_zero]
        rw [hposition]
        exact .faults hne hblanks (hrest ▸ hleads₁.rest_eq) hunique hold

end Sequence

/-! ## Values -/

/-- The condition on the language is answered by what the switch says. -/
theorem holds_of_switch (h : view elEnabledKey = some (.flag el)) : elEnabled.holds view = el := by
  cases el <;> simp [elEnabled, h, Value.isTrue]

/-- The value of an attribute is read as the text says. -/
theorem readsValue_attributeValue (hel : view elEnabledKey = some (.flag el)) (hpast : c.past = 0)
    (h : (ref .attributeValue).Parses rules view c verdict) : ReadsValue el view c verdict := by
  cases verdict with
  | fails => exact .fails
  | faults f => exact absurd h (not_faults_of_plain (plain_ref (by decide)) hpast f)
  | ends d left =>
      obtain ⟨rfl, x, v, hquote, hleads, hvalue⟩ := value?_of_parses (holds_of_switch hel) hpast h
      exact .ends hquote hleads hvalue rfl

/-- One of the words that set the switch is read and sets it, or none of them is read. -/
theorem switchEl_cases {on : Bool} {words : List Production}
    (hwords : ∀ m ∈ words, ∃ s nonempty, m = text s nonempty ∧ setting? s.toList = some on)
    (hpast : c.past = 0)
    (h : (hooked [] [switchEl on] (oneOf words)).Parses rules view c verdict) :
    verdict = .fails ∨ ∃ v on d, c.Leads v d ∧ setting? v = some on ∧
      verdict = .ends d (view.edits [.set elEnabledKey (.flag on)]) := by
  cases verdict with
  | fails => exact .inl rfl
  | ends d left =>
      obtain ⟨view₁, hbody, hleave⟩ := Matcher.parses_hooked_ends_iff.1 h
      obtain ⟨m, hm, hword⟩ := hbody.exists_choice
      obtain ⟨s, nonempty, rfl, hsetting⟩ := hwords m hm
      have hleads := Matcher.leads_of_parses_literal hword
      obtain ⟨-, rfl⟩ := Matcher.ofStop_eq_ends_iff.1 (Matcher.parses_literal_iff.1 hword)
      cases hleave
      exact .inr ⟨_, on, d, hleads, hsetting, rfl⟩
  | faults f =>
      rcases Matcher.parses_hooked_faults_iff.1 h with hbody | ⟨d, view₁, hbody, hleave⟩
      · have hplain : (oneOf words).Plain (Switched (elEnabled.holds view)) IsPlain :=
          Matcher.allPlain_iff.2 fun m hm => by
            obtain ⟨s, nonempty, rfl, -⟩ := hwords m hm
            trivial
        exact absurd hbody (not_faults_of_plain hplain hpast f)
      · cases hleave

/-- A value that sets the switch is read whole and sets it, or is not read. -/
theorem isElIgnoredValue_cases (hpast : c.past = 0)
    (h : (ref .isElIgnoredValue).Parses rules view c verdict) :
    verdict = .fails ∨ ∃ v on d, c.Leads v d ∧ setting? v = some on ∧
      verdict = .ends d (view.edits [.set elEnabledKey (.flag on)]) := by
  rw [parses_ref_iff, production] at h
  rcases Matcher.parses_oneOf_cons_iff.1 h with ⟨-, h⟩ | ⟨h, -⟩
  · rcases Matcher.parses_oneOf_cons_iff.1 h with ⟨-, h⟩ | ⟨h, -⟩
    · exact .inl (Matcher.parses_oneOf_nil_iff.1 h)
    · refine switchEl_cases ?_ hpast h
      simp only [List.forall_mem_cons]
      exact ⟨⟨_, _, rfl, by decide⟩, ⟨_, _, rfl, by decide⟩, by simp⟩
  · refine switchEl_cases ?_ hpast h
    simp only [List.forall_mem_cons]
    exact ⟨⟨_, _, rfl, by decide⟩, ⟨_, _, rfl, by decide⟩, by simp⟩

/-- A value of the switch is read as the text says. -/
theorem readsValue_isElIgnoredValue (el : Bool) (hpast : c.past = 0)
    (h : (ref .isElIgnoredValue).Parses rules view c verdict) : ReadsValue el view c verdict := by
  rcases isElIgnoredValue_cases hpast h with rfl | ⟨v, on, d, hleads, hsetting, rfl⟩
  · exact .fails
  · obtain ⟨x, t, hquote, rfl⟩ := quote_of_setting? hsetting
    refine .ends hquote hleads (value?_of_setting? hsetting d.rest) ?_
    simp [attributeNames, View.edits, View.edit, attributeNamesKey, elEnabledKey]

/-- No value that sets the switch stands where the rule for these values fails. -/
theorem setting?_eq_none {v : Text} (h : (ref .isElIgnoredValue).Parses rules view c .fails)
    (hpast : c.past = 0) (hleads : c.Leads v d) : setting? v = none := by
  have hno {s : String} {nonempty : s.toList ≠ []}
      (hfails : (text s nonempty).Parses rules view c .fails) : v ≠ s.toList := by
    rintro rfl
    rw [text, Matcher.parses_literal_iff, Cursor.after?_of_leads hpast hleads] at hfails
    cases hfails
  rw [parses_ref_iff, production] at h
  have hoff := Matcher.parses_hooked_fails_iff.1 (h.fails_of_mem (List.mem_cons_self ..))
  have hon := Matcher.parses_hooked_fails_iff.1
    (h.fails_of_mem (List.mem_cons_of_mem _ (List.mem_cons_self ..)))
  cases hsetting : setting? v with
  | none => rfl
  | some on =>
      rcases setting?_eq_some_iff.1 hsetting with ⟨-, heq | heq⟩ | ⟨-, heq | heq⟩
      · exact absurd heq (hno (hoff.fails_of_mem (List.mem_cons_self ..)))
      · exact absurd heq (hno (hoff.fails_of_mem (List.mem_cons_of_mem _ (List.mem_cons_self ..))))
      · exact absurd heq (hno (hon.fails_of_mem (List.mem_cons_self ..)))
      · exact absurd heq (hno (hon.fails_of_mem (List.mem_cons_of_mem _ (List.mem_cons_self ..))))

/-! ## The attributes of each bearer -/

/-- A rule that reads a name and records it does so where it is referred to. -/
theorem readsName_ref {r : Rule} (hr : production r = hooked [] [b.record] m)
    (hm : IsNameReader m) (hpast : c.past = 0) (h : (ref r).Parses rules view c verdict) :
    ReadsName b view c verdict := by
  rw [parses_ref_iff, hr] at h
  exact readsName hm hpast h

/-- A value that may be anything leaves the switch as it is. -/
theorem switch_of_attributeValue (hel : view elEnabledKey = some (.flag el)) (hpast : c.past = 0)
    (h : (ref .attributeValue).Parses rules view c (.ends d left)) :
    left elEnabledKey = some (.flag el) := by
  rw [(value?_of_parses rfl hpast h).1, hel]

/-- The special name is recorded in the same way when it is tried alone. -/
theorem ignoredName_of_pageAttributeName
    (h : (ref .pageAttributeName).Parses rules view c (.ends d left))
    (hleads : c.Leads "isELIgnored".toList d) :
    (hooked [] [recordPageAttributeName] (text "isELIgnored")).Parses rules view c
      (.ends d left) := by
  rw [parses_ref_iff, production] at h
  obtain ⟨view₁, hbody, hleave⟩ := Matcher.parses_hooked_ends_iff.1 h
  obtain ⟨m, hm, hname⟩ := hbody.exists_choice
  obtain ⟨s, nonempty, rfl, -⟩ := pageAttributeNames_chars m hm
  have heq : s.toList = "isELIgnored".toList :=
    (Matcher.leads_of_parses_literal hname).unique hleads
  rw [text, Matcher.parses_literal_iff, Matcher.ofStop_eq_ends_iff] at hname
  refine Matcher.parses_hooked_ends_iff.2 ⟨view₁, ?_, hleave⟩
  rw [text, Matcher.parses_literal_iff, Matcher.ofStop_eq_ends_iff, ← heq]
  exact hname

/-- An attribute that sets the switch is taken by the first alternative. Where that fails the switch
stays as it is, the text of the attribute says so too, and the name is recorded anew. -/
theorem readsAttribute_page (hel : view elEnabledKey = some (.flag el)) (hpast : c.past = 0)
    (h : (ref .pageAttribute).Parses rules view c verdict) :
    ReadsAttribute .page el view c verdict := by
  rw [parses_ref_iff, production] at h
  rcases Matcher.parses_oneOf_cons_iff.1 h with ⟨hfails, h⟩ | ⟨h, -⟩
  · rcases Matcher.parses_oneOf_cons_iff.1 h with ⟨-, h⟩ | ⟨h, -⟩
    · rw [Matcher.parses_oneOf_nil_iff.1 h]
      exact .fails
    · refine readsAttribute_of_sequence
        (readsName_ref rfl (isNameReader_oneOf pageAttributeNames_chars))
        readsValue_attributeValue ?_ hel hpast h
      intro c₁ c₂ c₃ d view₂ left a hel₂ hpast₃ hspace hname hequal hvalue hleads₂ hleads₄
      rw [switch_of_attributeValue hel₂ hpast₃ hvalue, Bearer.switch, Attribute.switch]
      split
      · rename_i heq
        rw [heq] at hleads₂
        -- up to the value the first alternative reads the same
        have hfails₂ := (hfails.fails_of_cons hspace).fails_of_cons
          (ignoredName_of_pageAttributeName hname hleads₂)
        have hfails₃ := Matcher.parses_sequence_singleton_iff.1 (hfails₂.fails_of_cons hequal)
        rw [setting?_eq_none hfails₃ hpast₃ hleads₄]
        rfl
      · rfl
  · refine readsAttribute_of_sequence (readsName (b := .page) (isNameReader_text (by decide)))
      (fun _ => readsValue_isElIgnoredValue el) ?_ hel hpast h
    intro c₁ c₂ c₃ d view₂ left a hel₂ hpast₃ hspace hname hequal hvalue hleads₂ hleads₄
    obtain ⟨view₁, hword, -⟩ := Matcher.parses_hooked_ends_iff.1 hname
    have hignored : a.name = "isELIgnored".toList :=
      hleads₂.unique (Matcher.leads_of_parses_literal hword)
    rcases isElIgnoredValue_cases hpast₃ hvalue with heq | ⟨v, on, _, hleads, hsetting, heq⟩
    · cases heq
    · cases heq
      rw [Bearer.switch, Attribute.switch, if_pos hignored, hleads₄.unique hleads, hsetting]
      simp [View.edits, View.edit]

/-- Reading one attribute, wherever it stands. -/
theorem readsAttribute (hel : view elEnabledKey = some (.flag el)) (hpast : c.past = 0)
    (h : (ref b.attributeRule).Parses rules view c verdict) :
    ReadsAttribute b el view c verdict := by
  cases b with
  | page => exact readsAttribute_page hel hpast h
  | library =>
      rw [Bearer.attributeRule, parses_ref_iff, production] at h
      exact readsAttribute_of_sequence
        (readsName_ref rfl (isNameReader_oneOf taglibAttributeNames_chars))
        readsValue_attributeValue
        (fun hel₂ hpast₃ _ _ _ hvalue _ _ => switch_of_attributeValue hel₂ hpast₃ hvalue)
        hel hpast h
  | tag =>
      rw [Bearer.attributeRule, parses_ref_iff, production] at h
      exact readsAttribute_of_sequence (readsName_ref rfl isNameReader_word)
        readsValue_attributeValue
        (fun hel₂ hpast₃ _ _ _ hvalue _ _ => switch_of_attributeValue hel₂ hpast₃ hvalue)
        hel hpast h

end Stencil.Jsp
