import Stencil.Proofs.Jsp.Cutting
import Stencil.Proofs.Jsp.Termination
import Stencil.Proofs.Text.Scanning

/-!
# The attributes of a page directive

What the attributes of a page directive say, read off the text of the directive alone. A name goes
up to white space or an equality sign; a value is what the rule for values reads at the start of the
text behind the equality sign. Values hold expressions while the expression language is on, so where
a value ends depends on the switch, and an attribute that turns the switch counts for the values
behind it (`Jsp.switchedBehind`).

In a page the values are read in front of all that stands behind the directive. Nothing of that
matters for where they end (`Jsp.value?_eq`).
-/

set_option autoImplicit false

namespace Stencil.Jsp

open Matcher (oneOf ref sequence upTo hooked Misses StartsWith)

/-! ## Attributes in a text -/

/-- An attribute: its name, and its value in its quotes. -/
structure Attribute where
  name : Text
  value : Text

/-- How a value of `isELIgnored` sets the switch of the expression language, if it does. -/
def setting? (value : Text) : Option Bool :=
  if value = "\x22true\x22".toList ∨ value = "\x27true\x27".toList then some false
  else if value = "\x22false\x22".toList ∨ value = "\x27false\x27".toList then some true
  else none

/-- What an attribute makes of the switch of the expression language. -/
def Attribute.switch (el : Bool) (a : Attribute) : Bool :=
  if a.name = "isELIgnored".toList then (setting? a.value).getD el else el

/-- The value in its quotes with which a text starts, with the expression language on or off. -/
def value? (el : Bool) (t : Text) : Option Text :=
  match Matcher.textAt rules (rule .attributeValue) t 0 { base := [(elEnabledKey, .flag el)] } with
  | .ok (.ok value) => value
  | _ => none

/-- Whether a character belongs to the name of an attribute, which white space or an equality sign
ends. -/
def isAttributeNameChar (x : Char) : Bool := !(Text.isXmlSpace x || x == '=')

/-- The attribute with which a text starts behind white space, and what stands behind it. -/
def attribute? (el : Bool) (t : Text) : Option (Attribute × Text) :=
  let t := t.dropWhile Text.isXmlSpace
  let name := t.takeWhile isAttributeNameChar
  match (t.dropWhile isAttributeNameChar).dropWhile Text.isXmlSpace with
  | '=' :: t =>
    let t := t.dropWhile Text.isXmlSpace
    (value? el t).map fun value => (⟨name, value⟩, t.drop value.length)
  | _ => none

/-- An attribute takes characters. -/
theorem length_lt_of_attribute? {el : Bool} {t rest : Text} {a : Attribute}
    (h : attribute? el t = some (a, rest)) : rest.length < t.length := by
  unfold attribute? at h
  dsimp only at h
  split at h
  · rename_i t' heq
    obtain ⟨value, -, hrest⟩ := Option.map_eq_some_iff.1 h
    rw [Prod.mk.injEq] at hrest
    have hsuffix : ('=' :: t') <:+ t := by
      rw [← heq]
      exact (List.dropWhile_suffix _).trans
        ((List.dropWhile_suffix _).trans (List.dropWhile_suffix _))
    have hsuffix' : rest <:+ t' := by
      rw [← hrest.2]
      exact (List.drop_suffix _ _).trans (List.dropWhile_suffix _)
    exact Nat.lt_of_lt_of_le (Nat.lt_succ_of_le hsuffix'.length_le) hsuffix.length_le
  · cases h

/-- The switch of the expression language behind the attributes with which a text starts. -/
def switchedBehind (el : Bool) (t : Text) : Bool :=
  match _h : attribute? el t with
  | none => el
  | some (a, rest) => switchedBehind (a.switch el) rest
termination_by t.length
decreasing_by exact length_lt_of_attribute? _h

/-- Where no attribute stands the switch stays as it is. -/
theorem switchedBehind_of_none {el : Bool} {t : Text} (h : attribute? el t = none) :
    switchedBehind el t = el := by
  rw [switchedBehind]
  split
  · rfl
  · rename_i heq
    rw [h] at heq
    cases heq

/-- Behind an attribute the switch is what the attribute and those behind it make of it. -/
theorem switchedBehind_of_some {el : Bool} {t rest : Text} {a : Attribute}
    (h : attribute? el t = some (a, rest)) :
    switchedBehind el t = switchedBehind (a.switch el) rest := by
  rw [switchedBehind]
  split
  · rename_i heq
    rw [h] at heq
    cases heq
  · rename_i heq
    rw [h] at heq
    cases heq
    rfl

/-- What a directive makes of the switch of the expression language, by what stands behind its
start: the word `page` and attributes, or something else. -/
def switchedBySort (el : Bool) (t : Text) : Bool :=
  match Text.after? "page".toList t with
  | some attributes => switchedBehind el attributes
  | none => el

/-- What a directive makes of the switch of the expression language, by its text. -/
def switchedBy (el : Bool) (t : Text) : Bool :=
  match Text.after? "<%@".toList t with
  | some t => switchedBySort el (t.dropWhile Text.isXmlSpace)
  | none => el

section Texts

variable {el : Bool}

/-- White space or an equality sign ends a name. -/
theorem not_isAttributeNameChar {blanks : Text} (hblanks : ∀ x ∈ blanks, Text.isXmlSpace x = true)
    (rest : Text) : ∀ x ∈ (blanks ++ '=' :: rest).head?, isAttributeNameChar x = false := by
  cases blanks with
  | nil =>
      rintro x ⟨⟩
      rfl
  | cons y blanks =>
      rintro x ⟨⟩
      simp [isAttributeNameChar, hblanks y (List.mem_cons_self ..)]

/-- An attribute in its parts is read as it is. -/
theorem attribute?_append {blanks name before behind value rest : Text}
    (hblanks : ∀ x ∈ blanks, Text.isXmlSpace x = true)
    (hname : ∀ x ∈ name, isAttributeNameChar x = true) (nonempty : name ≠ [])
    (hbefore : ∀ x ∈ before, Text.isXmlSpace x = true)
    (hbehind : ∀ x ∈ behind, Text.isXmlSpace x = true)
    (hfirst : ∀ x ∈ (value ++ rest).head?, Text.isXmlSpace x = false)
    (hvalue : value? el (value ++ rest) = some value) :
    attribute? el (blanks ++ (name ++ (before ++ '=' :: (behind ++ (value ++ rest))))) =
      some (⟨name, value⟩, rest) := by
  have hstart : ∀ x ∈ (name ++ (before ++ '=' :: (behind ++ (value ++ rest)))).head?,
      Text.isXmlSpace x = false := by
    obtain ⟨y, name, rfl⟩ := List.exists_cons_of_ne_nil nonempty
    rintro x ⟨⟩
    have hy := hname y (List.mem_cons_self ..)
    simp only [isAttributeNameChar, Bool.not_eq_true', Bool.or_eq_false_iff] at hy
    exact hy.1
  have hend := not_isAttributeNameChar hbefore (behind ++ (value ++ rest))
  have hequal : ∀ x ∈ ('=' :: (behind ++ (value ++ rest))).head?, Text.isXmlSpace x = false := by
    rintro x ⟨⟩
    decide
  simp only [attribute?, Text.dropWhile_append_of_stop hblanks hstart,
    Text.takeWhile_append_of_stop hname hend, Text.dropWhile_append_of_stop hname hend,
    Text.dropWhile_append_of_stop hbefore hequal,
    Text.dropWhile_append_of_stop hbehind hfirst, hvalue,
    Option.map_some, List.drop_left]

/-- What ends a directive is no attribute. -/
theorem attribute?_close {blanks : Text} (hblanks : ∀ x ∈ blanks, Text.isXmlSpace x = true) :
    attribute? el (blanks ++ "%>".toList) = none := by
  have hstart : ∀ x ∈ "%>".toList.head?, Text.isXmlSpace x = false := by
    rintro x ⟨⟩
    decide
  simp only [attribute?, Text.dropWhile_append_of_stop hblanks hstart]
  rfl

end Texts

/-! ## Values -/

section Values

variable {el : Bool} {view left : View} {c stop : Cursor} {t v : Text}

/-- What a rule reads at the start of a text is the text that it is found to match there. -/
theorem textAt_of_parses {r : Rule} {store : Store}
    (h : (rule r).Parses rules store.view ⟨[], t, 0⟩ (.ends stop left))
    (hleads : Cursor.Leads ⟨[], t, 0⟩ v stop) :
    Matcher.textAt rules (rule r) t 0 store = .ok (.ok (some v)) := by
  have hstart : Cursor.ofPosition t 0 = ⟨[], t, 0⟩ := by simp [Cursor.ofPosition]
  obtain ⟨verdict, hparse⟩ := exists_verdict store.view (levels_rule r).2
    (c := ⟨[], t, 0⟩) rfl (Nat.le_refl _)
  cases h.unique ⟨_, hparse⟩
  have hagrees := Matcher.agrees_step regular_rules (regular_rule r) (a := { store }) rfl
    ((rule r).bound rules t.length) ⟨[], t, 0⟩
  rw [hparse] at hagrees
  unfold Matcher.textAt Matcher.run
  simp only [hstart]
  generalize (rule r).step rules ((rule r).bound rules t.length) { store } ⟨[], t, 0⟩ = outcome
    at hagrees ⊢
  cases hagrees with
  | ends stop hplace hclean hview =>
      simp only [ok_bind, hclean, Option.map_some, hleads.upTo_eq rfl]
      rfl

/-- A value that ends in front of the end of a directive is read off the text of the directive. -/
theorem value?_eq {rest w : Text} (hel : elEnabled.holds view = el) (hpast : c.past = 0)
    (hends : (ref .attributeValue).Parses rules view c (.ends stop left))
    (hleads : c.Leads v stop) (hrest : stop.rest = rest ++ w) (hlast : rest.getLast? = some '>') :
    value? el (v ++ rest) = some v := by
  have halike : Alike false view
      (Store.view { base := [(elEnabledKey, .flag el)] }) := by
    refine ⟨?_, fun h => by cases h⟩
    rw [hel]
    cases el <;> rfl
  have hat : (trim false w).At c ⟨[], v ++ rest, 0⟩ := by
    refine ⟨by rw [hleads.rest_eq, hrest, List.append_assoc]; rfl, hpast, rfl, fun x hx => ?_⟩
    have hne : rest ≠ [] := by
      rintro rfl
      cases hlast
    rw [List.getLast?_append_of_ne_nil _ hne, hlast] at hx
    cases hx
    rfl
  obtain ⟨stop', left', -, hat', -, hends'⟩ :=
    survives_attributeValue halike hat (Nat.le_refl _) hends hrest trivial
  obtain ⟨v', hleads'⟩ := hends'.moves
  obtain rfl : v = v' := hat.text_eq hat' hleads hleads'
  have hvalue : (rule .attributeValue).Parses rules
      (Store.view { base := [(elEnabledKey, .flag el)] }) ⟨[], v ++ rest, 0⟩ (.ends stop' left') :=
    Matcher.parses_labelled_iff.2 (parses_ref_iff.1 hends')
  rw [value?, textAt_of_parses hvalue hleads']

/-- What is read as the value of a text the rule for values matches at its start. -/
theorem parses_of_value? (h : value? el t = some v) :
    ∃ d left, (ref .attributeValue).Parses rules
      (Store.view { base := [(elEnabledKey, .flag el)] }) ⟨[], t, 0⟩ (.ends d left) ∧
        Cursor.Leads ⟨[], t, 0⟩ v d := by
  have hstart : Cursor.ofPosition t 0 = ⟨[], t, 0⟩ := by simp [Cursor.ofPosition]
  unfold value? Matcher.textAt Matcher.run at h
  simp only [hstart] at h
  generalize hstep : (rule .attributeValue).step rules
    ((rule .attributeValue).bound rules t.length)
    { store := { base := [(elEnabledKey, .flag el)] } } ⟨[], t, 0⟩ = outcome at h
  rcases outcome with halt | ⟨_ | d, a⟩
  · cases h
  · simp only [ok_bind] at h
    cases hfatal : a.fatal <;> rw [hfatal] at h <;> cases h
  · obtain ⟨-, hclean, hparses⟩ := Matcher.step_some regular_rules
      (regular_rule .attributeValue) hstep
    simp only [ok_bind, hclean, Option.map_some] at h
    obtain ⟨t', hleads⟩ := hparses.moves
    have htext : t' = v := (hleads.upTo_eq rfl).symm.trans (Option.some.inj h)
    exact ⟨d, _, parses_ref_iff.2 (Matcher.parses_labelled_iff.1 hparses), htext ▸ hleads⟩

/-- A value is read in the same way when the text behind a bracket that ends a directive is cut
off. -/
theorem value?_of_append {rest w : Text} (h : value? el (v ++ (rest ++ w)) = some v)
    (hlast : rest.getLast? = some '>') : value? el (v ++ rest) = some v := by
  obtain ⟨d, left, hends, hleads⟩ := parses_of_value? h
  have hel : elEnabled.holds (Store.view { base := [(elEnabledKey, .flag el)] }) = el := by
    cases el <;> rfl
  have hrest : d.rest = rest ++ w := (List.append_cancel_left hleads.rest_eq).symm
  exact value?_eq hel rfl hends hleads hrest hlast

/-- The two words that set the switch may stand in quotes of both sorts, and ignoring the language
turns it off. -/
theorem setting?_eq_some_iff {on : Bool} :
    setting? v = some on ↔
      (on = false ∧ (v = "\x22true\x22".toList ∨ v = "\x27true\x27".toList)) ∨
      (on = true ∧ (v = "\x22false\x22".toList ∨ v = "\x27false\x27".toList)) := by
  unfold setting?
  constructor
  · intro h
    split at h
    · rename_i hvalue
      cases h
      exact .inl ⟨rfl, hvalue⟩
    · split at h
      · rename_i hvalue
        cases h
        exact .inr ⟨rfl, hvalue⟩
      · cases h
  · rintro (⟨rfl, rfl | rfl⟩ | ⟨rfl, rfl | rfl⟩) <;> decide

/-- A value that sets the switch starts with its quote. -/
theorem quote_of_setting? {on : Bool} (h : setting? v = some on) :
    ∃ x t, isQuote x = true ∧ v = x :: t := by
  rcases setting?_eq_some_iff.1 h with ⟨-, rfl | rfl⟩ | ⟨-, rfl | rfl⟩ <;>
    exact ⟨_, _, rfl, rfl⟩

/-- A value that sets the switch is read whole, whatever stands behind it. -/
theorem value?_of_setting? {on : Bool} (h : setting? v = some on) (rest : Text) :
    value? el (v ++ rest) = some v := by
  have hparse : (rule .attributeValue).parse rules 20
      (Store.view { base := [(elEnabledKey, .flag el)] }) ⟨[], v ++ rest, 0⟩ =
        .ok (.ends ⟨v.reverse, rest, 0⟩ (Store.view { base := [(elEnabledKey, .flag el)] })) := by
    rcases setting?_eq_some_iff.1 h with ⟨-, rfl | rfl⟩ | ⟨-, rfl | rfl⟩ <;> cases el <;> cbv
  have hleads : Cursor.Leads ⟨[], v ++ rest, 0⟩ v ⟨v.reverse, rest, 0⟩ :=
    ⟨rfl, (List.append_nil _).symm, id⟩
  rw [value?, textAt_of_parses ⟨_, hparse⟩ hleads]

/-- The value of an attribute starts with a quote. -/
theorem startsWith_attributeValue : StartsWith rules isQuote (ref .attributeValue) := by
  have hbetween (quote : String) (nonempty : quote.toList ≠ [])
      (hquote : quote.toList.head?.any isQuote = true) (ms : List Production) :
      StartsWith rules isQuote (sequence (text quote nonempty :: ms)) :=
    (Matcher.startsWith_literal hquote).sequence_cons ms
  have hruntime : StartsWith rules isQuote (ref .runtimeValue) :=
    startsWith_ref (StartsWith.oneOf (by
      simp only [List.forall_mem_cons]
      exact ⟨hbetween _ _ rfl _, hbetween _ _ rfl _, by simp⟩))
  refine startsWith_ref (StartsWith.oneOf ?_)
  simp only [List.forall_mem_cons]
  exact ⟨hruntime, startsWith_ref (hbetween _ _ rfl _), startsWith_ref (hbetween _ _ rfl _),
    by simp⟩

end Values

/-! ## Attributes in a page -/

section Attributes

variable {view view₁ view₂ view₃ left : View} {c c₁ c₂ c₃ d : Cursor} {name v : Text}

/-- An equality sign is read with the white space around it. -/
theorem leads_eq (h : (ref .eq).Parses rules view c (.ends d left)) :
    ∃ before behind, (∀ x ∈ before, Text.isXmlSpace x = true) ∧
      (∀ x ∈ behind, Text.isXmlSpace x = true) ∧ c.Leads (before ++ '=' :: behind) d := by
  rw [parses_ref_iff, production] at h
  obtain ⟨c₁, view₁, hbefore, h⟩ := h.of_sequence_cons
  obtain ⟨c₂, view₂, hequal, h⟩ := h.of_sequence_cons
  rw [Matcher.parses_sequence_singleton_iff] at h
  obtain ⟨before, hblanks, hleads⟩ := leads_maybe_space hbefore
  obtain ⟨behind, hblanks', hleads'⟩ := leads_maybe_space h
  have hleads₁ : c₁.Leads ['='] c₂ := Matcher.leads_of_parses_literal hequal
  exact ⟨before, behind, hblanks, hblanks', hleads.trans (hleads₁.trans hleads')⟩

/-- An attribute that is read in a page, part by part, is an attribute of its text. -/
theorem attribute?_of_parses (hspace : (ref .space).Parses rules view c (.ends c₁ view₁))
    (hname : c₁.Leads name c₂) (hchars : ∀ x ∈ name, isAttributeNameChar x = true)
    (nonempty : name ≠ []) (heq : (ref .eq).Parses rules view₂ c₂ (.ends c₃ view₃))
    (hvalue : c₃.Leads v d) (hquote : ∃ x t, isQuote x = true ∧ v = x :: t) :
    ∃ u, c.Leads u d ∧ ∀ el rest, value? el (v ++ rest) = some v →
      attribute? el (u ++ rest) = some (⟨name, v⟩, rest) := by
  have hother : Verdict.ends c₁ view₁ ≠ .fails := fun h => by cases h
  obtain ⟨blanks, hblanks, hleads⟩ :=
    leads_maybe_space (Matcher.parses_maybe_iff.2 (.inr ⟨hspace, hother⟩))
  obtain ⟨before, behind, hbefore, hbehind, hleads'⟩ := leads_eq heq
  refine ⟨_, hleads.trans (hname.trans (hleads'.trans hvalue)), fun el rest hread => ?_⟩
  have hfirst : ∀ x ∈ (v ++ rest).head?, Text.isXmlSpace x = false := by
    obtain ⟨x, t, hx, rfl⟩ := hquote
    rintro y ⟨⟩
    simp only [isQuote, Bool.or_eq_true, beq_iff_eq] at hx
    rcases hx with rfl | rfl <;> decide
  have hattribute := attribute?_append hblanks hchars nonempty hbefore hbehind hfirst hread
  simpa only [List.append_assoc, List.cons_append] using hattribute

end Attributes

end Stencil.Jsp
