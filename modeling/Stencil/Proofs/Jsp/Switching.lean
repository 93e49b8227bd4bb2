import Stencil.Proofs.Jsp.Recording

/-!
# What a directive makes of the switch

The switch of the expression language is written in one place of the page grammar, several rules
deep inside a directive, and what is written there lasts only if everything around it matches too.
Read from the inside out: a value of `isELIgnored` that sets the switch is taken by the rule that
writes it and no other value is (`Jsp.isElIgnoredValue_cases`, `Jsp.setting?_eq_none`), so an
attribute makes of the switch what its text says (`Jsp.pageAttribute_switches`). So do the
attributes of a page directive in order, each with the switch as those before it left it
(`Jsp.pageAttributes_switch`), and other directives leave the switch alone
(`Jsp.directive_switches`).
-/

set_option autoImplicit false

namespace Stencil.Jsp

open Matcher (hooked many maybe oneOf ref sequence StartsWith)

variable {view left : View} {c d : Cursor} {el : Bool} {v name : Text}

/-- An attribute of a page directive, as the text says and as the map says behind it. -/
def Switches (el : Bool) (c d : Cursor) (rest : Text) (left : View) : Prop :=
  ∃ a u, c.Leads u d ∧ attribute? el (u ++ rest) = some (a, rest) ∧
    left elEnabledKey = some (.flag (a.switch el))

section Attributes

variable {rest w : Text}

/-- An attribute that is read in front of the end of a directive is read off the directive alone. -/
theorem pageAttribute_switches (hel : view elEnabledKey = some (.flag el)) (hpast : c.past = 0)
    (h : (ref .pageAttribute).Parses rules view c (.ends d left)) (hrest : d.rest = rest ++ w)
    (hlast : rest.getLast? = some '>') : Switches el c d rest left := by
  cases readsAttribute_page hel hpast h with
  | @ends u a _ _ hblank hleads hvalue hattribute hnew hnames hswitch =>
      rw [hrest] at hvalue
      exact ⟨a, u, hleads, hattribute rest (value?_of_append hvalue hlast), hswitch⟩

/-- The attributes of a page directive in order, up to what is no attribute any more. -/
theorem pageAttributes_switch (hel : view elEnabledKey = some (.flag el)) (hpast : c.past = 0)
    (h : (many (ref .pageAttribute)).Parses rules view c (.ends d left))
    (hrest : d.rest = rest ++ w) (hlast : rest.getLast? = some '>')
    (hend : ∀ on, attribute? on rest = none) :
    ∃ u, c.Leads u d ∧ left elEnabledKey = some (.flag (switchedBehind el (u ++ rest))) := by
  induction hn : c.rest.length using Nat.strongRecOn generalizing c view el with
  | ind n ih =>
      rw [Matcher.parses_many_iff (takes_ref .pageAttribute) hpast] at h
      obtain ⟨c₁, view₁, hfirst, hothers⟩ := h.of_sequence_cons
      have hothers := Matcher.parses_sequence_singleton_iff.1 hothers
      obtain ⟨x, t, htakes⟩ := takes_ref .pageAttribute hpast hfirst
      have hpast₁ := htakes.past_eq hpast
      obtain ⟨t', hleads'⟩ := hothers.moves
      -- what is left behind the first attribute still ends with the bracket
      have hrest₁ : c₁.rest = (t' ++ rest) ++ w := by
        rw [hleads'.rest_eq, hrest, List.append_assoc]
      have hlast₁ : (t' ++ rest).getLast? = some '>' := by
        rw [List.getLast?_append_of_ne_nil, hlast]
        rintro rfl
        cases hlast
      obtain ⟨a, u, hleads, hattribute, hel₁⟩ :=
        pageAttribute_switches hel hpast hfirst hrest₁ hlast₁
      refine ⟨u ++ t', hleads.trans hleads', ?_⟩
      rw [List.append_assoc, switchedBehind_of_some hattribute]
      rcases Matcher.parses_maybe_iff.1 hothers with ⟨-, heq⟩ | ⟨hmany, -⟩
      · cases heq
        obtain rfl : t' = [] := by
          have hsplit := hleads'.rest_eq
          simpa using hsplit
        rw [List.nil_append, switchedBehind_of_none (hend _), hel₁]
      · have hlt : c₁.rest.length < n := by
          rw [← hn, htakes.rest_eq]
          simp
        obtain ⟨u', hleads₁, hleft⟩ := ih _ hlt hel₁ hpast₁ hmany rfl
        rwa [hleads'.unique hleads₁]

end Attributes

/-! ## Directives -/

section Directives

variable {rest w : Text}

/-- A directive for inclusion starts with the first letter of its word. -/
theorem startsWith_includeDirective : StartsWith rules (isChar 'i') (ref .includeDirective) :=
  startsWith_ref ((Matcher.startsWith_literal rfl).sequence_cons _)

/-- A library directive starts with the first letter of its word. -/
theorem startsWith_taglibDirective : StartsWith rules (isChar 't') (ref .taglibDirective) := by
  refine startsWith_ref fun view c stop left h => ?_
  obtain ⟨view₁, h, -⟩ := Matcher.parses_hooked_ends_iff.1 h
  exact (Matcher.startsWith_literal rfl).sequence_cons _ h

/-- A directive of another sort than `page`, told by its first character, leaves the switch as it
is. -/
theorem otherDirective_switches (rest : Text) {r : Rule} {x : Char} (hx : x ≠ 'p')
    (hr : IsSwitchless r) (hstarts : StartsWith rules (isChar x) (ref r))
    (hel : view elEnabledKey = some (.flag el))
    (h : (ref r).Parses rules view c (.ends d left)) :
    ∃ t, c.Leads (x :: t) d ∧
      left elEnabledKey = some (.flag (switchedBySort el (x :: t ++ rest))) := by
  obtain ⟨y, t, hy, hleads⟩ := hstarts h
  obtain rfl : y = x := by simpa [isChar] using hy
  refine ⟨t, hleads, ?_⟩
  have hnone : Text.after? "page".toList (y :: t ++ rest) = none := by
    simp [Text.after?, Ne.symm hx]
  rw [switch_eq_of_respects (by simpa [Matcher.Respects] using hr) h, hel, switchedBySort, hnone]

/-- A page directive leaves the switch as its attributes say, in order. -/
theorem pageDirective_switches (hel : view elEnabledKey = some (.flag el)) (hpast : c.past = 0)
    (h : (ref .pageDirective).Parses rules view c (.ends d left)) (hrest : d.rest = rest ++ w)
    (hlast : rest.getLast? = some '>') (hend : ∀ on, attribute? on rest = none) :
    ∃ t, c.Leads ('p' :: t) d ∧
      left elEnabledKey = some (.flag (switchedBySort el ('p' :: t ++ rest))) := by
  rw [parses_ref_iff, production] at h
  obtain ⟨view₁, hbody, hleave⟩ := Matcher.parses_hooked_ends_iff.1 h
  cases hleave
  obtain ⟨c₁, view₂, hpage, hbody⟩ := hbody.of_sequence_cons
  have hmany := Matcher.parses_sequence_singleton_iff.1 hbody
  have hleads₁ : c.Leads "page".toList c₁ := Matcher.leads_of_parses_literal hpage
  have hel₂ : view₂ elEnabledKey = some (.flag el) := by
    rw [text, Matcher.parses_literal_iff, Matcher.ofStop_eq_ends_iff] at hpage
    rw [hpage.2, ← hel]
    simp [View.enter, resetAttributeNames, View.edits, View.edit, attributeNamesKey, elEnabledKey]
  obtain ⟨u, hleads₂, hleft⟩ :=
    pageAttributes_switch hel₂ (hleads₁.past_eq hpast) hmany hrest hlast hend
  refine ⟨_, hleads₁.trans hleads₂, ?_⟩
  have hafter : Text.after? "page".toList ("page".toList ++ u ++ rest) = some (u ++ rest) :=
    Text.after?_eq_some_iff.2 (List.append_assoc ..)
  rw [hleft]
  show _ = some (Value.flag (switchedBySort el ("page".toList ++ u ++ rest)))
  rw [switchedBySort, hafter]

/-- What stands between the start and the end of a directive. -/
theorem sort_switches (hel : view elEnabledKey = some (.flag el)) (hpast : c.past = 0)
    (h : (oneOf [ref .includeDirective, ref .pageDirective, ref .taglibDirective]).Parses rules view
      c (.ends d left)) (hrest : d.rest = rest ++ w) (hlast : rest.getLast? = some '>')
    (hend : ∀ on, attribute? on rest = none) :
    ∃ x t, Text.isXmlSpace x = false ∧ c.Leads (x :: t) d ∧
      left elEnabledKey = some (.flag (switchedBySort el (x :: t ++ rest))) := by
  obtain ⟨m, hm, hsort⟩ := h.exists_choice
  simp only [List.mem_cons, List.not_mem_nil, or_false] at hm
  rcases hm with rfl | rfl | rfl
  · obtain ⟨t, hleads, hleft⟩ := otherDirective_switches rest (by decide)
      (by simp [IsSwitchless]) startsWith_includeDirective hel hsort
    exact ⟨'i', t, by decide, hleads, hleft⟩
  · obtain ⟨t, hleads, hleft⟩ := pageDirective_switches hel hpast hsort hrest hlast hend
    exact ⟨'p', t, by decide, hleads, hleft⟩
  · obtain ⟨t, hleads, hleft⟩ := otherDirective_switches rest (by decide)
      (by simp [IsSwitchless]) startsWith_taglibDirective hel hsort
    exact ⟨'t', t, by decide, hleads, hleft⟩

/-- A directive makes of the switch what its text says. -/
theorem directive_switches (hel : view elEnabledKey = some (.flag el)) (hpast : c.past = 0)
    (h : (rule .directive).Parses rules view c (.ends d left)) :
    ∃ t, c.Leads t d ∧ left elEnabledKey = some (.flag (switchedBy el t)) := by
  rw [rule, Matcher.parses_labelled_iff, production] at h
  obtain ⟨c₁, view₁, hstart, h⟩ := h.of_sequence_cons
  obtain ⟨c₂, view₂, hspace, h⟩ := h.of_sequence_cons
  obtain ⟨c₃, view₃, hsort, hending⟩ := h.of_sequence_cons
  obtain ⟨c₄, view₄, hspace', h⟩ := hending.of_sequence_cons
  have hclose := Matcher.parses_sequence_singleton_iff.1 h
  have hel₂ : view₂ elEnabledKey = some (.flag el) := by
    rw [switch_eq_of_respects (by simp [Matcher.Respects, IsSwitchless]) hspace,
      switch_eq_of_respects (by simp [Matcher.Respects, IsSwitchless]) hstart, hel]
  have hleft : left elEnabledKey = view₃ elEnabledKey :=
    switch_eq_of_respects (by simp [Matcher.Respects, Matcher.AllRespect, IsSwitchless]) hending
  rw [parses_ref_iff] at hstart hclose
  have hleads₁ : c.Leads "<%@".toList c₁ := Matcher.leads_of_parses_literal hstart
  obtain ⟨blanks, hblanks, hleads₂⟩ := leads_maybe_space hspace
  obtain ⟨blanks', hblanks', hleads₄⟩ := leads_maybe_space hspace'
  have hends := hleads₄.trans (Matcher.leads_of_parses_literal hclose)
  have hlast : (blanks' ++ "%>".toList).getLast? = some '>' :=
    List.getLast?_append_of_ne_nil _ (by decide)
  obtain ⟨x, t, hx, hleads₃, hel₃⟩ := sort_switches hel₂ (hleads₂.past_eq (hleads₁.past_eq hpast))
    hsort hends.rest_eq hlast fun on => attribute?_close hblanks'
  refine ⟨_, hleads₁.trans (hleads₂.trans (hleads₃.trans hends)), ?_⟩
  have hhead : ∀ y ∈ (x :: t ++ (blanks' ++ "%>".toList)).head?, Text.isXmlSpace y = false := by
    rintro y ⟨⟩
    exact hx
  rw [hleft, hel₃, switchedBy, Text.after?_eq_some_iff.2 rfl]
  dsimp only
  rw [Text.dropWhile_append_of_stop hblanks hhead]

end Directives

end Stencil.Jsp
