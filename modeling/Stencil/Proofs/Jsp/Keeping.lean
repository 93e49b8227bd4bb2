import Stencil.Jsp.Lexicon
import Stencil.Proofs.Matcher.Moving

/-!
# What stays in the map

Each of the three keys of the page grammar is written by few hooks: the name of a tag where that
name is read, the switch of the expression language where a page directive gives its value, the
attribute names wherever attributes are read. Rules refer to each other, so that a reading keeps the
value under a key is a matter of all the rules it may reach; `Matcher.carries_parse` draws the
conclusion from the hooks.
-/

set_option autoImplicit false

namespace Stencil.Jsp

open Cursor

/-! ## Regular rules -/

/-- Whether the expression language is on is asked without changing anything. -/
theorem onlyAsks_elEnabled : elEnabled.OnlyAsks := fun _ => rfl

/-- What a rule of the page grammar matches is regular: its only condition changes nothing, and its
patterns take characters. -/
theorem regular_production (r : Rule) : (production r).Regular := by
  cases r <;>
    simp [production, between, pageAttributeNames, taglibAttributeNames, text, elChar, plainRun,
      loneBracket, loneMark, Pattern.char, Pattern.run1, Matcher.Regular, Matcher.BuiltFrom,
      Matcher.AllBuiltFrom, onlyAsks_elEnabled, Pattern.consumes_charBefore, Pattern.consumes_word,
      Pattern.consumes_textBefore, Pattern.consumes_around]

/-- The rules of the page grammar are regular. -/
theorem regular_rule (r : Rule) : (rule r).Regular := regular_production r

/-- The rules of the page grammar are regular, wherever they are referred to. -/
theorem regular_rules : rules.Regular := by
  rintro r body ⟨⟩
  exact regular_rule r

/-- The matcher of an end tag is regular. -/
theorem regular_closer (name : Text) (nonempty : name ≠ []) :
    (closer name nonempty (rule .space)).Regular :=
  ⟨trivial, trivial, regular_rule .space, trivial, trivial⟩

/-! ## What is kept -/

/-- A reading that keeps the value under a key and leads to a later place. -/
def Keeps (key : String) (view : View) (c : Cursor) (view' : View) (d : Cursor) : Prop :=
  view' key = view key ∧ ∃ t, c.Leads t d

/-- Keeping the value under a key is handed on from reading to reading. -/
theorem passage_keeps (key : String) : Passage (Keeps key) where
  refl _ c := ⟨rfl, [], .refl c⟩
  trans := by
    rintro view c view' c' view'' c'' ⟨hkey, t, ht⟩ ⟨hkey', t', ht'⟩
    exact ⟨hkey'.trans hkey, t ++ t', ht.trans ht'⟩
  stay := by
    rintro view c view' c' ⟨hkey, -⟩ -
    exact ⟨hkey, [], .refl c⟩
  literal _ _ _ _ h := ⟨rfl, _, leads_after? h⟩
  pattern _ _ _ _ h := ⟨rfl, exists_leads_pattern h⟩

section Hooks

variable {key : String}

/-- Setting another key keeps the value. -/
theorem keeps_set {other : String} (hne : other ≠ key) (value : Value) (view : View) (c : Cursor) :
    Keeps key view c (view.edits [.set other value]) c :=
  ⟨if_neg hne, [], .refl c⟩

/-- The hooks that look after attribute names write to no other key. -/
theorem keeps_of_attributeHook {hook : MatchHook} (hne : attributeNamesKey ≠ key)
    (h : hook = recordAttributeName ∨ hook = recordPageAttributeName ∨ hook = checkTaglibAttributes)
    (text : Text) (view : View) (c : Cursor) :
    Keeps key view c (view.edits (hook text view).1) c := by
  have hnothing : Keeps key view c (view.edits []) c := (passage_keeps key).refl view c
  have hrecord : Keeps key view c (view.edits (recordAttributeName text view).1) c := by
    unfold recordAttributeName
    split
    · exact hnothing
    · exact keeps_set hne _ view c
  rcases h with rfl | rfl | rfl
  · exact hrecord
  · unfold recordPageAttributeName
    split
    · exact hnothing
    · exact hrecord
  · simp only [checkTaglibAttributes]
    split
    · exact hnothing
    · split <;> exact hnothing

/-- Where there are no hooks, nothing is written. -/
theorem respects_nil : Parse.EntryRespects (Keeps key) [] ∧ Parse.MatchRespects (Keeps key) [] :=
  ⟨nofun, nofun⟩

/-- Asking whether the expression language is on writes nothing. -/
theorem respects_elEnabled : Parse.AskRespects (Keeps key) elEnabled :=
  Parse.askRespects_of_onlyAsks (passage_keeps key) onlyAsks_elEnabled

/-- A list of one hook keeps what the hook keeps. -/
theorem respects_singleton {hook : MatchHook}
    (h : ∀ text view c, Keeps key view c (view.edits (hook text view).1) c) :
    Parse.MatchRespects (Keeps key) [hook] := by
  intro hook' hmem
  rw [List.mem_singleton.1 hmem]
  exact h

end Hooks

/-- The hooks on attributes write the recorded names alone. -/
theorem respects_attributeHooks (key : String) (hne : attributeNamesKey ≠ key) :
    Parse.EntryRespects (Keeps key) [resetAttributeNames] ∧
      Parse.MatchRespects (Keeps key) [recordAttributeName] ∧
      Parse.MatchRespects (Keeps key) [recordPageAttributeName] ∧
      Parse.MatchRespects (Keeps key) [checkTaglibAttributes] := by
  refine ⟨?_, respects_singleton (keeps_of_attributeHook hne (.inl rfl)),
    respects_singleton (keeps_of_attributeHook hne (.inr (.inl rfl))),
    respects_singleton (keeps_of_attributeHook hne (.inr (.inr rfl)))⟩
  intro hook hmem view c
  rw [List.mem_singleton.1 hmem]
  exact keeps_set hne _ view c

/-! ## Which rules write to a key -/

/-- The rules that do not read the name of a start tag. -/
def IsNameless (r : Rule) : Prop := r ≠ .actionName ∧ r ≠ .actionStart

/-- The rules in which the expression language is not switched. -/
def IsSwitchless (r : Rule) : Prop :=
  r ≠ .isElIgnoredValue ∧ r ≠ .pageAttribute ∧ r ≠ .pageDirective ∧ r ≠ .directive

/-- No rule but those for the name writes to its key or refers to a rule that does. -/
theorem respects_of_nameless {r : Rule} (h : IsNameless r) :
    (production r).Respects (Keeps tagNameKey) IsNameless := by
  have hattributes := respects_attributeHooks tagNameKey (by decide)
  have hswitch (on : Bool) : Parse.MatchRespects (Keeps tagNameKey) [switchEl on] :=
    respects_singleton fun _ view c => keeps_set (by decide) _ view c
  cases r <;>
    simp [production, between, pageAttributeNames, taglibAttributeNames, text, Matcher.Respects,
      Matcher.AllRespect, respects_nil, respects_elEnabled, hattributes, hswitch, IsNameless] at h ⊢

/-- No rule but those on the way to the value of a page directive writes to the key of the switch or
refers to a rule that does. -/
theorem respects_of_switchless {r : Rule} (h : IsSwitchless r) :
    (production r).Respects (Keeps elEnabledKey) IsSwitchless := by
  have hattributes := respects_attributeHooks elEnabledKey (by decide)
  have hname : Parse.MatchRespects (Keeps elEnabledKey) [captureTagName] :=
    respects_singleton fun _ view c => keeps_set (by decide) _ view c
  cases r <;>
    simp [production, between, pageAttributeNames, taglibAttributeNames, text, Matcher.Respects,
      Matcher.AllRespect, respects_nil, respects_elEnabled, hattributes, hname, IsSwitchless] at h ⊢

/-- A reading keeps what its own hooks keep, and those of the rules that it may reach. -/
theorem keeps_of_respects {key : String} {isRef : Rule → Prop} {m : Production}
    {view view' : View} {c d : Cursor}
    (hrules : ∀ {r}, isRef r → (production r).Respects (Keeps key) isRef)
    (hm : m.Respects (Keeps key) isRef) (h : m.Parses rules view c (.ends d view')) :
    Keeps key view c view' d := by
  refine h.carries (passage_keeps key) ?_ hm
  intro r body hr hbody
  cases hbody
  rw [rule, Matcher.Respects]
  exact hrules hr

/-- A reading that reaches no rule in which the expression language is switched keeps what is stored
for the switch. -/
theorem switch_eq_of_respects {m : Production} {view view' : View} {c d : Cursor}
    (hm : m.Respects (Keeps elEnabledKey) IsSwitchless)
    (h : m.Parses rules view c (.ends d view')) : view' elEnabledKey = view elEnabledKey :=
  (keeps_of_respects respects_of_switchless hm h).1

/-- A rule in which the expression language is not switched leaves the switch as it is. -/
theorem switch_eq_of_switchless {r : Rule} {view view' : View} {c d : Cursor}
    (hr : IsSwitchless r) (h : (rule r).Parses rules view c (.ends d view')) :
    view' elEnabledKey = view elEnabledKey := by
  apply switch_eq_of_respects _ h
  rw [rule, Matcher.Respects]
  exact respects_of_switchless hr

/-- A rule that does not read the name of a start tag keeps what is stored for it. -/
theorem tagName_eq_of_nameless {r : Rule} {view view' : View} {c d : Cursor}
    (hr : IsNameless r) (h : (rule r).Parses rules view c (.ends d view')) :
    view' tagNameKey = view tagNameKey := by
  have hrespects : (rule r).Respects (Keeps tagNameKey) IsNameless := by
    rw [rule, Matcher.Respects]
    exact respects_of_nameless hr
  exact (keeps_of_respects respects_of_nameless hrespects h).1

end Stencil.Jsp
