import Stencil.Jsp.Lexicon
import Stencil.Proofs.Matcher.Progress

/-!
# How far the rules of the page grammar go

No rule of the page grammar matches without taking a character, and no hook of it reports that an
end tag is missing: only the end of the page does that.
-/

set_option autoImplicit false

namespace Stencil

/-- A cause other than that an end tag is missing. -/
def Cause.IsNotMissing (c : Cause) : Prop := ∀ name, c ≠ .endTag name .missing

/-- A cause that a hook of the page grammar reports. -/
inductive Cause.IsReported : Cause → Prop
  | duplicate (name : Text) : IsReported (.duplicateAttribute name)
  | noPrefix : IsReported (.mismatch "taglib directive attribute \"prefix\"")
  | notOneSource :
      IsReported (.mismatch "exactly one of taglib directive attributes \"uri\" | \"tagdir\"")

/-- No hook reports that an end tag is missing. -/
theorem Cause.IsReported.isNotMissing {c : Cause} (h : c.IsReported) : c.IsNotMissing := by
  intro name heq
  cases h <;> cases heq

namespace Matcher

variable {ν : Type} {rules : Rules ν}

/-- A fixed text is not nullable. -/
@[simp] theorem not_nullable_literal (text : Text) (h : text ≠ []) :
    ¬(literal text h : Matcher ν).Nullable rules := by
  intro hn
  cases hn

/-- A pattern is not nullable. -/
@[simp] theorem not_nullable_pattern (p : Pattern) :
    ¬(pattern p : Matcher ν).Nullable rules := by
  intro hn
  cases hn

/-- A repetition is not nullable. -/
@[simp] theorem not_nullable_many (body : Matcher ν) : ¬(many body).Nullable rules := by
  intro hn
  cases hn

/-- A sequence is nullable when all its parts are. -/
@[simp] theorem nullable_sequence_iff {parts : List (Matcher ν)} :
    (sequence parts).Nullable rules ↔ ∀ m ∈ parts, m.Nullable rules := by
  constructor
  · intro hn
    cases hn with
    | sequence h => exact h
  · exact Nullable.sequence

/-- A choice is nullable when one of its alternatives is. -/
@[simp] theorem nullable_oneOf_iff {choices : List (Matcher ν)} :
    (oneOf choices).Nullable rules ↔ ∃ m ∈ choices, m.Nullable rules := by
  constructor
  · intro hn
    cases hn with
    | oneOf mem h => exact ⟨_, mem, h⟩
  · rintro ⟨m, mem, h⟩
    exact Nullable.oneOf mem h

/-- A repetition up to a terminator is nullable when the terminator is. -/
@[simp] theorem nullable_upTo_iff {body terminator : Matcher ν} :
    (upTo body terminator).Nullable rules ↔ terminator.Nullable rules := by
  constructor
  · intro hn
    cases hn with
    | upTo _ h => exact h
  · exact Nullable.upTo body

/-- A condition makes no difference to whether nothing may be matched. -/
@[simp] theorem nullable_when_iff {test : Condition} {body : Matcher ν} :
    (when test body).Nullable rules ↔ body.Nullable rules := by
  constructor
  · intro hn
    cases hn with
    | when _ h => exact h
  · exact Nullable.when test

/-- A choice by a condition may match nothing if one of its branches may. -/
@[simp] theorem nullable_whenElse_iff {test : Condition} {body otherwise : Matcher ν} :
    (whenElse test body otherwise).Nullable rules ↔
      body.Nullable rules ∨ otherwise.Nullable rules := by
  constructor
  · intro hn
    cases hn with
    | whenElse _ _ h => exact Or.inl h
    | otherwise _ _ h => exact Or.inr h
  · rintro (h | h)
    · exact Nullable.whenElse test otherwise h
    · exact Nullable.otherwise test body h

/-- A label makes no difference to whether nothing may be matched. -/
@[simp] theorem nullable_labelled_iff {label : String} {body : Matcher ν} :
    (labelled label body).Nullable rules ↔ body.Nullable rules := by
  constructor
  · intro hn
    cases hn with
    | labelled _ h => exact h
  · exact Nullable.labelled label

/-- Hooks make no difference to whether nothing may be matched. -/
@[simp] theorem nullable_hooked_iff {onEntry : List EntryHook} {onMatch : List MatchHook}
    {body : Matcher ν} :
    (hooked onEntry onMatch body).Nullable rules ↔ body.Nullable rules := by
  constructor
  · intro hn
    cases hn with
    | hooked _ _ h => exact h
  · exact Nullable.hooked onEntry onMatch

end Matcher

namespace Jsp

/-- A reference to a rule is nullable when what the rule matches is. -/
@[simp] theorem nullable_ref_iff {r : Rule} :
    (Matcher.ref r).Nullable rules ↔ (production r).Nullable rules := by
  constructor
  · intro hn
    cases hn with
    | ref bound h =>
        cases bound
        simpa [rule] using h
  · intro h
    exact Matcher.Nullable.ref rfl (Matcher.Nullable.labelled _ h)

/-- A fixed text of the page grammar is not nullable. -/
@[simp] theorem not_nullable_text (s : String) (h : s.toList ≠ []) :
    ¬(text s h).Nullable rules := Matcher.not_nullable_literal _ _

/-- No rule of the page grammar is nullable. -/
theorem not_nullable_rule (r : Rule) : ¬(rule r).Nullable rules := by
  rw [rule, Matcher.nullable_labelled_iff]
  cases r <;> simp [production, between, pageAttributeNames, taglibAttributeNames]

/-- Recording an attribute name reports a duplicate at most. -/
theorem recordAttributeName_isReported {name : Text} {view : View} {cause : Cause}
    (h : (recordAttributeName name view).2 = some cause) : cause.IsReported := by
  unfold recordAttributeName at h
  split at h
  · cases h
    exact .duplicate name
  · cases h

/-- What recording a name of a page directive reports is among the causes of the page grammar. -/
theorem recordPageAttributeName_isReported {name : Text} {view : View} {cause : Cause}
    (h : (recordPageAttributeName name view).2 = some cause) : cause.IsReported := by
  unfold recordPageAttributeName at h
  split at h
  · cases h
  · exact recordAttributeName_isReported h

/-- What checking a library directive reports is among the causes of the page grammar. -/
theorem checkTaglibAttributes_isReported {name : Text} {view : View} {cause : Cause}
    (h : (checkTaglibAttributes name view).2 = some cause) : cause.IsReported := by
  simp only [checkTaglibAttributes] at h
  split at h
  · cases h
    exact .noPrefix
  · split at h
    · cases h
      exact .notOneSource
    · cases h

/-- The hooks of a rule report duplicate attributes and incomplete library directives alone. -/
theorem production_reportsOnly (r : Rule) : (production r).ReportsOnly Cause.IsReported := by
  intro hook mem
  have known : hook = recordAttributeName ∨ hook = recordPageAttributeName ∨
      hook = checkTaglibAttributes ∨ hook = captureTagName ∨ ∃ on, hook = switchEl on := by
    cases r <;>
      simp [production, between, pageAttributeNames, taglibAttributeNames, text,
        Matcher.matchHooks, Matcher.allMatchHooks] at mem <;> grind
  rcases known with rfl | rfl | rfl | rfl | ⟨on, rfl⟩
  · exact fun _ _ _ => recordAttributeName_isReported
  · exact fun _ _ _ => recordPageAttributeName_isReported
  · exact fun _ _ _ => checkTaglibAttributes_isReported
  · simp [captureTagName]
  · simp [switchEl]

/-- The hooks of the rules report duplicate attributes and incomplete library directives alone. -/
theorem rules_reportsOnly_isReported (r : Rule) (body : Production) (h : rules.body r = some body) :
    body.ReportsOnly Cause.IsReported := by
  cases h
  intro hook mem
  exact production_reportsOnly r hook (by simpa [rule, Matcher.matchHooks] using mem)

/-- The hooks of the rules report no missing end tag. -/
theorem rules_reportsOnly (r : Rule) (body : Production) (h : rules.body r = some body) :
    body.ReportsOnly Cause.IsNotMissing :=
  fun hook mem text view cause hreport =>
    (rules_reportsOnly_isReported r body h hook mem text view cause hreport).isNotMissing

/-- The matcher of an end tag has no hooks and is not nullable. -/
theorem closer_rule (name : Text) (nonempty : name ≠ []) :
    (∀ reports, (closer name nonempty (rule .space)).ReportsOnly reports) ∧
      ¬(closer name nonempty (rule .space)).Nullable rules := by
  constructor
  · intro reports hook mem
    simp [closer, rule, production, text, Matcher.matchHooks, Matcher.allMatchHooks] at mem
  · simp [closer]

end Jsp

end Stencil
