import Stencil.Matcher.Draft
import Stencil.Matcher.Run

/-!
# References

A matcher refers to rules by name, and trying it looks their matchers up. Under rules that refer to
defined rules alone (`Rules.Closed`) every look-up succeeds, so that trying a matcher can fail to
come to an end only by nesting too deep (`Matcher.onlyTooDeep_step`).

A draft that stands for a matcher refers to the same rules in the same order
(`Draft.refs_of_matcher?`).
-/

set_option autoImplicit false

namespace Stencil

namespace Matcher

variable {ν : Type}

mutual

/-- The rules that a matcher refers to, in order. -/
def refs : Matcher ν → List ν
  | literal _ _ => []
  | pattern _ => []
  | sequence parts => refsOfAll parts
  | oneOf choices => refsOfAll choices
  | maybe body => body.refs
  | many body => body.refs
  | upTo body terminator => body.refs ++ terminator.refs
  | when _ body => body.refs
  | whenElse _ body otherwise => body.refs ++ otherwise.refs
  | ref name => [name]
  | labelled _ body => body.refs
  | hooked _ _ body => body.refs

/-- The rules that matchers refer to, in order. -/
def refsOfAll : List (Matcher ν) → List ν
  | [] => []
  | m :: ms => m.refs ++ refsOfAll ms

end

/-- The references of one of several matchers are among those of all. -/
theorem refs_subset_refsOfAll {m : Matcher ν} {ms : List (Matcher ν)} (h : m ∈ ms) :
    m.refs ⊆ refsOfAll ms := by
  induction ms with
  | nil => cases h
  | cons m' ms ih =>
      rw [refsOfAll]
      rcases List.mem_cons.1 h with rfl | h
      · exact List.subset_append_left ..
      · exact List.subset_append_of_subset_right _ (ih h)

end Matcher

namespace Draft

variable {ν : Type}

/-- What a text stands for refers to nothing. -/
theorem refs_of_ofText? {text : Text} {m : Matcher ν} (h : Matcher.ofText? text = .ok m) :
    text.isEmpty = false ∧ m.refs = [] := by
  unfold Matcher.ofText? at h
  split at h
  · rename_i nonempty
    cases h
    exact ⟨by simpa using nonempty, rfl⟩
  · cases h

/-- The only part of a form is checked like the form. -/
theorem part_eq {d : Draft ν} {names : List ν} (hrefs : d.refs = (names, true))
    (hfilled : d.isFilled = true) : d.part = (names, true) := by
  rw [part, hrefs, hfilled]
  rfl

/-- What is made of an answer is made of a value. -/
theorem exists_of_return {ε α β : Type} {x : Except ε α} {f : α → β} {r : β}
    (h : (do return f (← x)) = Except.ok r) : ∃ v, x = .ok v ∧ r = f v := by
  cases x with
  | error e => cases h
  | ok v =>
      cases h
      exact ⟨v, rfl, rfl⟩

/-- What is made of two answers is made of two values. -/
theorem exists_of_return₂ {ε α β γ : Type} {x : Except ε α} {y : Except ε β} {f : α → β → γ}
    {r : γ} (h : (do return f (← x) (← y)) = Except.ok r) :
    ∃ v w, x = .ok v ∧ y = .ok w ∧ r = f v w := by
  cases x with
  | error e => cases h
  | ok v =>
      obtain ⟨w, hy, hr⟩ := exists_of_return (f := f v) h
      exact ⟨v, w, rfl, hy, hr⟩

mutual

/-- A draft that stands for a matcher refers to the same rules, and checking it comes to the end. -/
theorem refs_of_matcher? (d : Draft ν) {m : Matcher ν} (h : d.matcher? = .ok m) :
    d.refs = (m.refs, true) ∧ d.isFilled = true := by
  match d with
  | plain text =>
      obtain ⟨hfilled, hm⟩ := refs_of_ofText? h
      exact ⟨by rw [refs, hm], by rw [isFilled, hfilled]; rfl⟩
  | literal text =>
      obtain ⟨hfilled, hm⟩ := refs_of_ofText? h
      exact ⟨by rw [refs, hm, hfilled]; rfl, rfl⟩
  | pattern p | ref name =>
      cases h
      exact ⟨by rw [refs, Matcher.refs], rfl⟩
  | sequence parts | oneOf parts =>
      obtain ⟨ms, hparts, rfl⟩ := exists_of_return h
      exact ⟨by rw [refs, Matcher.refs, refsAll_of_matchers? parts hparts], rfl⟩
  | maybe body | many body | when _ body | labelled _ body | hooked _ _ body =>
      obtain ⟨m', hbody, rfl⟩ := exists_of_return h
      obtain ⟨hrefs, hfilled⟩ := refs_of_matcher? body hbody
      exact ⟨by rw [refs, Matcher.refs, part_eq hrefs hfilled], rfl⟩
  | upTo body other | whenElse _ body other =>
      obtain ⟨m₁, m₂, hbody, hother, rfl⟩ := exists_of_return₂ h
      obtain ⟨hrefs, hfilled⟩ := refs_of_matcher? body hbody
      obtain ⟨hrefs', hfilled'⟩ := refs_of_matcher? other hother
      exact ⟨by simp only [refs, Matcher.refs, hrefs, hrefs', hfilled, hfilled']; rfl, rfl⟩

/-- Drafts that stand for matchers refer to what the matchers refer to. -/
theorem refsAll_of_matchers? (ds : List (Draft ν)) {ms : List (Matcher ν)}
    (h : matchers? ds = .ok ms) (filled : Bool) :
    refsAll ds filled = (Matcher.refsOfAll ms, filled) := by
  match ds with
  | [] =>
      cases h
      rw [refsAll, Matcher.refsOfAll]
  | d :: ds =>
      obtain ⟨m, ms', hd, hds, rfl⟩ := exists_of_return₂ h
      obtain ⟨hrefs, hfilled⟩ := refs_of_matcher? d hd
      simp only [refsAll, Matcher.refsOfAll, hrefs, hfilled, Bool.and_true,
        refsAll_of_matchers? ds hds]

end

end Draft

/-! ## Trying under closed rules -/

namespace Step

/-- A step that comes to an end unless it nests too deep. -/
def OnlyTooDeep (step : Step) : Prop := ∀ ⦃a c halt⦄, step a c = .error halt → halt = .tooDeep

variable {step terminator otherwise : Step}

/-- A look at the text comes to an end. -/
theorem onlyTooDeep_pure (stop? : Cursor → Option Cursor) : OnlyTooDeep (Step.pure stop?) := by
  intro a c halt h
  cases h

/-- A guard asks for nothing that could be missing. -/
theorem OnlyTooDeep.guarded (h : OnlyTooDeep step) : OnlyTooDeep (Step.guarded step) := by
  intro a c halt hrun
  unfold Step.guarded at hrun
  split at hrun
  · cases hrun
  · exact h hrun

/-- Neither does a layer. -/
theorem OnlyTooDeep.staged (h : OnlyTooDeep step) : OnlyTooDeep (Step.staged step) := by
  intro a c halt hrun
  unfold Step.staged at hrun
  split at hrun
  · rename_i hstep
    cases hrun
    exact h hstep
  · cases hrun

/-- Hooks run to their end, so that what they stand around decides. -/
theorem OnlyTooDeep.hooked (h : OnlyTooDeep step) (onEntry : List EntryHook)
    (onMatch : List MatchHook) : OnlyTooDeep (Step.hooked onEntry onMatch step) := by
  intro a c halt hrun
  unfold Step.hooked at hrun
  split at hrun
  · rename_i hstep
    cases hrun
    exact h hstep
  · cases hrun
  · split at hrun <;> cases hrun

variable {ν : Type} {run : Matcher ν → Step}

/-- A sequence comes to an end if each of its parts does. -/
theorem onlyTooDeep_sequence {parts : List (Matcher ν)} (h : ∀ m ∈ parts, OnlyTooDeep (run m)) :
    OnlyTooDeep (Step.sequence (parts.map run)) := by
  induction parts with
  | nil =>
      intro a c halt hrun
      cases hrun
  | cons m parts ih =>
      obtain ⟨hm, hparts⟩ := List.forall_mem_cons.1 h
      intro a c halt hrun
      simp only [List.map_cons, Step.sequence] at hrun
      split at hrun
      · exact ih hparts hrun
      · exact hm hrun

/-- A choice comes to an end if each of its alternatives does. -/
theorem onlyTooDeep_oneOf {choices : List (Matcher ν)} (h : ∀ m ∈ choices, OnlyTooDeep (run m)) :
    OnlyTooDeep (Step.oneOf (choices.map run)) := by
  induction choices with
  | nil =>
      intro a c halt hrun
      cases hrun
  | cons m choices ih =>
      obtain ⟨hm, hchoices⟩ := List.forall_mem_cons.1 h
      intro a c halt hrun
      simp only [List.map_cons, Step.oneOf] at hrun
      split at hrun
      · split at hrun
        · cases hrun
        · exact ih hchoices hrun
      · exact hm hrun

/-- An option comes to an end if its body does. -/
theorem OnlyTooDeep.maybe (h : OnlyTooDeep step) : OnlyTooDeep (Step.maybe step) := by
  intro a c halt hrun
  unfold Step.maybe at hrun
  split at hrun
  · split at hrun <;> cases hrun
  · exact h hrun

/-- The rounds of a repetition come to an end if the body does. -/
theorem OnlyTooDeep.more (h : OnlyTooDeep step) (count : Nat) :
    OnlyTooDeep (Step.more step count) := by
  induction count with
  | zero =>
      intro a c halt hrun
      cases hrun
      rfl
  | succ count ih =>
      intro a c halt hrun
      unfold Step.more at hrun
      split at hrun
      · split at hrun
        · cases hrun
        · exact ih hrun
      · split at hrun <;> cases hrun
      · rename_i hstep
        cases hrun
        exact h hstep

/-- A repetition comes to an end if its body does. -/
theorem OnlyTooDeep.many (h : OnlyTooDeep step) (count : Nat) :
    OnlyTooDeep (Step.many step count) := by
  intro a c halt hrun
  unfold Step.many at hrun
  split at hrun
  · split at hrun
    · cases hrun
    · exact h.more count hrun
  · exact h hrun

/-- A repetition up to a terminator comes to an end if its body and the terminator do. -/
theorem OnlyTooDeep.upTo (h : OnlyTooDeep step) (hterm : OnlyTooDeep terminator) (label : String)
    (start count : Nat) : OnlyTooDeep (Step.upTo step terminator label start count) := by
  induction count with
  | zero =>
      intro a c halt hrun
      cases hrun
      rfl
  | succ count ih =>
      intro a c halt hrun
      unfold Step.upTo at hrun
      split at hrun
      · split at hrun
        · cases hrun
        split at hrun
        · cases hrun
        split at hrun
        · split at hrun
          · cases hrun
          · exact ih hrun
        · exact h hrun
      · exact hterm hrun

/-- A choice by a condition comes to an end if both branches do. -/
theorem OnlyTooDeep.asking (h : OnlyTooDeep step) (hother : OnlyTooDeep otherwise)
    (test : Condition) :
    OnlyTooDeep fun a c =>
      if test.holds a.store.view then step (a.ask test) c else otherwise (a.ask test) c := by
  intro a c halt hrun
  dsimp only at hrun
  split at hrun
  · exact h hrun
  · exact hother hrun

end Step

variable {ν : Type}

/-- All rules that a matcher refers to are defined. -/
def Rules.Defines (rules : Rules ν) (m : Matcher ν) : Prop :=
  ∀ name ∈ m.refs, (rules.body name).isSome = true

/-- Rules that refer to defined rules alone. -/
def Rules.Closed (rules : Rules ν) : Prop :=
  ∀ ⦃name body⦄, rules.body name = some body → rules.Defines body

namespace Matcher

/-- Under closed rules no look-up fails. -/
theorem onlyTooDeep_step {rules : Rules ν} (hrules : rules.Closed) (depth : Nat) {m : Matcher ν}
    (hm : rules.Defines m) : (m.step rules depth).OnlyTooDeep := by
  induction depth generalizing m with
  | zero =>
      intro a c halt h
      cases h
      rfl
  | succ depth ih =>
      unfold step
      apply Step.OnlyTooDeep.guarded
      cases m with
      | literal text nonempty => exact Step.onlyTooDeep_pure _
      | pattern p => exact Step.onlyTooDeep_pure _
      | sequence parts =>
          refine (Step.onlyTooDeep_sequence fun m hmem => ih fun name hname => ?_).staged
          exact hm name (refs_subset_refsOfAll hmem hname)
      | oneOf choices =>
          refine (Step.onlyTooDeep_oneOf fun m hmem => ih fun name hname => ?_).staged
          exact hm name (refs_subset_refsOfAll hmem hname)
      | maybe body => exact (ih (m := body) hm).maybe.staged
      | many body => exact ((ih (m := body) hm).many depth).staged
      | upTo body terminator =>
          obtain ⟨hbody, hends⟩ := List.forall_mem_append.1 hm
          have hupTo := fun start => (ih hbody).upTo (ih hends)
            (terminator.description rules.label) start depth
          exact Step.OnlyTooDeep.staged fun a c halt h => hupTo c.position h
      | when test body =>
          have hbody := ih (m := body) hm
          exact hbody.asking (Step.onlyTooDeep_pure fun _ => none) test
      | whenElse test body otherwise =>
          obtain ⟨hbody, hother⟩ := List.forall_mem_append.1 hm
          exact (ih hbody).asking (ih hother) test
      | ref name =>
          obtain ⟨body, hbody⟩ := Option.isSome_iff_exists.1 (hm name (List.mem_singleton_self _))
          simp only [hbody]
          exact ih (hrules hbody)
      | labelled label body => exact ih hm
      | hooked onEntry onMatch body => exact ((ih (m := body) hm).hooked onEntry onMatch).staged

end Matcher

end Stencil
