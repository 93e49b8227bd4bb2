import Stencil.Matcher.Hook
import Stencil.Proofs.Matcher.Reading
import Stencil.Proofs.Store.Layers

/-!
# What a matcher writes to the store

A matcher closes every layer that it opens, and what it writes is in the newest layer that was open
before (`Step.WritesOnTop`). The parts of a step may fail with writes of theirs in that layer, which
is why steps with several parts work in a layer of their own: `Step.staged` makes of such a step one
that undoes its writes when it fails (`Step.Transactional`).

A choice by a condition has no layer of its own. If its condition writes, the write outlives a match
that fails, unless a layer around the choice is dropped for the same failure. `Matcher.Confined`
says where this is so. A matcher that is confined undoes its writes when it fails
(`Matcher.transactional_step`, by induction on the depth).
-/

set_option autoImplicit false

namespace Stencil

namespace Step

/-- A step that writes to the newest layer alone. -/
def WritesOnTop (step : Step) : Prop :=
  ∀ ⦃a c found a'⦄, step a c = .ok (found, a') → a.store.OnTop a'.store

/-- A step that writes to the newest layer alone, and undoes its writes when it fails. -/
def Transactional (step : Step) : Prop :=
  ∀ ⦃a c found a'⦄, step a c = .ok (found, a') →
    a.store.OnTop a'.store ∧ (found = none → a'.store = a.store)

variable {step terminator otherwise : Step}

/-- A step that undoes its writes when it fails writes to the newest layer alone. -/
theorem Transactional.writesOnTop (h : Transactional step) : WritesOnTop step := by
  intro a c found a' hrun
  exact (h hrun).1

/-- A step that looks at the text alone has nothing to undo. -/
theorem transactional_pure (stop? : Cursor → Option Cursor) : Transactional (Step.pure stop?) := by
  intro a c found a' hrun
  cases hrun
  exact ⟨.refl _, fun _ => rfl⟩

/-- A guard adds no writes, so what it guards may be undone as before. -/
theorem Transactional.guarded (h : Transactional step) : Transactional (Step.guarded step) := by
  intro a c found a' hrun
  unfold Step.guarded at hrun
  split at hrun
  · cases hrun
    exact ⟨.refl _, fun _ => rfl⟩
  · exact h hrun

/-- In a layer of its own a step undoes its writes when it fails, also when it fails because a hook
has reported a cause. -/
theorem WritesOnTop.staged (h : WritesOnTop step) : Transactional (Step.staged step) := by
  intro a c found a' hrun
  unfold Step.staged at hrun
  split at hrun
  · cases hrun
  rename_i found' b hstep
  have hlayer : a.store.begin.OnTop b.store := h hstep
  unfold Attempt.settle at hrun
  split at hrun
  · cases hrun
    exact ⟨hlayer.commit, nofun⟩
  · cases hrun
    have hback : b.store.rollback = a.store := hlayer.rollback_eq
    refine ⟨?_, fun _ => hback⟩
    show a.store.OnTop b.store.rollback
    rw [hback]
    exact .refl _

/-- Hooks on entry write to the newest layer alone. -/
theorem onTop_enter (onEntry : List EntryHook) (a : Attempt) :
    a.store.OnTop (a.enter onEntry).store := by
  induction onEntry generalizing a with
  | nil => exact .refl _
  | cons hook hooks ih =>
      have hfirst := Store.onTop_edits a.store (hook a.store.view)
      exact hfirst.trans (ih { a with store := a.store.edits (hook a.store.view) })

/-- Hooks on a match write to the newest layer alone. -/
theorem onTop_leave (text : Text) (position : Nat) (onMatch : List MatchHook) (a : Attempt) :
    a.store.OnTop (a.leave text position onMatch).store := by
  induction onMatch generalizing a with
  | nil => exact .refl _
  | cons hook hooks ih =>
      unfold Attempt.leave
      split
      · rename_i edits _
        have hfirst := Store.onTop_edits a.store edits
        exact hfirst.trans (ih { a with store := a.store.edits edits })
      · exact Store.onTop_edits a.store _

/-- A guarded step writes to the newest layer alone if the step does. -/
theorem WritesOnTop.guarded (h : WritesOnTop step) : WritesOnTop (Step.guarded step) := by
  intro a c found a' hrun
  unfold Step.guarded at hrun
  split at hrun
  · cases hrun
    exact .refl _
  · exact h hrun

/-- What a condition writes goes to the newest layer. -/
theorem onTop_ask (test : Condition) (a : Attempt) : a.store.OnTop (a.ask test).store :=
  Store.onTop_edits a.store (test.edits a.store.view)

/-- Hooks around a step write where the step writes, in the newest layer. -/
theorem WritesOnTop.hooked (h : WritesOnTop step) (onEntry : List EntryHook)
    (onMatch : List MatchHook) : WritesOnTop (Step.hooked onEntry onMatch step) := by
  intro a c found a' hrun
  have hentry := onTop_enter onEntry a
  unfold Step.hooked at hrun
  split at hrun
  · cases hrun
  · rename_i hstep
    cases hrun
    exact hentry.trans (h hstep)
  · rename_i stop b hstep
    split at hrun
    · cases hrun
      exact hentry.trans (h hstep)
    · cases hrun
      exact (hentry.trans (h hstep)).trans (onTop_leave _ _ onMatch b)

/-! ## Combinations of steps -/

/-- A sequence writes to the newest layer alone if its parts do. -/
theorem writesOnTop_sequence {ν : Type} {parts : List (Matcher ν)} {run : Matcher ν → Step}
    (h : ∀ m ∈ parts, WritesOnTop (run m)) : WritesOnTop (Step.sequence (parts.map run)) := by
  induction parts with
  | nil =>
      intro a c found a' hrun
      cases hrun
      exact .refl _
  | cons m ms ih =>
      intro a c found a' hrun
      have hfirst := h m (List.mem_cons_self ..)
      have hothers := ih fun m' hmem => h m' (List.mem_cons_of_mem _ hmem)
      rw [List.map_cons, Step.sequence] at hrun
      dsimp only at hrun
      split at hrun
      · rename_i stop b hstep
        exact (hfirst hstep).trans (hothers hrun)
      · exact hfirst hrun

/-- A choice writes to the newest layer alone if its alternatives do. -/
theorem writesOnTop_oneOf {ν : Type} {choices : List (Matcher ν)} {run : Matcher ν → Step}
    (h : ∀ m ∈ choices, WritesOnTop (run m)) : WritesOnTop (Step.oneOf (choices.map run)) := by
  induction choices with
  | nil =>
      intro a c found a' hrun
      cases hrun
      exact .refl _
  | cons m ms ih =>
      intro a c found a' hrun
      have hfirst := h m (List.mem_cons_self ..)
      have hothers := ih fun m' hmem => h m' (List.mem_cons_of_mem _ hmem)
      rw [List.map_cons, Step.oneOf] at hrun
      dsimp only at hrun
      split at hrun
      · rename_i b hstep
        split at hrun
        · cases hrun
          exact hfirst hstep
        · exact (hfirst hstep).trans (hothers hrun)
      · exact hfirst hrun

/-- An option writes to the newest layer alone if its body does. -/
theorem WritesOnTop.maybe (h : WritesOnTop step) : WritesOnTop (Step.maybe step) := by
  intro a c found a' hrun
  unfold Step.maybe at hrun
  split at hrun
  · rename_i b hstep
    split at hrun <;> cases hrun <;> exact h hstep
  · exact h hrun

/-- Rounds of a repetition write to the newest layer alone if the body does. -/
theorem WritesOnTop.more (h : WritesOnTop step) (count : Nat) :
    WritesOnTop (Step.more step count) := by
  induction count with
  | zero =>
      intro a c found a' hrun
      cases hrun
  | succ count ih =>
      intro a c found a' hrun
      unfold Step.more at hrun
      split at hrun
      · rename_i stop b hstep
        split at hrun
        · cases hrun
          exact h hstep
        · exact (h hstep).trans (ih hrun)
      · rename_i b hstep
        split at hrun <;> cases hrun <;> exact h hstep
      · cases hrun

/-- A repetition writes to the newest layer alone if its body does. -/
theorem WritesOnTop.many (h : WritesOnTop step) (count : Nat) :
    WritesOnTop (Step.many step count) := by
  intro a c found a' hrun
  unfold Step.many at hrun
  split at hrun
  · rename_i stop b hstep
    split at hrun
    · cases hrun
      exact h hstep
    · exact (h hstep).trans (h.more count hrun)
  · exact h hrun

/-- A repetition up to a terminator writes to the newest layer alone if its body and the terminator
do. -/
theorem WritesOnTop.upTo (h : WritesOnTop step) (hterm : WritesOnTop terminator) (label : String)
    (start count : Nat) : WritesOnTop (Step.upTo step terminator label start count) := by
  induction count with
  | zero =>
      intro a c found a' hrun
      cases hrun
  | succ count ih =>
      intro a c found a' hrun
      unfold Step.upTo at hrun
      split at hrun
      · rename_i b hends
        have hb : a.store.OnTop b.store := hterm hends
        split at hrun
        · cases hrun
          exact hb
        split at hrun
        · cases hrun
          exact hb
        split at hrun
        · rename_i stop b' hstep
          split at hrun
          · cases hrun
            exact hb.trans (h hstep)
          · exact (hb.trans (h hstep)).trans (ih hrun)
        · exact hb.trans (h hrun)
      · exact hterm hrun

/-- A choice by a condition writes to the newest layer alone, since the condition does and both
branches do. -/
theorem WritesOnTop.asking (h : WritesOnTop step) (hother : WritesOnTop otherwise)
    (test : Condition) :
    WritesOnTop fun a c =>
      if test.holds a.store.view then step (a.ask test) c else otherwise (a.ask test) c := by
  intro a c found a' hrun
  dsimp only at hrun
  split at hrun
  · exact (onTop_ask test a).trans (h hrun)
  · exact (onTop_ask test a).trans (hother hrun)

/-- A choice by a condition that only asks undoes its writes when it fails if both branches do. -/
theorem Transactional.asking (h : Transactional step) (hother : Transactional otherwise)
    {test : Condition} (hasks : test.OnlyAsks) :
    Transactional fun a c =>
      if test.holds a.store.view then step (a.ask test) c else otherwise (a.ask test) c := by
  intro a c found a' hrun
  dsimp only at hrun
  rw [hasks.attempt_ask] at hrun
  split at hrun
  · exact h hrun
  · exact hother hrun

end Step

/-! ## Where conditions write -/

namespace Matcher

variable {ν : Type}

mutual

/-- A matcher whose patterns and conditions are of some sorts. -/
def BuiltFrom (onPattern : Pattern → Prop) (onTest : Condition → Prop) : Matcher ν → Prop
  | literal _ _ => True
  | pattern p => onPattern p
  | sequence parts => AllBuiltFrom onPattern onTest parts
  | oneOf choices => AllBuiltFrom onPattern onTest choices
  | maybe body => body.BuiltFrom onPattern onTest
  | many body => body.BuiltFrom onPattern onTest
  | upTo body terminator =>
    body.BuiltFrom onPattern onTest ∧ terminator.BuiltFrom onPattern onTest
  | when test body => onTest test ∧ body.BuiltFrom onPattern onTest
  | whenElse test body otherwise =>
    onTest test ∧ body.BuiltFrom onPattern onTest ∧ otherwise.BuiltFrom onPattern onTest
  | ref _ => True
  | labelled _ body => body.BuiltFrom onPattern onTest
  | hooked _ _ body => body.BuiltFrom onPattern onTest

/-- Matchers whose patterns and conditions are of some sorts. -/
def AllBuiltFrom (onPattern : Pattern → Prop) (onTest : Condition → Prop) :
    List (Matcher ν) → Prop
  | [] => True
  | m :: ms => m.BuiltFrom onPattern onTest ∧ AllBuiltFrom onPattern onTest ms

end

mutual

/-- A matcher whose conditions write only where a failure drops what they write. Inside a layer of
its own, which a sequence, a repetition up to a terminator or a matcher with hooks opens, a part
that fails takes the layer with it. A part that may fail while the layer stays, such as a choice, an
option, a part that is repeated or a terminator, must not depend on that. The first argument says
whether a failure drops the layer around the matcher. -/
def Confined : Prop → Matcher ν → Prop
  | _, literal _ _ => True
  | _, pattern _ => True
  | _, sequence parts => AllConfined True parts
  | _, oneOf choices => AllConfined False choices
  | _, maybe body => body.Confined False
  | _, many body => body.Confined False
  | _, upTo body terminator => body.Confined True ∧ terminator.Confined False
  | layered, when test body => (layered ∨ test.OnlyAsks) ∧ body.Confined layered
  | layered, whenElse test body otherwise =>
    (layered ∨ test.OnlyAsks) ∧ body.Confined layered ∧ otherwise.Confined layered
  | _, ref _ => True
  | layered, labelled _ body => body.Confined layered
  | _, hooked _ _ body => body.Confined True

/-- Matchers whose conditions write only where a failure drops what they write. -/
def AllConfined : Prop → List (Matcher ν) → Prop
  | _, [] => True
  | layered, m :: ms => m.Confined layered ∧ AllConfined layered ms

end

/-- Each of a list of matchers is built from what the list is built from. -/
theorem AllBuiltFrom.builtFrom {onPattern : Pattern → Prop} {onTest : Condition → Prop}
    {ms : List (Matcher ν)} (h : AllBuiltFrom onPattern onTest ms) {m : Matcher ν} (hmem : m ∈ ms) :
    m.BuiltFrom onPattern onTest := by
  induction ms with
  | nil => cases hmem
  | cons m' ms ih =>
      obtain ⟨hfirst, hothers⟩ := h
      rcases List.mem_cons.1 hmem with rfl | hmem
      · exact hfirst
      · exact ih hothers hmem

/-- Each of a list of confined matchers is confined. -/
theorem AllConfined.confined {layered : Prop} {ms : List (Matcher ν)} (h : AllConfined layered ms)
    {m : Matcher ν} (hmem : m ∈ ms) : m.Confined layered := by
  induction ms with
  | nil => cases hmem
  | cons m' ms ih =>
      obtain ⟨hfirst, hothers⟩ := h
      rcases List.mem_cons.1 hmem with rfl | hmem
      · exact hfirst
      · exact ih hothers hmem

mutual

/-- A matcher whose conditions write nothing is confined, whatever stands around it. -/
theorem BuiltFrom.confined {onPattern : Pattern → Prop} {m : Matcher ν} (layered : Prop)
    (h : m.BuiltFrom onPattern Condition.OnlyAsks) : m.Confined layered := by
  cases m with
  | literal text nonempty => trivial
  | pattern p => trivial
  | sequence parts => exact AllBuiltFrom.allConfined True h
  | oneOf choices => exact AllBuiltFrom.allConfined False h
  | maybe body => exact BuiltFrom.confined False h
  | many body => exact BuiltFrom.confined False h
  | upTo body terminator => exact ⟨BuiltFrom.confined True h.1, BuiltFrom.confined False h.2⟩
  | when test body => exact ⟨.inr h.1, BuiltFrom.confined layered h.2⟩
  | whenElse test body otherwise =>
      exact ⟨.inr h.1, BuiltFrom.confined layered h.2.1, BuiltFrom.confined layered h.2.2⟩
  | ref name => trivial
  | labelled label body =>
      have hbody : body.BuiltFrom onPattern Condition.OnlyAsks := h
      exact hbody.confined layered
  | hooked onEntry onMatch body => exact BuiltFrom.confined True h

/-- Matchers whose conditions write nothing are confined. -/
theorem AllBuiltFrom.allConfined {onPattern : Pattern → Prop} {ms : List (Matcher ν)}
    (layered : Prop) (h : AllBuiltFrom onPattern Condition.OnlyAsks ms) :
    AllConfined layered ms := by
  cases ms with
  | nil => trivial
  | cons m ms =>
      exact ⟨BuiltFrom.confined layered h.1, AllBuiltFrom.allConfined layered h.2⟩

end

end Matcher

/-- Rules all of which are confined. -/
def Rules.Confined {ν : Type} (rules : Rules ν) : Prop :=
  ∀ name body, rules.body name = some body → body.Confined False

/-- Rules all of which are built from patterns and conditions of some sorts. -/
def Rules.BuiltFrom {ν : Type} (rules : Rules ν) (onPattern : Pattern → Prop)
    (onTest : Condition → Prop) : Prop :=
  ∀ name body, rules.body name = some body → body.BuiltFrom onPattern onTest

/-- Rules whose conditions write nothing are confined. -/
theorem Rules.BuiltFrom.confined {ν : Type} {rules : Rules ν} {onPattern : Pattern → Prop}
    (h : rules.BuiltFrom onPattern Condition.OnlyAsks) : rules.Confined :=
  fun name body hbody => (h name body hbody).confined False

/-! ## Whole matchers -/

namespace Matcher

variable {ν : Type} (rules : Rules ν)

/-- Trying a matcher writes to the newest layer alone. -/
theorem writesOnTop_step (depth : Nat) (m : Matcher ν) : (m.step rules depth).WritesOnTop := by
  induction depth generalizing m with
  | zero =>
      intro a c found a' hrun
      cases hrun
  | succ depth ih =>
      unfold step
      apply Step.WritesOnTop.guarded
      cases m with
      | literal text nonempty => exact (Step.transactional_pure _).writesOnTop
      | pattern p => exact (Step.transactional_pure _).writesOnTop
      | sequence parts => exact (Step.writesOnTop_sequence fun m _ => ih m).staged.writesOnTop
      | oneOf choices => exact (Step.writesOnTop_oneOf fun m _ => ih m).staged.writesOnTop
      | maybe body => exact (ih body).maybe.staged.writesOnTop
      | many body => exact ((ih body).many depth).staged.writesOnTop
      | upTo body terminator =>
          -- the position at which a shortfall is noted does not matter
          apply Step.Transactional.writesOnTop
          apply Step.WritesOnTop.staged
          intro a c found a' hrun
          exact (ih body).upTo (ih terminator) _ _ _ hrun
      | when test body =>
          exact (ih body).asking (Step.transactional_pure fun _ => none).writesOnTop test
      | whenElse test body otherwise => exact (ih body).asking (ih otherwise) test
      | ref name =>
          cases hbody : rules.body name with
          | none =>
              intro a c found a' hrun
              simp only [hbody] at hrun
              cases hrun
          | some body =>
              simp only [hbody]
              exact ih body
      | labelled label body => exact ih body
      | hooked onEntry onMatch body => exact ((ih body).hooked onEntry onMatch).staged.writesOnTop

variable {rules}

/-- A matcher that is confined undoes its writes when it fails. -/
theorem transactional_step (hrules : rules.Confined) (depth : Nat) {m : Matcher ν}
    (hm : m.Confined False) : (m.step rules depth).Transactional := by
  induction depth generalizing m with
  | zero =>
      intro a c found a' hrun
      cases hrun
  | succ depth ih =>
      -- a layer of its own drops what the parts wrote, so they need not undo it themselves
      have hpart := writesOnTop_step rules depth
      unfold step
      apply Step.Transactional.guarded
      cases m with
      | literal text nonempty => exact Step.transactional_pure _
      | pattern p => exact Step.transactional_pure _
      | sequence parts => exact (Step.writesOnTop_sequence fun m _ => hpart m).staged
      | oneOf choices => exact (Step.writesOnTop_oneOf fun m _ => hpart m).staged
      | maybe body => exact (hpart body).maybe.staged
      | many body => exact ((hpart body).many depth).staged
      | upTo body terminator =>
          apply Step.WritesOnTop.staged
          intro a c found a' hrun
          exact (hpart body).upTo (hpart terminator) _ _ _ hrun
      | when test body =>
          obtain ⟨htest, hbody⟩ := hm
          have hasks : test.OnlyAsks := htest.resolve_left id
          exact (ih hbody).asking (Step.transactional_pure fun _ => none) hasks
      | whenElse test body otherwise =>
          obtain ⟨htest, hbody, hotherwise⟩ := hm
          have hasks : test.OnlyAsks := htest.resolve_left id
          exact (ih hbody).asking (ih hotherwise) hasks
      | ref name =>
          cases hbody : rules.body name with
          | none =>
              intro a c found a' hrun
              simp only [hbody] at hrun
              cases hrun
          | some body =>
              simp only [hbody]
              exact ih (hrules name body hbody)
      | labelled label body => exact ih hm
      | hooked onEntry onMatch body => exact ((hpart body).hooked onEntry onMatch).staged

/-- Whatever a matcher that comes to an end has found, as many layers are open as before. If it has
matched, every layer below the newest is exactly as it was; so it is, too, if it has found nothing.
If it has found nothing, and its conditions write nothing but what a failure drops, in particular if
they only ask (`BuiltFrom.confined`), the store is exactly as it was, also if a hook has reported a
cause. -/
theorem step_keeps_layers {depth : Nat} {m : Matcher ν} {a a' : Attempt} {c : Cursor}
    {found : Option Cursor} (h : m.step rules depth a c = .ok (found, a')) :
    a'.store.depth = a.store.depth ∧
    (rules.Confined → m.Confined False → found = none →
      a'.store.layers = a.store.layers ∧ a'.store = a.store) ∧
    a'.store.layers.tail = a.store.layers.tail := by
  have honTop := writesOnTop_step rules depth m h
  refine ⟨honTop.depth_eq, fun hrules hm hnone => ?_, honTop.tail_layers⟩
  rw [(transactional_step hrules depth hm h).2 hnone]
  exact ⟨rfl, rfl⟩

/-- A hook on the second part of a sequence reports a cause, when the first part has written to the
store already. The store has two layers, and the newest hides a settled value. -/
theorem step_keeps_layers_of_fault :
    let counted : Matcher String := .hooked [(EntryAction.count "tries").hook]
      [(MatchAction.set "name" (.flag true)).hook] (.literal ['x'])
    let refused : Matcher String := .hooked [] [(MatchAction.fail "a name").hook] (.literal ['y'])
    let m := Matcher.sequence [counted, .oneOf [refused, .literal ['z']]]
    let rules : Rules String := ⟨fun _ => none, id, 0⟩
    let a : Attempt := { store := ⟨[("name", .null)], [[("name", none)], [("depth", some .null)]]⟩ }
    let a' := { a with fatal := some ⟨.mismatch "a name", 1⟩ }
    m.step rules 5 a ⟨[], ['x', 'y'], 0⟩ = .ok (none, a') ∧ rules.Confined ∧ m.Confined False ∧
      a'.store.depth = 2 ∧ a'.store.layers = a.store.layers := by
  intro counted refused m rules a a'
  have hrun : m.step rules 5 a ⟨[], ['x', 'y'], 0⟩ = .ok (none, a') := rfl
  have hrules : rules.Confined := nofun
  have hm : m.Confined False := by simp [m, counted, refused, Confined, AllConfined]
  obtain ⟨hdepth, hfailed, -⟩ := step_keeps_layers hrun
  exact ⟨hrun, hrules, hm, hdepth, (hfailed hrules hm rfl).1⟩

end Matcher

end Stencil
