import Stencil.Matcher.Run

/-!
# A larger bound changes nothing

A step carries a bound on its depth, and what it comes to under one bound it comes to under every
larger one (`Matcher.step_mono`): it finds the same place and leaves the same state, layers and
notes included. `Step.Extends` compares two steps this far, and each way to combine steps keeps it.
-/

set_option autoImplicit false

namespace Stencil

namespace Step

/-- A step that does like another one wherever that one comes to an end. -/
def Extends (step' step : Step) : Prop :=
  ∀ a c, step' a c = step a c ∨ ∃ halt, step a c = .error halt

section Extends

variable {ν : Type} {run run' : Matcher ν → Step}
  {step step' terminator terminator' other other' : Step}

/-- A step extends itself. -/
theorem Extends.refl (step : Step) : Extends step step := fun _ _ => .inl rfl

/-- A guard around a step that extends another one extends a guard around that. -/
theorem Extends.guarded (h : Extends step' step) : Extends (guarded step') (guarded step) := by
  intro a c
  unfold Step.guarded
  split
  · exact .inl rfl
  · exact h a c

/-- A layer around a step that extends another one extends a layer around that. -/
theorem Extends.staged (h : Extends step' step) : Extends (staged step') (staged step) := by
  intro a c
  unfold Step.staged
  rcases h a.begin c with heq | ⟨halt, heq⟩
  · rw [heq]
    exact .inl rfl
  · rw [heq]
    exact .inr ⟨halt, rfl⟩

/-- Hooks around a step that extends another one extend the same hooks around that. -/
theorem Extends.hooked (h : Extends step' step) (onEntry : List EntryHook)
    (onMatch : List MatchHook) :
    Extends (hooked onEntry onMatch step') (hooked onEntry onMatch step) := by
  intro a c
  unfold Step.hooked
  rcases h (a.enter onEntry) c with heq | ⟨halt, heq⟩
  · rw [heq]
    exact .inl rfl
  · rw [heq]
    exact .inr ⟨halt, rfl⟩

/-- A sequence of steps that extend others extends the sequence of those. -/
theorem extends_sequence (parts : List (Matcher ν)) (h : ∀ m, Extends (run' m) (run m)) :
    Extends (sequence (parts.map run')) (sequence (parts.map run)) := by
  induction parts with
  | nil => exact .refl _
  | cons m ms ih =>
      intro a c
      rw [List.map_cons, List.map_cons, sequence, sequence]
      dsimp only
      rcases h m a c with heq | ⟨halt, heq⟩
      · rw [heq]
        rcases run m a c with halt | ⟨_ | stop, a'⟩
        · exact .inl rfl
        · exact .inl rfl
        · exact ih a' stop
      · rw [heq]
        exact .inr ⟨halt, rfl⟩

/-- A choice among steps that extend others extends the choice among those. -/
theorem extends_oneOf (choices : List (Matcher ν)) (h : ∀ m, Extends (run' m) (run m)) :
    Extends (oneOf (choices.map run')) (oneOf (choices.map run)) := by
  induction choices with
  | nil => exact .refl _
  | cons m ms ih =>
      intro a c
      rw [List.map_cons, List.map_cons, oneOf, oneOf]
      dsimp only
      rcases h m a c with heq | ⟨halt, heq⟩
      · rw [heq]
        rcases run m a c with halt | ⟨_ | stop, a'⟩
        · exact .inl rfl
        · dsimp only
          split
          · exact .inl rfl
          · exact ih a' c
        · exact .inl rfl
      · rw [heq]
        exact .inr ⟨halt, rfl⟩

/-- An option extends another one if its body extends the other body. -/
theorem Extends.maybe (h : Extends step' step) : Extends (maybe step') (maybe step) := by
  intro a c
  unfold Step.maybe
  rcases h a c with heq | ⟨halt, heq⟩
  · rw [heq]
    exact .inl rfl
  · rw [heq]
    exact .inr ⟨halt, rfl⟩

/-- With more rounds and a body that comes to an end more often a repetition does so, too. -/
theorem Extends.more (h : Extends step' step) {count count' : Nat} (hle : count ≤ count') :
    Extends (more step' count') (more step count) := by
  induction count generalizing count' with
  | zero => exact fun _ _ => .inr ⟨.tooDeep, rfl⟩
  | succ count ih =>
      obtain ⟨count', rfl⟩ : ∃ n, count' = n + 1 := ⟨count' - 1, by omega⟩
      intro a c
      unfold Step.more
      rcases h a c with heq | ⟨halt, heq⟩
      · rw [heq]
        rcases step a c with halt | ⟨_ | stop, a'⟩
        · exact .inl rfl
        · exact .inl rfl
        · dsimp only
          split
          · exact .inl rfl
          · exact ih (by omega) a' stop
      · rw [heq]
        exact .inr ⟨halt, rfl⟩

/-- A repetition extends another one if its body does and it has no fewer rounds. -/
theorem Extends.many (h : Extends step' step) {count count' : Nat} (hle : count ≤ count') :
    Extends (many step' count') (many step count) := by
  intro a c
  unfold Step.many
  rcases h a c with heq | ⟨halt, heq⟩
  · rw [heq]
    rcases step a c with halt | ⟨_ | stop, a'⟩
    · exact .inl rfl
    · exact .inl rfl
    · dsimp only
      split
      · exact .inl rfl
      · exact h.more hle a' stop
  · rw [heq]
    exact .inr ⟨halt, rfl⟩

/-- A repetition up to a terminator extends another one if its parts do and it has no fewer rounds.
-/
theorem Extends.upTo (h : Extends step' step) (hterminator : Extends terminator' terminator)
    (label : String) (start : Nat) {count count' : Nat} (hle : count ≤ count') :
    Extends (upTo step' terminator' label start count')
      (upTo step terminator label start count) := by
  induction count generalizing count' with
  | zero => exact fun _ _ => .inr ⟨.tooDeep, rfl⟩
  | succ count ih =>
      obtain ⟨count', rfl⟩ : ∃ n, count' = n + 1 := ⟨count' - 1, by omega⟩
      intro a c
      unfold Step.upTo
      rcases hterminator a c with heq | ⟨halt, heq⟩
      · rw [heq]
        rcases terminator a c with halt | ⟨_ | stop, a'⟩
        · exact .inl rfl
        · -- the terminator fails, and the body is tried
          dsimp only
          split
          · exact .inl rfl
          split
          · exact .inl rfl
          rcases h a' c with heq' | ⟨halt, heq'⟩
          · rw [heq']
            rcases step a' c with halt | ⟨_ | stop, a''⟩
            · exact .inl rfl
            · exact .inl rfl
            · dsimp only
              split
              · exact .inl rfl
              · exact ih (by omega) a'' stop
          · rw [heq']
            exact .inr ⟨halt, rfl⟩
        · exact .inl rfl
      · rw [heq]
        exact .inr ⟨halt, rfl⟩

/-- A choice by a condition extends another one by the same condition if its branches do. -/
theorem Extends.asking (h : Extends step' step) (hother : Extends other' other) (test : Condition) :
    Extends
      (fun a c => if test.holds a.store.view then step' (a.ask test) c else other' (a.ask test) c)
      (fun a c =>
        if test.holds a.store.view then step (a.ask test) c else other (a.ask test) c) := by
  intro a c
  dsimp only
  split
  · exact h (a.ask test) c
  · exact hother (a.ask test) c

end Extends

end Step

namespace Matcher

variable {ν : Type} {rules : Rules ν}

/-- With a larger bound a step does the same wherever it came to an end before. -/
theorem extends_step {depth depth' : Nat} (hle : depth ≤ depth') (m : Matcher ν) :
    (m.step rules depth').Extends (m.step rules depth) := by
  induction depth generalizing depth' m with
  | zero => exact fun _ _ => .inr ⟨.tooDeep, rfl⟩
  | succ depth ih =>
      obtain ⟨depth', rfl⟩ : ∃ n, depth' = n + 1 := ⟨depth' - 1, by omega⟩
      have hle' : depth ≤ depth' := by omega
      have hpart : ∀ m : Matcher ν, (m.step rules depth').Extends (m.step rules depth) := ih hle'
      unfold step
      apply Step.Extends.guarded
      cases m with
      | literal text nonempty => exact .refl _
      | pattern p => exact .refl _
      | sequence parts => exact (Step.extends_sequence parts hpart).staged
      | oneOf choices => exact (Step.extends_oneOf choices hpart).staged
      | maybe body => exact (hpart body).maybe.staged
      | many body => exact ((hpart body).many hle').staged
      | upTo body terminator =>
          apply Step.Extends.staged
          exact fun a c => (hpart body).upTo (hpart terminator) _ _ hle' a c
      | when test body => exact (hpart body).asking (.refl (Step.pure fun _ => none)) test
      | whenElse test body otherwise => exact (hpart body).asking (hpart otherwise) test
      | ref name =>
          cases hbody : rules.body name with
          | none =>
              simp only [hbody]
              exact .refl _
          | some body =>
              simp only [hbody]
              exact hpart body
      | labelled label body => exact hpart body
      | hooked onEntry onMatch body => exact ((hpart body).hooked onEntry onMatch).staged

/-- What trying a matcher comes to under one bound it comes to under every larger one. -/
theorem step_mono {depth depth' : Nat} {m : Matcher ν} {a : Attempt} {c : Cursor}
    {outcome : Option Cursor × Attempt} (hle : depth ≤ depth')
    (h : m.step rules depth a c = .ok outcome) : m.step rules depth' a c = .ok outcome := by
  rcases extends_step hle m a c with heq | ⟨halt, heq⟩
  · exact heq.trans h
  · rw [heq] at h
    cases h

end Matcher

end Stencil
