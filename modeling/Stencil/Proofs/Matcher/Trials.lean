import Stencil.Proofs.Matcher.Termination

/-!
# What is tried while a matcher is tried

Trying a matcher at a place tries its parts, at that place or further on, and a rule where it refers
to one. `Tries` says which matcher may be tried next, one constructor for each way to be built, so
that a chain of them is what lies on the stack of the engine.

A trial that is no further on than the one before it is one of a matcher that reaches fewer levels
before a fixed text is read, if the rules refer to rules of a lower rank there (`Tries.falls`). So a
matcher that comes back to itself has taken a character (`advances_of_transGen`).
-/

set_option autoImplicit false

namespace Stencil

/-- The second place is not in front of the first one. -/
def Cursor.Precedes (c d : Cursor) : Prop := c.past = 0 → d.past = 0 ∧ c.position ≤ d.position

/-- A place is not in front of itself. -/
theorem Cursor.Precedes.refl (c : Cursor) : c.Precedes c := fun hpast => ⟨hpast, le_refl _⟩

/-- Places that follow each other do so over any number of steps. -/
theorem Cursor.Precedes.trans {c d e : Cursor} (h : c.Precedes d) (h' : d.Precedes e) :
    c.Precedes e := fun hpast =>
  have ⟨hpast', hle⟩ := h hpast
  have ⟨hpast'', hle'⟩ := h' hpast'
  ⟨hpast'', hle.trans hle'⟩

instance : Std.Refl Cursor.Precedes := ⟨.refl⟩

instance : IsTrans Cursor Cursor.Precedes := ⟨fun _ _ _ => .trans⟩

namespace Matcher

variable {ν : Type}

/-- A matcher that is tried at a place. -/
structure Trial (ν : Type) where
  /-- What is tried. -/
  matcher : Matcher ν
  /-- The state in which it is tried. -/
  attempt : Attempt
  /-- Where it is tried. -/
  place : Cursor

/-- A round of a repetition: the body matches and moves on. -/
def Round (body : Step) (before after : Attempt × Cursor) : Prop :=
  body before.1 before.2 = .ok (some after.2, after.1) ∧ after.2.position ≠ before.2.position

/-- A round of a repetition up to a terminator: the terminator fails, and the body matches and moves
on. -/
def RoundUpTo (body terminator : Step) (before after : Attempt × Cursor) : Prop :=
  ∃ a, terminator before.1 before.2 = .ok (none, a) ∧ Round body (a, before.2) after

/-- What may be tried next while a matcher is tried. -/
inductive Tries (rules : Rules ν) : Trial ν → Trial ν → Prop
  | sequence (before after : List (Matcher ν)) {m : Matcher ν} {a a' : Attempt} {c c' : Cursor}
      (depth : Nat)
      (hbefore : Step.sequence (before.map (step rules depth)) a.begin c = .ok (some c', a')) :
      Tries rules ⟨.sequence (before ++ m :: after), a, c⟩ ⟨m, a', c'⟩
  | oneOf (before after : List (Matcher ν)) {m : Matcher ν} {a a' : Attempt} {c : Cursor}
      (depth : Nat)
      (hbefore : Step.oneOf (before.map (step rules depth)) a.begin c = .ok (none, a')) :
      Tries rules ⟨.oneOf (before ++ m :: after), a, c⟩ ⟨m, a', c⟩
  | maybe {body : Matcher ν} {a : Attempt} {c : Cursor} :
      Tries rules ⟨.maybe body, a, c⟩ ⟨body, a.begin, c⟩
  | many {body : Matcher ν} {a a' : Attempt} {c c' : Cursor} (depth : Nat)
      (hrounds : Relation.ReflTransGen (Round (body.step rules depth)) (a.begin, c) (a', c')) :
      Tries rules ⟨.many body, a, c⟩ ⟨body, a', c'⟩
  | terminator {body terminator : Matcher ν} {a a' : Attempt} {c c' : Cursor} (depth : Nat)
      (hrounds : Relation.ReflTransGen
        (RoundUpTo (body.step rules depth) (terminator.step rules depth)) (a.begin, c) (a', c')) :
      Tries rules ⟨.upTo body terminator, a, c⟩ ⟨terminator, a', c'⟩
  | upTo {body terminator : Matcher ν} {a a' a'' : Attempt} {c c' : Cursor} (depth : Nat)
      (hrounds : Relation.ReflTransGen
        (RoundUpTo (body.step rules depth) (terminator.step rules depth)) (a.begin, c) (a', c'))
      (hnot : terminator.step rules depth a' c' = .ok (none, a'')) :
      Tries rules ⟨.upTo body terminator, a, c⟩ ⟨body, a'', c'⟩
  | when {test : Condition} {body : Matcher ν} {a : Attempt} {c : Cursor}
      (htest : test.holds a.store.view = true) :
      Tries rules ⟨.when test body, a, c⟩ ⟨body, a.ask test, c⟩
  | whenTrue {test : Condition} {body otherwise : Matcher ν} {a : Attempt} {c : Cursor}
      (htest : test.holds a.store.view = true) :
      Tries rules ⟨.whenElse test body otherwise, a, c⟩ ⟨body, a.ask test, c⟩
  | whenFalse {test : Condition} {body otherwise : Matcher ν} {a : Attempt} {c : Cursor}
      (htest : test.holds a.store.view = false) :
      Tries rules ⟨.whenElse test body otherwise, a, c⟩ ⟨otherwise, a.ask test, c⟩
  | ref {name : ν} {body : Matcher ν} {a : Attempt} {c : Cursor}
      (hbody : rules.body name = some body) : Tries rules ⟨.ref name, a, c⟩ ⟨body, a, c⟩
  | labelled {label : String} {body : Matcher ν} {a : Attempt} {c : Cursor} :
      Tries rules ⟨.labelled label body, a, c⟩ ⟨body, a, c⟩
  | hooked {onEntry : List EntryHook} {onMatch : List MatchHook} {body : Matcher ν} {a : Attempt}
      {c : Cursor} :
      Tries rules ⟨.hooked onEntry onMatch body, a, c⟩ ⟨body, a.begin.enter onEntry, c⟩

section Tries

variable {rules : Rules ν} {rank : ν → Nat} {K depth : Nat} {m body terminator : Matcher ν}
  {before after : List (Matcher ν)} {a a' : Attempt} {c c' : Cursor}

/-- A place in the text is a place of a source. -/
theorem within_of_past_eq (hpast : c.past = 0) : c.Within (c.front.reverse ++ c.rest) :=
  ⟨hpast, rfl⟩

/-- A match does not go back. -/
theorem precedes_of_step (h : m.step rules depth a c = .ok (some c', a')) : c.Precedes c' := by
  intro hpast
  have hwithin := within_of_past_eq hpast
  obtain ⟨hwithin', hle, -⟩ := within_of_step_some hwithin h
  rw [hwithin.position_eq, hwithin'.position_eq]
  exact ⟨hwithin'.past_eq, hle⟩

/-- Behind a fixed text the place is further on. -/
theorem position_lt_of_isLiteral (hm : m.isLiteral = true) (hpast : c.past = 0)
    (h : m.step rules depth a c = .ok (some c', a')) : c.position < c'.position := by
  have hwithin := within_of_past_eq hpast
  obtain ⟨hwithin', hle, hstay⟩ := within_of_step_some hwithin h
  rw [hwithin.position_eq, hwithin'.position_eq]
  cases m with
  | literal text nonempty => exact lt_of_le_of_ne hle fun heq => nomatch hstay heq.symm
  | _ => cases hm

/-- A part of a sequence is tried further on, or it counts among the levels of the sequence. -/
theorem precedes_of_sequence
    (h : Step.sequence (before.map (step rules depth)) a c = .ok (some c', a')) (m : Matcher ν)
    (after : List (Matcher ν)) :
    c.Precedes c' ∧ (c.past = 0 → c.position = c'.position →
      m.levels rank false ≤ levelsInTurn rank false (before ++ m :: after)) := by
  induction before generalizing a c with
  | nil =>
      cases h
      refine ⟨.refl _, fun _ _ => ?_⟩
      rw [List.nil_append, levelsInTurn]
      exact Nat.le_max_left _ _
  | cons first before ih =>
      rw [List.map_cons, Step.sequence] at h
      dsimp only at h
      split at h
      · rename_i c₁ a₁ hfirst
        have hprecedes := precedes_of_step hfirst
        obtain ⟨hprecedes₁, hlevels⟩ := ih h
        refine ⟨hprecedes.trans hprecedes₁, fun hpast hstay => ?_⟩
        obtain ⟨hpast₁, hle⟩ := hprecedes hpast
        obtain ⟨-, hle₁⟩ := hprecedes₁ hpast₁
        have hnot : first.isLiteral = false := by
          rw [Bool.eq_false_iff]
          intro hfixed
          have := position_lt_of_isLiteral hfixed hpast hfirst
          omega
        rw [List.cons_append, levelsInTurn, hnot]
        exact (hlevels hpast₁ (by omega)).trans (Nat.le_max_right _ _)
      · rename_i hnot
        exact absurd h (hnot c' a')

/-- An alternative has no more levels than the choice. -/
theorem levels_le_of_choice (before after : List (Matcher ν)) (m : Matcher ν) :
    m.levels rank false ≤ levelsOfAll rank false (before ++ m :: after) := by
  induction before with
  | nil =>
      rw [List.nil_append, levelsOfAll]
      exact Nat.le_max_left _ _
  | cons first before ih =>
      rw [List.cons_append, levelsOfAll]
      exact ih.trans (Nat.le_max_right _ _)

/-- A round of a repetition does not lead back. -/
theorem Round.precedes {x y : Attempt × Cursor} (h : Round (body.step rules depth) x y) :
    x.2.Precedes y.2 :=
  precedes_of_step h.1

/-- A round of a repetition up to a terminator does not lead back. -/
theorem RoundUpTo.precedes {x y : Attempt × Cursor}
    (h : RoundUpTo (body.step rules depth) (terminator.step rules depth) x y) :
    x.2.Precedes y.2 := by
  obtain ⟨a, -, hround⟩ := h
  exact Round.precedes (x := (a, x.2)) hround

/-- Rounds that do not go back do not go back together. -/
theorem precedes_of_rounds {round : Attempt × Cursor → Attempt × Cursor → Prop}
    (hround : ∀ x y, round x y → x.2.Precedes y.2)
    (h : Relation.ReflTransGen round (a, c) (a', c')) : c.Precedes c' := by
  have hlift : Relation.ReflTransGen Cursor.Precedes c c' := h.lift Prod.snd hround
  rwa [Relation.reflTransGen_eq_self] at hlift

/-- The second trial is further on than the first, or at the same place and of a matcher that
reaches fewer levels there. -/
def Trial.Falls (rank : ν → Nat) (x y : Trial ν) : Prop :=
  x.place.past = 0 → y.place.past = 0 ∧
    (x.place.position < y.place.position ∨ x.place.position = y.place.position ∧
      y.matcher.levels rank false < x.matcher.levels rank false)

/-- Trials that fall one after the other fall from the first to the last. -/
theorem Trial.Falls.trans {x y z : Trial ν} (h : x.Falls rank y) (h' : y.Falls rank z) :
    x.Falls rank z := by
  intro hpast
  obtain ⟨hpast', hfalls⟩ := h hpast
  obtain ⟨hpast'', hfalls'⟩ := h' hpast'
  exact ⟨hpast'', by omega⟩

instance : IsTrans (Trial ν) (Trial.Falls rank) := ⟨fun _ _ _ => .trans⟩

/-- A later trial falls if it is further on, or has fewer levels where it is at the same place. -/
theorem falls_of_precedes {m m' : Matcher ν} (h : c.Precedes c')
    (hlevels : c.past = 0 → c.position = c'.position →
      m'.levels rank false < m.levels rank false) :
    Trial.Falls rank ⟨m, a, c⟩ ⟨m', a', c'⟩ := by
  intro hpast
  obtain ⟨hpast', hle⟩ := h hpast
  refine ⟨hpast', ?_⟩
  rcases Nat.lt_or_eq_of_le hle with hlt | heq
  · exact .inl hlt
  · exact .inr ⟨heq, hlevels hpast heq⟩

/-- What is tried next is further on or reaches fewer levels. -/
theorem Tries.falls (hrules : Ranked rules rank K) {x y : Trial ν} (h : Tries rules x y) :
    x.Falls rank y := by
  cases h with
  | sequence before after depth hbefore =>
      obtain ⟨hprecedes, hlevels⟩ := precedes_of_sequence hbefore _ after
      refine falls_of_precedes hprecedes fun hpast hstay => ?_
      rw [levels]
      exact Nat.lt_succ_of_le (hlevels hpast hstay)
  | oneOf before after depth hbefore =>
      refine falls_of_precedes (.refl _) fun _ _ => ?_
      rw [levels]
      exact Nat.lt_succ_of_le (levels_le_of_choice before after _)
  | many depth hrounds =>
      refine falls_of_precedes (precedes_of_rounds (fun _ _ => Round.precedes) hrounds)
        fun _ _ => ?_
      rw [levels]
      exact Nat.lt_succ_self _
  | terminator depth hrounds =>
      refine falls_of_precedes (precedes_of_rounds (fun _ _ => RoundUpTo.precedes) hrounds)
        fun _ _ => ?_
      rw [levels]
      exact Nat.lt_succ_of_le (Nat.le_max_right _ _)
  | upTo depth hrounds hnot =>
      refine falls_of_precedes (precedes_of_rounds (fun _ _ => RoundUpTo.precedes) hrounds)
        fun _ _ => ?_
      rw [levels]
      exact Nat.lt_succ_of_le (Nat.le_max_left _ _)
  | whenTrue htest =>
      refine falls_of_precedes (.refl _) fun _ _ => ?_
      rw [levels]
      exact Nat.lt_succ_of_le (Nat.le_max_left _ _)
  | whenFalse htest =>
      refine falls_of_precedes (.refl _) fun _ _ => ?_
      rw [levels]
      exact Nat.lt_succ_of_le (Nat.le_max_right _ _)
  | @ref name body a c hbody =>
      -- here the ranks come in
      refine falls_of_precedes (.refl _) fun _ _ => ?_
      obtain ⟨body', hbody', hrank, -⟩ := hrules.body name
      rw [hbody, Option.some.injEq] at hbody'
      rw [levels, hbody']
      exact Nat.lt_succ_of_le hrank
  | maybe | when | labelled | hooked =>
      refine falls_of_precedes (.refl _) fun _ _ => ?_
      rw [levels]
      exact Nat.lt_succ_self _

/-- A matcher that comes back to itself while it is tried has taken a character. -/
theorem advances_of_transGen (hrules : Ranked rules rank K) (hpast : c.past = 0)
    (h : Relation.TransGen (Tries rules) ⟨m, a, c⟩ ⟨m, a', c'⟩) : c.position < c'.position := by
  have hstep : Tries rules ≤ Trial.Falls rank := fun _ _ htries => htries.falls hrules
  have hfalls : Trial.Falls rank ⟨m, a, c⟩ ⟨m, a', c'⟩ := Relation.transGen_minimal hstep _ _ h
  obtain ⟨-, hlt | ⟨-, hlt⟩⟩ := hfalls hpast
  · exact hlt
  · exact absurd hlt (Nat.lt_irrefl _)

end Tries

end Matcher

end Stencil
