import Stencil.Proofs.Matcher.Trimming

/-!
# Cutting a text off: sequences, choices and repetitions

The properties of `Stencil.Trim` are put together from those of the parts of a matcher. A sequence
has each of them if its parts do. A choice asks for more: where a later alternative matches, the
ones in front of it have to fail on what is left of the text, and where an earlier one is cut off,
the ones behind it must not take its place. Mostly the first character settles both
(`Trim.excludes_of_misses`). A repetition stops in front of the cut if the text makes its body fail
there.
-/

set_option autoImplicit false

namespace Stencil

namespace Trim

open Matcher

variable {ν : Type} {K : Trim ν} {P Q : Text → Prop} {n k : Nat} {m body : Matcher ν}
  {ms : List (Matcher ν)}

/-! ## Sequences -/

/-- A sequence of one part survives the cut if the part does. -/
theorem Survives.sequence_singleton (h : K.Survives P n m) : K.Survives P n (sequence [m]) := by
  intro view view' c c' stop left r halike hat hlength hends hrest hr
  simp only [parses_sequence_singleton_iff] at hends ⊢
  exact h halike hat hlength hends hrest hr

/-- A sequence survives if its parts do. What the first part needs to know of the text behind it the
other parts may tell, and these may count on a shorter text if the first part takes a character. -/
theorem Survives.sequence_cons_of (hm : K.Survives Q n m)
    (hms : ∀ k ≤ n, (Takes K.rules m → k < n) → K.Survives P k (sequence ms))
    (hQ : ∀ ⦃view c stop left r r'⦄, (sequence ms).Parses K.rules view c (.ends stop left) →
      c.rest = r ++ K.behind → stop.rest = r' ++ K.behind → P r' → Q r) :
    K.Survives P n (sequence (m :: ms)) := by
  intro view view' c c' stop left r halike hat hlength hends hrest hr
  obtain ⟨c₁, view₁, hfirst, hothers⟩ := hends.of_sequence_cons
  obtain ⟨t, hleads⟩ := hothers.moves
  have hrest₁ : c₁.rest = t ++ r ++ K.behind := by
    rw [hleads.rest_eq, hrest, List.append_assoc]
  obtain ⟨c₁', view₁', hrest₁', hat₁, halike₁, hfirst'⟩ :=
    hm halike hat hlength hfirst hrest₁ (hQ hothers hrest₁ hrest hr)
  have hlt (ht : Takes K.rules m) : c₁'.rest.length < c'.rest.length := by
    rw [hrest₁']
    exact length_lt_of_takes ht hat hfirst hrest₁
  obtain ⟨stop', left', hstop', hat', hleft, hothers'⟩ :=
    hms c₁'.rest.length (hfirst'.length_rest_le.trans hlength)
      (fun ht => (hlt ht).trans_le hlength) halike₁ hat₁ (Nat.le_refl _) hothers hrest hr
  exact ⟨stop', left', hstop', hat', hleft,
    parses_sequence_cons_iff.2 (.inl ⟨c₁', view₁', hfirst', hothers'⟩)⟩

/-- A sequence survives the cut if its first part does wherever it ends, and the others do. -/
theorem Survives.sequence_cons (hm : K.Survives (fun _ => True) n m)
    (hms : K.Survives P n (sequence ms)) : K.Survives P n (sequence (m :: ms)) :=
  hm.sequence_cons_of (fun _ hle _ => hms.anti hle) fun _ _ _ _ _ _ _ _ _ _ => trivial

/-- A sequence perishes if its parts do and the matches of the first part survive. -/
theorem Rigid.perishes_sequence_cons (hm : K.Rigid n m)
    (hms : ∀ k ≤ n, (Takes K.rules m → k < n) → K.Perishes k (sequence ms)) :
    K.Perishes n (sequence (m :: ms)) := by
  intro view view' c c' verdict halike hat hlength hparses hlost
  rw [parses_sequence_cons_iff] at hparses ⊢
  have hfails (verdict : Verdict) (hfirst : m.Parses K.rules view c verdict)
      (hlost : K.Lost verdict) : m.Parses K.rules view' c' .fails :=
    hm.perishes halike hat hlength hfirst hlost
  rcases hparses with ⟨c₁, view₁, hfirst, hothers⟩ | ⟨hfirst, -⟩
  · obtain ⟨t, hleads⟩ := hfirst.moves
    rcases hat.within_or_beyond hleads with ⟨r, hr⟩ | hbeyond
    · obtain ⟨c₁', view₁', hrest₁', hat₁, halike₁, hfirst'⟩ :=
        hm.survives halike hat hlength hfirst hr trivial
      have hlt (ht : Takes K.rules m) : c₁'.rest.length < c'.rest.length := by
        rw [hrest₁']
        exact length_lt_of_takes ht hat hfirst hr
      exact .inl ⟨c₁', view₁', hfirst', hms c₁'.rest.length (hfirst'.length_rest_le.trans hlength)
        (fun ht => (hlt ht).trans_le hlength) halike₁ hat₁ (Nat.le_refl _) hothers hlost⟩
    · exact .inr ⟨hfails _ hfirst (.beyond hbeyond), nofun⟩
  · exact .inr ⟨hfails _ hfirst hlost, nofun⟩

/-- A sequence of one part fails in front of the cut where the part does. -/
theorem Perishes.sequence_singleton (h : K.Perishes n m) : K.Perishes n (sequence [m]) := by
  intro view view' c c' verdict halike hat hlength hparses hlost
  rw [parses_sequence_singleton_iff] at hparses ⊢
  exact h halike hat hlength hparses hlost

/-- A sequence of one part is rigid if the part is. -/
theorem Rigid.sequence_singleton (h : K.Rigid n m) : K.Rigid n (sequence [m]) :=
  ⟨h.survives.sequence_singleton, h.perishes.sequence_singleton⟩

/-- A sequence is rigid if its first part is, and the others are on what the first part leaves. -/
theorem Rigid.sequence_cons_of (hm : K.Rigid n m)
    (hms : ∀ k ≤ n, (Takes K.rules m → k < n) → K.Rigid k (sequence ms)) :
    K.Rigid n (sequence (m :: ms)) :=
  ⟨hm.survives.sequence_cons_of (fun k hle hlt => (hms k hle hlt).survives)
      fun _ _ _ _ _ _ _ _ _ _ => trivial,
    hm.perishes_sequence_cons fun k hle hlt => (hms k hle hlt).perishes⟩

/-- A sequence is rigid if its first part is, and the others are. -/
theorem Rigid.sequence_cons (hm : K.Rigid n m) (hms : K.Rigid n (sequence ms)) :
    K.Rigid n (sequence (m :: ms)) :=
  hm.sequence_cons_of fun _ hle _ => hms.anti hle

/-- An empty sequence takes nothing, and so does not come as far as the cut. -/
theorem tame_sequence_nil : K.Tame (sequence []) := by
  intro view view' c c' verdict halike hat hne hparses
  rw [parses_sequence_nil_iff] at hparses
  subst hparses
  exact .ends hne hat halike (parses_sequence_nil_iff.2 rfl)

/-- A sequence is tame if all its parts are. -/
theorem Tame.sequence_cons (hm : K.Tame m) (hms : K.Tame (sequence ms)) :
    K.Tame (sequence (m :: ms)) := by
  intro view view' c c' verdict halike hat hne hparses
  rcases parses_sequence_cons_iff.1 hparses with ⟨c₁, view₁, hfirst, hothers⟩ | ⟨hfirst, hstays⟩
  · cases hm halike hat hne hfirst with
    | ends hne₁ hat₁ halike₁ hfirst' =>
        have hcons {verdict' : Verdict} (h : (sequence ms).Parses K.rules _ _ verdict') :
            (sequence (m :: ms)).Parses K.rules view' c' verdict' :=
          parses_sequence_cons_iff.2 (.inl ⟨_, _, hfirst', h⟩)
        cases hms halike₁ hat₁ hne₁ hothers with
        | ends hrest hstop hleft h => exact .ends hrest hstop hleft (hcons h)
        | fails h => exact .fails (hcons h)
        | faults f => exact .faults f
  · cases hm halike hat hne hfirst with
    | @ends stop stop' left left' => exact absurd rfl (hstays stop left)
    | fails h => exact .fails (parses_sequence_cons_iff.2 (.inr ⟨h, nofun⟩))
    | faults f => exact .faults f

/-! ## Choices -/

/-- A match of one matcher, wherever it ends, keeps another matcher from matching what is left. -/
def Excludes (K : Trim ν) (m m' : Matcher ν) : Prop :=
  ∀ ⦃view view' c c' stop left⦄, K.At c c' → m.Parses K.rules view c (.ends stop left) →
    m'.Parses K.rules view' c' .fails

/-- A match of one matcher that is cut off keeps another matcher from matching what is left. -/
def Shadows (K : Trim ν) (m m' : Matcher ν) : Prop :=
  ∀ ⦃view view' c c' stop left⦄, K.At c c' → m.Parses K.rules view c (.ends stop left) →
    stop.rest.length < K.behind.length → m'.Parses K.rules view' c' .fails

/-- What keeps another matcher from matching does so where it is cut off, too. -/
theorem Excludes.shadows {m' : Matcher ν} (h : K.Excludes m m') : K.Shadows m m' :=
  fun _ _ _ _ _ _ hat hends _ => h hat hends

/-- Matchers of texts that start differently exclude each other. -/
theorem excludes_of_misses {p q : Char → Bool} {m' : Matcher ν} (hm : Misses K.rules p m)
    (hm' : Misses K.rules q m') (hpq : ∀ x, p x = true → q x = false) : K.Excludes m m' := by
  intro view view' c c' stop left hat hends
  apply hm' hat.past_eq'
  intro x hx
  have hne : c'.rest ≠ [] := by
    rintro hnil
    rw [hnil] at hx
    cases hx
  apply hpq
  by_contra hp
  have hfails : m.Parses K.rules view c .fails := by
    refine hm hat.past_eq fun y hy => ?_
    rw [hat.head?_eq hne] at hy
    cases Option.mem_unique hx hy
    simpa using hp
  cases hends.unique hfails

/-- A fixed text that is cut off leaves nothing. -/
theorem shadows_literal {text : Text} {nonempty : text ≠ []} {p : Char → Bool} {m' : Matcher ν}
    (ht : ∀ x ∈ text.dropLast, K.closes x = false) (hm' : Misses K.rules p m') :
    K.Shadows (literal text nonempty) m' := by
  intro view view' c c' stop left hat hends hbeyond
  exact hm'.fails_of_nil hat.past_eq'
    (hat.rest_eq_nil (leads_of_parses_literal hends) hbeyond ht)

/-- There is nothing to keep from matching in an empty choice. -/
theorem shadows_nil : K.Shadows m (oneOf []) :=
  fun _ _ _ _ _ _ _ _ _ => parses_oneOf_nil_iff.2 rfl

/-- An empty choice has no matches that could get lost. -/
theorem survives_oneOf_nil (P : Text → Prop) (n : Nat) : K.Survives P n (oneOf []) := by
  intro view view' c c' stop left r halike hat hlength hends
  cases parses_oneOf_nil_iff.1 hends

/-- A choice survives if its first alternative and the others do. Where the others match the first
one has to fail in front of the cut too. -/
theorem Survives.oneOf_cons (hm : K.Survives P n m) (hms : K.Survives P n (oneOf ms))
    (hfails : K.Perishes n m ∨ K.Excludes (oneOf ms) m) : K.Survives P n (oneOf (m :: ms)) := by
  intro view view' c c' stop left r halike hat hlength hends hrest hr
  rcases parses_oneOf_cons_iff.1 hends with ⟨hfirst, hothers⟩ | ⟨hfirst, -⟩
  · have hfirst' : m.Parses K.rules view' c' .fails := by
      rcases hfails with hm | hexcludes
      · exact hm halike hat hlength hfirst .fails
      · exact hexcludes hat hothers
    obtain ⟨stop', left', hstop', hat', hleft, hothers'⟩ :=
      hms halike hat hlength hothers hrest hr
    exact ⟨stop', left', hstop', hat', hleft,
      parses_oneOf_cons_iff.2 (.inl ⟨hfirst', hothers'⟩)⟩
  · obtain ⟨stop', left', hstop', hat', hleft, hfirst'⟩ := hm halike hat hlength hfirst hrest hr
    exact ⟨stop', left', hstop', hat', hleft, parses_oneOf_cons_iff.2 (.inr ⟨hfirst', nofun⟩)⟩

/-- A choice of one survives the cut if the one does. -/
theorem Survives.oneOf_singleton (h : K.Survives P n m) : K.Survives P n (oneOf [m]) :=
  h.oneOf_cons (survives_oneOf_nil P n) (.inr fun _ _ _ _ _ _ _ hends => by
    cases parses_oneOf_nil_iff.1 hends)

/-- An empty choice fails with and without the cut. -/
theorem rigid_oneOf_nil (n : Nat) : K.Rigid n (oneOf []) :=
  ⟨survives_oneOf_nil _ n, fun _ _ _ _ _ _ _ _ _ _ => parses_oneOf_nil_iff.2 rfl⟩

/-- A choice is rigid if all its alternatives are and the first, where it is cut off, is replaced by
none of the others. -/
theorem Rigid.oneOf_cons (hm : K.Rigid n m) (hms : K.Rigid n (oneOf ms))
    (hshadows : K.Shadows m (oneOf ms)) : K.Rigid n (oneOf (m :: ms)) := by
  refine ⟨hm.survives.oneOf_cons hms.survives (.inl hm.perishes), ?_⟩
  intro view view' c c' verdict halike hat hlength hparses hlost
  refine parses_oneOf_cons_iff.2 (.inl ?_)
  rcases parses_oneOf_cons_iff.1 hparses with ⟨hfirst, hothers⟩ | ⟨hfirst, hmatches⟩
  · exact ⟨hm.perishes halike hat hlength hfirst .fails,
      hms.perishes halike hat hlength hothers hlost⟩
  · refine ⟨hm.perishes halike hat hlength hfirst hlost, ?_⟩
    cases hlost with
    | fails => exact absurd rfl hmatches
    | beyond hbeyond => exact hshadows hat hfirst hbeyond

/-- A choice of one is rigid if the one is. -/
theorem Rigid.oneOf_singleton (h : K.Rigid n m) : K.Rigid n (oneOf [m]) :=
  h.oneOf_cons (rigid_oneOf_nil n) shadows_nil

/-- An empty choice never comes as far as the cut. -/
theorem tame_oneOf_nil : K.Tame (oneOf []) := by
  intro view view' c c' verdict halike hat hne hparses
  rw [parses_oneOf_nil_iff] at hparses
  subst hparses
  exact .fails (parses_oneOf_nil_iff.2 rfl)

/-- A choice is tame if its first alternative and the others are. -/
theorem Tame.oneOf_cons (hm : K.Tame m) (hms : K.Tame (oneOf ms)) :
    K.Tame (oneOf (m :: ms)) := by
  intro view view' c c' verdict halike hat hne hparses
  rcases parses_oneOf_cons_iff.1 hparses with ⟨hfirst, hothers⟩ | ⟨hfirst, hmatches⟩
  · cases hm halike hat hne hfirst with
    | fails hfirst' =>
        have hcons {verdict' : Verdict} (h : (oneOf ms).Parses K.rules view' c' verdict') :
            (oneOf (m :: ms)).Parses K.rules view' c' verdict' :=
          parses_oneOf_cons_iff.2 (.inl ⟨hfirst', h⟩)
        cases hms halike hat hne hothers with
        | ends hrest hstop hleft h => exact .ends hrest hstop hleft (hcons h)
        | fails h => exact .fails (hcons h)
        | faults f => exact .faults f
  · cases hm halike hat hne hfirst with
    | ends hrest hstop hleft h =>
        exact .ends hrest hstop hleft (parses_oneOf_cons_iff.2 (.inr ⟨h, nofun⟩))
    | fails => exact absurd rfl hmatches
    | faults f => exact .faults f

/-- A choice is tame if each of its alternatives is. -/
theorem tame_oneOf (h : ∀ m ∈ ms, K.Tame m) : K.Tame (oneOf ms) := by
  induction ms with
  | nil => exact tame_oneOf_nil
  | cons m ms ih =>
      rw [List.forall_mem_cons] at h
      exact h.1.oneOf_cons (ih h.2)

/-- A matcher under a condition is rigid if it is without, and maps that are alike answer the
condition alike. -/
theorem Rigid.when {test : Condition} (h : K.Rigid n m) (hasks : test.OnlyAsks)
    (htest : ∀ view view', K.Alike view view' → test.holds view' = test.holds view) :
    K.Rigid n (when test m) := by
  constructor
  · intro view view' c c' stop left r halike hat hlength hends hrest hr
    simp only [parses_when_iff, hasks.view_ask, htest _ _ halike] at hends ⊢
    split at hends
    · rename_i hholds
      simp only [hholds, if_true]
      exact h.survives halike hat hlength hends hrest hr
    · cases hends
  · intro view view' c c' verdict halike hat hlength hparses hlost
    rw [parses_when_iff, hasks.view_ask] at hparses ⊢
    rw [htest _ _ halike]
    split at hparses
    · rename_i hholds
      rw [if_pos hholds]
      exact h.perishes halike hat hlength hparses hlost
    · rename_i hholds
      rw [if_neg hholds]

/-! ## Options and repetitions -/

/-- What is optional survives if it does and is not found in front of the cut where it was not found
before. -/
theorem Survives.maybe (hm : K.Survives P n m)
    (hfails : K.Perishes n m ∨ ∀ view c, c.past = 0 → P c.rest → m.Parses K.rules view c .fails) :
    K.Survives P n (maybe m) := by
  intro view view' c c' stop left r halike hat hlength hends hrest hr
  rcases parses_maybe_iff.1 hends with ⟨hfirst, heq⟩ | ⟨hfirst, -⟩
  · cases heq
    obtain rfl : c'.rest = r := List.append_cancel_right (hat.rest_eq.symm.trans hrest)
    refine ⟨c', view', rfl, hat, halike, parses_maybe_iff.2 (.inl ⟨?_, rfl⟩)⟩
    rcases hfails with hm | hP
    · exact hm halike hat hlength hfirst .fails
    · exact hP _ _ hat.past_eq' hr
  · obtain ⟨stop', left', hstop', hat', hleft, hfirst'⟩ := hm halike hat hlength hfirst hrest hr
    exact ⟨stop', left', hstop', hat', hleft, parses_maybe_iff.2 (.inr ⟨hfirst', nofun⟩)⟩

/-- An option is tame if its body is. -/
theorem Tame.maybe (hm : K.Tame m) : K.Tame (maybe m) := by
  intro view view' c c' verdict halike hat hne hparses
  rcases parses_maybe_iff.1 hparses with ⟨hfirst, rfl⟩ | ⟨hfirst, hmatches⟩
  · cases hm halike hat hne hfirst with
    | fails h => exact .ends hne hat halike (parses_maybe_iff.2 (.inl ⟨h, rfl⟩))
  · cases hm halike hat hne hfirst with
    | ends hrest hstop hleft h =>
        exact .ends hrest hstop hleft (parses_maybe_iff.2 (.inr ⟨h, nofun⟩))
    | fails => exact absurd rfl hmatches
    | faults f => exact .faults f

/-- A repetition survives in front of a text at which its body fails. -/
theorem Survives.many (hbody : K.Survives (fun _ => True) n body) (ht : Takes K.rules body)
    (hfails : ∀ view c, c.past = 0 → P c.rest → body.Parses K.rules view c .fails) :
    K.Survives P n (many body) := by
  induction n using Nat.strongRecOn with
  | ind n ih =>
      have hround : K.Survives P n (sequence [body, Matcher.maybe (Matcher.many body)]) := by
        refine hbody.sequence_cons_of (fun k hle hlt => ?_) fun _ _ _ _ _ _ _ _ _ _ => trivial
        have hmany := ih k (hlt ht) (hbody.anti hle)
        exact (hmany.maybe (.inr fun view c hpast hP =>
          parses_many_fails ht hpast (hfails view c hpast hP))).sequence_singleton
      intro view view' c c' stop left r halike hat hlength hends hrest hr
      simp only [parses_many_iff ht hat.past_eq, parses_many_iff ht hat.past_eq'] at hends ⊢
      exact hround halike hat hlength hends hrest hr

section UpTo

variable {text : Text} {nonempty : text ≠ []}

/-- A repetition up to a fixed text survives if its body does. -/
theorem Survives.upTo (hbody : K.Survives (fun _ => True) n body) (ht : Takes K.rules body) :
    K.Survives P n (upTo body (literal text nonempty)) := by
  induction n using Nat.strongRecOn with
  | ind n ih =>
      have hround :
          K.Survives P n (sequence [body, Matcher.upTo body (literal text nonempty)]) := by
        refine hbody.sequence_cons_of (fun k hle hlt => ?_) fun _ _ _ _ _ _ _ _ _ _ => trivial
        exact (ih k (hlt ht) (hbody.anti hle)).sequence_singleton
      intro view view' c c' stop left r halike hat hlength hends hrest hr
      simp only [parses_upTo_iff ht hat.past_eq, parses_upTo_iff ht hat.past_eq'] at hends ⊢
      rcases hends with ⟨hending, -⟩ | ⟨hending, ⟨-, hfails⟩ | ⟨-, hends⟩⟩
      · obtain ⟨stop', left', hstop', hat', hleft, hending'⟩ :=
          survives_literal P n halike hat hlength hending hrest hr
        exact ⟨stop', left', hstop', hat', hleft, .inl ⟨hending', nofun⟩⟩
      · cases hfails
      · have hending' := perishes_literal n halike hat hlength hending .fails
        obtain ⟨stop', left', hstop', hat', hleft, hends'⟩ :=
          hround halike hat hlength hends hrest hr
        refine ⟨stop', left', hstop', hat', hleft, .inr ⟨hending', .inr ⟨?_, hends'⟩⟩⟩
        -- the body took a character
        obtain ⟨c₁, view₁, hfirst, -⟩ := hends'.of_sequence_cons
        obtain ⟨x, t, hleads⟩ := ht hat.past_eq' hfirst
        rw [hleads.rest_eq]
        simp

/-- A repetition up to a fixed text that does not lie across the cut is as rigid as its body. -/
theorem Rigid.upTo (hbody : K.Rigid n body) (ht : Takes K.rules body)
    (htext : ∀ x ∈ text.dropLast, K.closes x = false) :
    K.Rigid n (upTo body (literal text nonempty)) := by
  refine ⟨hbody.survives.upTo ht, ?_⟩
  induction n using Nat.strongRecOn with
  | ind n ih =>
      have hround : K.Perishes n (sequence [body, Matcher.upTo body (literal text nonempty)]) := by
        refine hbody.perishes_sequence_cons fun k hle hlt => ?_
        exact (ih k (hlt ht) (hbody.anti hle)).sequence_singleton
      intro view view' c c' verdict halike hat hlength hparses hlost
      rw [parses_upTo_iff ht hat.past_eq] at hparses
      rw [parses_upTo_iff ht hat.past_eq']
      have hending' (verdict : Verdict)
          (hending : (literal text nonempty).Parses K.rules view c verdict)
          (hlost : K.Lost verdict) : (literal text nonempty).Parses K.rules view' c' .fails :=
        perishes_literal n halike hat hlength hending hlost
      by_cases hnil : c'.rest = []
      · refine .inr ⟨?_, .inl ⟨hnil, rfl⟩⟩
        rcases hparses with ⟨hending, -⟩ | ⟨hending, -⟩
        · exact hending' _ hending hlost
        · exact hending' _ hending .fails
      · rcases hparses with ⟨hending, hmatches⟩ | ⟨hending, ⟨hend, -⟩ | ⟨-, hparses⟩⟩
        · -- a terminator that is cut off leaves nothing
          cases hlost with
          | fails => exact absurd rfl hmatches
          | beyond hbeyond =>
              exact absurd (hat.rest_eq_nil (leads_of_parses_literal hending) hbeyond htext) hnil
        · rw [hat.rest_eq] at hend
          exact absurd (List.append_eq_nil_iff.1 hend).1 hnil
        · exact .inr ⟨hending' _ hending .fails,
            .inr ⟨hnil, hround halike hat hlength hparses hlost⟩⟩

end UpTo

/-! ## Hooks -/

section Hooks

variable {onEntry : List EntryHook} {onMatch : List MatchHook} {R : View → View → Prop}

/-- Hooks that keep maps alike: those on entry lead from maps that are alike to maps that are
related as the body needs it, and those on a match lead back. -/
structure HooksKeep (K : Trim ν) (R : View → View → Prop) (onEntry : List EntryHook)
    (onMatch : List MatchHook) : Prop where
  enter : ∀ view view', K.Alike view view' → R (view.enter onEntry) (view'.enter onEntry)
  leave : ∀ text position position' view view' left, R view view' →
    view.leave text position onMatch = .ok left →
      ∃ left', view'.leave text position' onMatch = .ok left' ∧ K.Alike left left'

/-- A match has the same text with and without the cut. -/
theorem At.upTo_eq {c c' : Cursor} {view view' left left' : View} {stop stop' : Cursor}
    {rules rules' : Rules ν} {m' : Matcher ν} (hat : K.At c c') (hat' : K.At stop stop')
    (h : m.Parses rules view c (.ends stop left))
    (h' : m'.Parses rules' view' c' (.ends stop' left')) :
    c.upTo stop = c'.upTo stop' := by
  obtain ⟨t, hleads⟩ := h.moves
  obtain ⟨t', hleads'⟩ := h'.moves
  rw [hleads.upTo_eq hat.past_eq, hleads'.upTo_eq hat.past_eq']
  exact hat.text_eq hat' hleads hleads'

/-- Hooks that keep maps alike let a matcher survive as it does without them. -/
theorem Survives.hooked (h : ({ K with Alike := R } : Trim ν).Survives P n m)
    (hhooks : K.HooksKeep R onEntry onMatch) : K.Survives P n (hooked onEntry onMatch m) := by
  intro view view' c c' stop left r halike hat hlength hends hrest hr
  obtain ⟨view₁, hbody, hleave⟩ := parses_hooked_ends_iff.1 hends
  have hat₀ : ({ K with Alike := R } : Trim ν).At c c' := ⟨hat.1, hat.2, hat.3, hat.4⟩
  obtain ⟨stop', view₁', hstop', hat', hleft, hbody'⟩ :=
    h (hhooks.enter _ _ halike) hat₀ hlength hbody hrest hr
  have hat' : K.At stop stop' := ⟨hat'.1, hat'.2, hat'.3, hat'.4⟩
  obtain ⟨left', hleave', halike'⟩ := hhooks.leave _ _ c'.position _ _ _ hleft hleave
  rw [hat.upTo_eq hat' hbody hbody'] at hleave'
  exact ⟨stop', left', hstop', hat', halike', parses_hooked_ends_iff.2 ⟨_, hbody', hleave'⟩⟩

/-- Hooks that keep maps alike leave a matcher tame. -/
theorem Tame.hooked (h : K.Tame m) (hhooks : K.HooksKeep K.Alike onEntry onMatch) :
    K.Tame (hooked onEntry onMatch m) := by
  intro view view' c c' verdict halike hat hne hparses
  have halike' := hhooks.enter _ _ halike
  cases verdict with
  | ends stop left =>
      obtain ⟨view₁, hbody, hleave⟩ := parses_hooked_ends_iff.1 hparses
      cases h halike' hat hne hbody with
      | ends hrest hstop hleft hbody' =>
          obtain ⟨left', hleave', hleft'⟩ := hhooks.leave _ _ c'.position _ _ _ hleft hleave
          rw [hat.upTo_eq hstop hbody hbody'] at hleave'
          exact .ends hrest hstop hleft' (parses_hooked_ends_iff.2 ⟨_, hbody', hleave'⟩)
  | fails =>
      cases h halike' hat hne (parses_hooked_fails_iff.1 hparses) with
      | fails h => exact .fails (parses_hooked_fails_iff.2 h)
  | faults f => exact .faults f

end Hooks

end Trim

end Stencil
