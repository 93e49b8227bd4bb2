import Stencil.Proofs.Matcher.Moving

/-!
# Choices and repetitions, one step at a time

What reading a choice or a repetition comes to, given what its parts come to. A choice tries its
first alternative and then the others. A repetition is unfolded by one round: where its body takes a
character whenever it matches (`Matcher.Takes`), it is the body followed by the same repetition or
nothing (`Matcher.parses_many_iff`), and a repetition up to a terminator is the terminator, or else
the body followed by the same repetition (`Matcher.parses_upTo_iff`).

Each repetition carries a bound on the number of its rounds, which is the bound on the depth. The
lemmas here are about readings under any bound, so that the bounds do not show.
-/

set_option autoImplicit false

namespace Stencil.Matcher

variable {ν : Type} {rules : Rules ν} {m body otherwise terminator : Matcher ν}
  {view view' : View} {c stop : Cursor} {verdict : Verdict}

/-- A match is no failure. -/
theorem ends_ne_fails : Verdict.ends stop view ≠ .fails :=
  Verdict.noConfusion

/-- A sequence of one part is read as the part. -/
theorem parses_sequence_singleton_iff :
    (sequence [m]).Parses rules view c verdict ↔ m.Parses rules view c verdict := by
  rw [parses_sequence_cons_iff]
  constructor
  · rintro (⟨stop, view', hm, hnil⟩ | ⟨hm, -⟩)
    · rw [parses_sequence_nil_iff] at hnil
      exact hnil ▸ hm
    · exact hm
  · intro hm
    cases verdict with
    | ends stop view' => exact .inl ⟨stop, view', hm, parses_sequence_nil_iff.2 rfl⟩
    | fails | faults => exact .inr ⟨hm, nofun⟩

/-- A sequence that fails behind its first part fails in the other parts. -/
theorem Parses.fails_of_cons {ms : List (Matcher ν)}
    (h : (sequence (m :: ms)).Parses rules view c .fails)
    (hm : m.Parses rules view c (.ends stop view')) :
    (sequence ms).Parses rules view' stop .fails := by
  rcases parses_sequence_cons_iff.1 h with ⟨stop', view'', hm', hms⟩ | ⟨hm', -⟩
  · cases hm.unique hm'
    exact hms
  · cases hm.unique hm'

/-! ## Choices -/

/-- An empty choice fails. -/
theorem parses_oneOf_nil_iff :
    (oneOf []).Parses rules view c verdict ↔ verdict = .fails := by
  rw [parses_iff_succ]
  simp [parse, Parse.oneOf, eq_comm]

/-- A choice goes on with the other alternatives where the first one fails. -/
theorem parses_oneOf_cons_iff {ms : List (Matcher ν)} :
    (oneOf (m :: ms)).Parses rules view c verdict ↔
      (m.Parses rules view c .fails ∧ (oneOf ms).Parses rules view c verdict) ∨
      (m.Parses rules view c verdict ∧ verdict ≠ .fails) := by
  constructor
  · intro h
    obtain ⟨depth, h⟩ := parses_iff_succ.1 h
    simp only [parse, List.map_cons, Parse.oneOf] at h
    split at h
    · rename_i hfails
      exact .inl ⟨⟨depth, hfails⟩, ⟨depth + 1, h⟩⟩
    · rename_i hmatches
      refine .inr ⟨⟨depth, h⟩, fun heq => hmatches ?_⟩
      rw [h, heq]
  · rintro (⟨⟨depth, hfails⟩, ⟨depth', hothers⟩⟩ | ⟨⟨depth, hfirst⟩, hmatches⟩)
    · have hfails' := parse_mono (Nat.le_max_left depth depth') hfails
      have hothers' := parse_mono (Nat.le_succ_of_le (Nat.le_max_right depth depth')) hothers
      refine ⟨max depth depth' + 1, ?_⟩
      simp only [parse] at hothers' ⊢
      simp only [List.map_cons, Parse.oneOf, hfails', hothers']
    · refine ⟨depth + 1, ?_⟩
      simp only [parse, List.map_cons, Parse.oneOf, hfirst]
      cases verdict with
      | ends stop view' => rfl
      | fails => exact absurd rfl hmatches
      | faults f => rfl

/-- A choice of one is read as the one. -/
theorem parses_oneOf_singleton_iff :
    (oneOf [m]).Parses rules view c verdict ↔ m.Parses rules view c verdict := by
  rw [parses_oneOf_cons_iff, parses_oneOf_nil_iff]
  constructor
  · rintro (⟨h, rfl⟩ | ⟨h, -⟩) <;> exact h
  · intro h
    by_cases hfails : verdict = .fails
    · exact .inl ⟨hfails ▸ h, hfails⟩
    · exact .inr ⟨h, hfails⟩

/-- Where a choice fails all of its alternatives do. -/
theorem Parses.fails_of_mem {ms : List (Matcher ν)} (h : (oneOf ms).Parses rules view c .fails)
    (hm : m ∈ ms) : m.Parses rules view c .fails := by
  induction ms with
  | nil => cases hm
  | cons m' ms ih =>
      rcases parses_oneOf_cons_iff.1 h with ⟨hfirst, hothers⟩ | ⟨-, hne⟩
      · rcases List.mem_cons.1 hm with rfl | hm
        · exact hfirst
        · exact ih hothers hm
      · exact absurd rfl hne

/-- Where something is found wrong in a choice it is found in one of its alternatives. -/
theorem Parses.exists_faulty {ms : List (Matcher ν)} {f : Fault}
    (h : (oneOf ms).Parses rules view c (.faults f)) :
    ∃ m ∈ ms, m.Parses rules view c (.faults f) := by
  induction ms with
  | nil => cases parses_oneOf_nil_iff.1 h
  | cons m ms ih =>
      rcases parses_oneOf_cons_iff.1 h with ⟨-, hothers⟩ | ⟨hfirst, -⟩
      · obtain ⟨m', hmem, hm'⟩ := ih hothers
        exact ⟨m', List.mem_cons_of_mem _ hmem, hm'⟩
      · exact ⟨m, List.mem_cons_self .., hfirst⟩

/-- The first of several places at which an alternative ends. -/
theorem parses_oneOf_cons_ofStop {ms : List (Matcher ν)} {first? others? : Option Cursor}
    (hfirst : m.Parses rules view c (.ofStop view first?))
    (hothers : (oneOf ms).Parses rules view c (.ofStop view others?)) :
    (oneOf (m :: ms)).Parses rules view c (.ofStop view (first? <|> others?)) := by
  rw [parses_oneOf_cons_iff]
  cases first? with
  | none => exact .inl ⟨hfirst, hothers⟩
  | some stop => exact .inr ⟨hfirst, ends_ne_fails⟩

/-- A matcher under a condition is read behind asking it, if the condition holds. -/
theorem parses_when_iff {test : Condition} :
    (when test body).Parses rules view c verdict ↔
      if test.holds view then body.Parses rules (view.ask test) c verdict
      else verdict = .fails := by
  rw [parses_iff_succ]
  split <;> rename_i htest
  · simp only [parse, htest, if_true]
    exact Iff.rfl
  · simp [parse, htest, eq_comm]

/-- A choice by a condition is read as the branch that the answer says, behind asking. -/
theorem parses_whenElse_iff {test : Condition} :
    (whenElse test body otherwise).Parses rules view c verdict ↔
      if test.holds view then body.Parses rules (view.ask test) c verdict
      else otherwise.Parses rules (view.ask test) c verdict := by
  rw [parses_iff_succ]
  split <;> rename_i htest
  · simp only [parse, htest, if_true]
    exact Iff.rfl
  · simp only [parse, htest, Bool.false_eq_true, if_false]
    exact Iff.rfl

/-- A matcher with hooks fails where its body does. -/
theorem parses_hooked_fails_iff {onEntry : List EntryHook} {onMatch : List MatchHook} :
    (hooked onEntry onMatch body).Parses rules view c .fails ↔
      body.Parses rules (view.enter onEntry) c .fails := by
  rw [parses_iff_succ]
  constructor
  · rintro ⟨depth, h⟩
    simp only [parse, Parse.hooked] at h
    split at h
    · split at h <;> cases h
    · exact ⟨depth, h⟩
  · rintro ⟨depth, h⟩
    exact ⟨depth, by simp only [parse, Parse.hooked, h]⟩

/-- Something is found wrong in a matcher with hooks, or else by one of the hooks on a match. -/
theorem parses_hooked_faults_iff {onEntry : List EntryHook} {onMatch : List MatchHook} {f : Fault} :
    (hooked onEntry onMatch body).Parses rules view c (.faults f) ↔
      body.Parses rules (view.enter onEntry) c (.faults f) ∨
        ∃ stop view', body.Parses rules (view.enter onEntry) c (.ends stop view') ∧
          view'.leave (c.upTo stop) c.position onMatch = .error f := by
  rw [parses_iff_succ]
  constructor
  · rintro ⟨depth, h⟩
    simp only [parse, Parse.hooked] at h
    split at h
    · rename_i stop view' hbody
      split at h
      · cases h
      · rename_i f' hleave
        cases h
        exact .inr ⟨stop, view', ⟨depth, hbody⟩, hleave⟩
    · exact .inl ⟨depth, h⟩
  · rintro (⟨depth, h⟩ | ⟨stop, view', ⟨depth, h⟩, hleave⟩)
    · exact ⟨depth, by simp only [parse, Parse.hooked, h]⟩
    · exact ⟨depth, by simp only [parse, Parse.hooked, h, hleave]⟩

/-- Without hooks on a match only the map at the start is another one. -/
theorem parses_hooked_nil_iff {onEntry : List EntryHook} :
    (hooked onEntry [] body).Parses rules view c verdict ↔
      body.Parses rules (view.enter onEntry) c verdict := by
  cases verdict with
  | ends stop view' => simp [parses_hooked_ends_iff, View.leave]
  | fails => exact parses_hooked_fails_iff
  | faults f => simp [parses_hooked_faults_iff, View.leave]

/-! ## Repetitions -/

/-- A matcher that takes at least one character wherever it matches inside a text. -/
def Takes (rules : Rules ν) (m : Matcher ν) : Prop :=
  ∀ ⦃view c stop view'⦄, c.past = 0 → m.Parses rules view c (.ends stop view') →
    ∃ x t, c.Leads (x :: t) stop

/-- A character leads to another position. -/
theorem position_ne_of_leads {x : Char} {t : Text} (hpast : c.past = 0)
    (h : c.Leads (x :: t) stop) : stop.position ≠ c.position := by
  have hoffset := h.offset_eq
  have hpast' := h.past_eq hpast
  simp only [Cursor.position, hpast, hpast', hoffset, List.length_cons]
  omega

/-- What takes a character ends at another position. -/
theorem Takes.position_ne (h : Takes rules m) (hpast : c.past = 0)
    (hends : m.Parses rules view c (.ends stop view')) : stop.position ≠ c.position := by
  obtain ⟨x, t, hleads⟩ := h hpast hends
  exact position_ne_of_leads hpast hleads

section Nullable

variable {depth : Nat}

/-- A match leads to a place with no smaller offset. -/
theorem Parses.offset_le (h : m.Parses rules view c (.ends stop view')) :
    c.offset ≤ stop.offset := by
  obtain ⟨t, hleads⟩ := h.moves
  rw [hleads.offset_eq]
  exact Nat.le_add_right _ _

/-- Parts one behind the other that lead nowhere lead nowhere each of them. -/
theorem nullable_of_sequence_stays
    (ih : ∀ ⦃m : Matcher ν⦄ ⦃view c stop view'⦄, c.past = 0 →
      m.parse rules depth view c = .ok (.ends stop view') → stop.offset = c.offset →
        m.Nullable rules)
    {parts : List (Matcher ν)} (hpast : c.past = 0)
    (h : Parse.sequence (parts.map (parse rules depth)) view c = .ok (.ends stop view'))
    (hstays : stop.offset = c.offset) : ∀ m ∈ parts, m.Nullable rules := by
  induction parts generalizing view c with
  | nil => simp
  | cons m ms ihms =>
      simp only [List.map_cons, Parse.sequence] at h
      split at h
      · rename_i c₁ view₁ hfirst
        have hothers : (sequence ms).Parses rules view₁ c₁ (.ends stop view') := ⟨depth + 1, h⟩
        have hle := Parses.offset_le ⟨depth, hfirst⟩
        have hle' := hothers.offset_le
        obtain ⟨t, hleads⟩ := Parses.moves ⟨depth, hfirst⟩
        exact List.forall_mem_cons.2
          ⟨ih hpast hfirst (by omega), ihms (hleads.past_eq hpast) h (by omega)⟩
      · rename_i hends
        exact (hends stop view' h).elim

/-- A repetition moves on. -/
theorem offset_lt_of_many (hpast : c.past = 0)
    (h : (body.parse rules depth).many depth view c = .ok (.ends stop view')) :
    c.offset < stop.offset := by
  have hmoves : (body.parse rules depth).Carries Moves := carries_moves_parse body depth
  unfold Parse.many at h
  split at h
  · rename_i c₁ view₁ hfirst
    split at h
    · cases h
    · rename_i hne
      obtain ⟨t, hleads⟩ := hmoves hfirst
      obtain ⟨t', hleads'⟩ := (hmoves.more passage_moves depth) h
      have hoffset := hleads.offset_eq
      have hoffset' := hleads'.offset_eq
      simp only [Cursor.position, hpast, hleads.past_eq hpast] at hne
      omega
  · rename_i hends
    exact (hends stop view' h).elim

/-- Only a nullable matcher matches without taking a character. -/
theorem nullable_of_stays {m : Matcher ν} (hpast : c.past = 0)
    (h : m.parse rules depth view c = .ok (.ends stop view')) (hstays : stop.offset = c.offset) :
    m.Nullable rules := by
  induction depth generalizing m view c stop view' with
  | zero => cases h
  | succ depth ih =>
      unfold parse at h
      cases m with
      | literal text nonempty =>
          have hparses : (literal text nonempty).Parses rules view c (.ends stop view') :=
            ⟨depth + 1, h⟩
          have hoffset := (leads_of_parses_literal hparses).offset_eq
          have hpos : 0 < text.length := List.length_pos_iff.2 nonempty
          omega
      | pattern p =>
          have hparses : (pattern p).Parses rules view c (.ends stop view') := ⟨depth + 1, h⟩
          obtain ⟨hahead, -⟩ := ofStop_eq_ends_iff.1 (parses_pattern_iff.1 hparses)
          obtain ⟨n, hwidth, rfl⟩ := Pattern.ahead?_eq_some_iff.1 hahead
          rw [Cursor.offset_advance (p.width_le _ _ _ hwidth)] at hstays
          omega
      | sequence parts =>
          exact .sequence (nullable_of_sequence_stays (fun _ _ _ _ _ => ih) hpast h hstays)
      | oneOf choices =>
          obtain ⟨m, hmem, hm⟩ := exists_choice_of_oneOf h
          exact .oneOf hmem (ih hpast hm hstays)
      | maybe body => exact .maybe body
      | many body =>
          have hlt := offset_lt_of_many hpast h
          omega
      | upTo body terminator =>
          obtain ⟨t, c₁, view₁, hleads, hending⟩ :=
            exists_ending_of_upTo (carries_moves_parse body depth) h
          have hoffset := hleads.offset_eq
          have hle := Parses.offset_le ⟨depth, hending⟩
          exact .upTo body (ih (hleads.past_eq hpast) hending (by omega))
      | when test body =>
          dsimp only at h
          split at h
          · exact .when test (ih hpast h hstays)
          · cases h
      | whenElse test body otherwise =>
          dsimp only at h
          split at h
          · exact .whenElse test otherwise (ih hpast h hstays)
          · exact .otherwise test body (ih hpast h hstays)
      | ref name =>
          cases hbody : rules.body name with
          | none =>
              simp only [hbody] at h
              cases h
          | some body =>
              simp only [hbody] at h
              exact .ref hbody (ih hpast h hstays)
      | labelled label body => exact .labelled label (ih hpast h hstays)
      | hooked onEntry onMatch body =>
          unfold Parse.hooked at h
          dsimp only at h
          split at h
          · rename_i c₁ view₁ hbody
            split at h
            · cases h
              exact .hooked onEntry onMatch (ih hpast hbody hstays)
            · cases h
          · rename_i hends
            exact (hends stop view' h).elim

/-- A matcher that is not nullable takes a character wherever it matches. -/
theorem takes_of_not_nullable (h : ¬m.Nullable rules) : Takes rules m := by
  intro view c stop view' hpast hends
  obtain ⟨t, hleads⟩ := hends.moves
  cases t with
  | cons x t => exact ⟨x, t, hleads⟩
  | nil =>
      obtain ⟨depth, hends⟩ := hends
      exact absurd (nullable_of_stays hpast hends hleads.offset_eq) h

end Nullable

/-- What a reading comes to it comes to under every bound that is large enough. -/
theorem Parses.eventually (h : m.Parses rules view c verdict) :
    ∃ least, ∀ depth ≥ least, m.parse rules depth view c = .ok verdict := by
  obtain ⟨least, h⟩ := h
  exact ⟨least, fun depth hle => parse_mono hle h⟩

section UpTo

/-- Some rounds of a repetition up to a terminator that come to a verdict. -/
theorem parses_upTo_of_rounds {depth count : Nat} (hle : count ≤ depth)
    (h : Parse.upTo (body.parse rules depth) (terminator.parse rules depth) count view c =
      .ok verdict) :
    (upTo body terminator).Parses rules view c verdict := by
  have hextends := (Parse.Extends.refl (body.parse rules depth)).upTo
    (.refl (terminator.parse rules depth)) hle
  refine ⟨depth + 1, ?_⟩
  simp only [parse]
  rcases hextends view c with heq | ⟨halt, heq⟩
  · rw [heq, h]
  · rw [heq] at h
    cases h

/-- What is read up to a terminator is read in some number of rounds, and in any larger number. -/
theorem Parses.exists_rounds (h : (upTo body terminator).Parses rules view c verdict) :
    ∃ count, ∀ depth ≥ count,
      Parse.upTo (body.parse rules depth) (terminator.parse rules depth) count view c =
        .ok verdict := by
  obtain ⟨count, h⟩ := parses_iff_succ.1 h
  simp only [parse] at h
  refine ⟨count, fun depth hle => ?_⟩
  have hparts (m : Matcher ν) : (m.parse rules depth).Extends (m.parse rules count) :=
    extends_parse hle m
  have hextends := (hparts body).upTo (hparts terminator) (Nat.le_refl count)
  rcases hextends view c with heq | ⟨halt, heq⟩
  · rw [heq, h]
  · rw [heq] at h
    cases h

/-- Where the terminator does not fail, it decides. -/
theorem parses_upTo_of_terminator (h : terminator.Parses rules view c verdict)
    (hmatches : verdict ≠ .fails) : (upTo body terminator).Parses rules view c verdict := by
  obtain ⟨depth, h⟩ := h
  refine parses_upTo_of_rounds (Nat.le_refl (depth + 1)) ?_
  rw [Parse.upTo]
  dsimp only
  rw [parse_mono (Nat.le_succ depth) h]
  cases verdict with
  | ends stop view' => rfl
  | fails => exact absurd rfl hmatches
  | faults f => rfl

/-- At the end of the text the terminator has to stand. -/
theorem parses_upTo_of_end (h : terminator.Parses rules view c .fails) (hend : c.rest = []) :
    (upTo body terminator).Parses rules view c .fails := by
  obtain ⟨depth, h⟩ := h
  refine parses_upTo_of_rounds (Nat.le_refl (depth + 1)) ?_
  rw [Parse.upTo]
  dsimp only
  rw [parse_mono (Nat.le_succ depth) h]
  simp [Cursor.atEnd, hend]

/-- Where the terminator fails inside the text, the body is read and then the whole again. -/
theorem parses_upTo_of_body (hbody : Takes rules body) (hpast : c.past = 0)
    (h : terminator.Parses rules view c .fails) (hend : c.rest ≠ [])
    (hround : (sequence [body, upTo body terminator]).Parses rules view c verdict) :
    (upTo body terminator).Parses rules view c verdict := by
  have hatEnd : c.atEnd = false := by simpa [Cursor.atEnd] using hend
  obtain ⟨least, hterminator⟩ := h.eventually
  rcases parses_sequence_cons_iff.1 hround with ⟨stop, view', hfirst, hothers⟩ | ⟨hfirst, hstays⟩
  · have hmoves := hbody.position_ne hpast hfirst
    obtain ⟨least', hfirst⟩ := hfirst.eventually
    obtain ⟨count, hothers⟩ := (parses_sequence_singleton_iff.1 hothers).exists_rounds
    obtain ⟨depth, hdepth⟩ : ∃ depth, depth = max (max least least') (count + 1) := ⟨_, rfl⟩
    have hterminator := hterminator depth (by omega)
    have hfirst := hfirst depth (by omega)
    refine parses_upTo_of_rounds (show count + 1 ≤ depth by omega) ?_
    rw [Parse.upTo]
    simp only [hterminator, hatEnd, Bool.false_eq_true, if_false, hfirst, hmoves]
    exact hothers depth (by omega)
  · obtain ⟨least', hfirst⟩ := hfirst.eventually
    obtain ⟨depth, hdepth⟩ : ∃ depth, depth = max (max least least') 1 := ⟨_, rfl⟩
    have hterminator := hterminator depth (by omega)
    have hfirst := hfirst depth (by omega)
    refine parses_upTo_of_rounds (show 1 ≤ depth by omega) ?_
    rw [Parse.upTo]
    simp only [hterminator, hatEnd, Bool.false_eq_true, if_false, hfirst]
    cases verdict with
    | ends stop view' => exact absurd rfl (hstays stop view')
    | fails => rfl
    | faults f => rfl

/-- One round of a repetition up to a terminator: the terminator, or else the body and the same
repetition behind it, unless the text is at its end. -/
theorem parses_upTo_iff (hbody : Takes rules body) (hpast : c.past = 0) :
    (upTo body terminator).Parses rules view c verdict ↔
      (terminator.Parses rules view c verdict ∧ verdict ≠ .fails) ∨
      (terminator.Parses rules view c .fails ∧
        ((c.rest = [] ∧ verdict = .fails) ∨
          (c.rest ≠ [] ∧
            (sequence [body, upTo body terminator]).Parses rules view c verdict))) := by
  constructor
  · intro h
    obtain ⟨count, h⟩ := h.exists_rounds
    cases count with
    | zero => cases h 0 (Nat.le_refl 0)
    | succ count =>
        have h := h (count + 1) (Nat.le_refl _)
        rw [Parse.upTo] at h
        dsimp only at h
        split at h
        · rename_i hfails
          refine .inr ⟨⟨_, hfails⟩, ?_⟩
          split at h
          · rename_i hend
            cases h
            exact .inl ⟨by simpa [Cursor.atEnd] using hend, rfl⟩
          rename_i hend
          refine .inr ⟨by simpa [Cursor.atEnd] using hend, parses_sequence_cons_iff.2 ?_⟩
          split at h
          · rename_i stop view' hfirst
            refine .inl ⟨stop, view', ⟨_, hfirst⟩, ?_⟩
            rw [if_neg (hbody.position_ne hpast ⟨_, hfirst⟩)] at h
            exact parses_sequence_singleton_iff.2 (parses_upTo_of_rounds (Nat.le_succ count) h)
          · rename_i hstays
            refine .inr ⟨⟨_, h⟩, fun stop view' heq => hstays stop view' ?_⟩
            rw [h, heq]
        · rename_i hmatches
          refine .inl ⟨⟨_, h⟩, fun heq => hmatches ?_⟩
          rw [h, heq]
  · rintro (⟨hterminator, hmatches⟩ | ⟨hfails, ⟨hend, rfl⟩ | ⟨hend, hround⟩⟩)
    · exact parses_upTo_of_terminator hterminator hmatches
    · exact parses_upTo_of_end hfails hend
    · exact parses_upTo_of_body hbody hpast hfails hend hround

/-- A repetition up to a terminator that matches is the terminator, or one round and the same
repetition in front of a shorter text. -/
theorem Parses.round_of_upTo (hbody : Takes rules body) (hpast : c.past = 0)
    (h : (upTo body terminator).Parses rules view c (.ends stop view')) :
    terminator.Parses rules view c (.ends stop view') ∨
      terminator.Parses rules view c .fails ∧
        ∃ c₁ view₁, c₁.past = 0 ∧ c₁.rest.length < c.rest.length ∧
          body.Parses rules view c (.ends c₁ view₁) ∧
          (upTo body terminator).Parses rules view₁ c₁ (.ends stop view') := by
  rcases (parses_upTo_iff hbody hpast).1 h with
    ⟨hends, -⟩ | ⟨hfails, ⟨-, hverdict⟩ | ⟨-, hround⟩⟩
  · exact .inl hends
  · cases hverdict
  · obtain ⟨c₁, view₁, hfirst, hothers⟩ := hround.of_sequence_cons
    obtain ⟨x, t, hleads⟩ := hbody hpast hfirst
    refine .inr ⟨hfails, c₁, view₁, hleads.past_eq hpast, ?_, hfirst,
      parses_sequence_singleton_iff.1 hothers⟩
    rw [hleads.rest_eq]
    simp only [List.cons_append, List.length_cons, List.length_append]
    omega

/-- One round more in front of a repetition up to a terminator. -/
theorem parses_upTo_of_round {c₁ : Cursor} {view₁ : View} (hbody : Takes rules body)
    (hpast : c.past = 0) (hfails : terminator.Parses rules view c .fails)
    (hfirst : body.Parses rules view c (.ends c₁ view₁))
    (hothers : (upTo body terminator).Parses rules view₁ c₁ verdict) :
    (upTo body terminator).Parses rules view c verdict := by
  obtain ⟨x, t, hleads⟩ := hbody hpast hfirst
  exact parses_upTo_of_body hbody hpast hfails (by simp [hleads.rest_eq])
    (parses_sequence_cons_iff.2 (.inl ⟨c₁, view₁, hfirst,
      parses_sequence_singleton_iff.2 hothers⟩))

end UpTo

section Many

/-- Further rounds of a repetition do not fail. -/
theorem more_ne_fails {parse : Parse} {count : Nat} : parse.more count view c ≠ .ok .fails := by
  induction count generalizing view c with
  | zero => nofun
  | succ count ih =>
      intro h
      unfold Parse.more at h
      split at h
      · split at h
        · cases h
        · exact ih h
      · cases h
      · rename_i hfails
        exact hfails h

/-- Some further rounds of a repetition that come to a verdict. -/
theorem parses_maybe_many_of_more (hbody : Takes rules body) (hpast : c.past = 0)
    {depth count : Nat} (hle : count ≤ depth)
    (h : (body.parse rules depth).more count view c = .ok verdict) :
    (maybe (many body)).Parses rules view c verdict := by
  rw [parses_maybe_iff]
  cases count with
  | zero => cases h
  | succ count =>
      have hmatches : verdict ≠ .fails := by
        rintro rfl
        exact more_ne_fails h
      unfold Parse.more at h
      split at h
      · rename_i stop view' hfirst
        have hmoves := hbody.position_ne hpast ⟨_, hfirst⟩
        rw [if_neg hmoves] at h
        refine .inr ⟨⟨depth + 1, ?_⟩, hmatches⟩
        have hextends := (Parse.Extends.refl (body.parse rules depth)).more
          (show count ≤ depth by omega)
        simp only [parse, Parse.many, hfirst, if_neg hmoves]
        rcases hextends view' stop with heq | ⟨halt, heq⟩
        · rw [heq, h]
        · rw [heq] at h
          cases h
      · rename_i hfails
        cases h
        exact .inl ⟨⟨depth + 1, by simp only [parse, Parse.many, hfails]⟩, rfl⟩
      · rename_i hends _
        refine .inr ⟨⟨depth + 1, ?_⟩, hmatches⟩
        cases verdict with
        | ends stop view' => exact (hends stop view' h).elim
        | fails => exact absurd rfl hmatches
        | faults f => simp only [parse, Parse.many, h]

/-- What a repetition that may be missing reads is read in some number of rounds, and in any larger
number. -/
theorem Parses.exists_more (hbody : Takes rules body) (hpast : c.past = 0)
    (h : (maybe (many body)).Parses rules view c verdict) :
    ∃ count, ∀ depth ≥ count, (body.parse rules depth).more count view c = .ok verdict := by
  rcases parses_maybe_iff.1 h with ⟨hfails, rfl⟩ | ⟨hmany, hmatches⟩
  · -- a repetition whose first round matches does not fail
    obtain ⟨count, hfails⟩ := parses_iff_succ.1 hfails
    simp only [parse] at hfails
    unfold Parse.many at hfails
    split at hfails
    · rename_i stop view' hfirst
      rw [if_neg (hbody.position_ne hpast ⟨_, hfirst⟩)] at hfails
      exact absurd hfails more_ne_fails
    · refine ⟨count + 1, fun depth hle => ?_⟩
      unfold Parse.more
      rw [parse_mono (show count ≤ depth by omega) hfails]
  · obtain ⟨count, hmany⟩ := parses_iff_succ.1 hmany
    simp only [parse] at hmany
    unfold Parse.many at hmany
    split at hmany
    · rename_i stop view' hfirst
      have hmoves := hbody.position_ne hpast ⟨_, hfirst⟩
      rw [if_neg hmoves] at hmany
      refine ⟨count + 1, fun depth hle => ?_⟩
      have hle : count ≤ depth := by omega
      unfold Parse.more
      simp only [parse_mono hle hfirst, if_neg hmoves]
      have hextends : (body.parse rules depth).Extends (body.parse rules count) :=
        extends_parse hle body
      rcases hextends.more (Nat.le_refl count) view' stop with heq | ⟨halt, heq⟩
      · rw [heq, hmany]
      · rw [heq] at hmany
        cases hmany
    · rename_i hends
      refine ⟨count + 1, fun depth hle => ?_⟩
      unfold Parse.more
      rw [parse_mono (show count ≤ depth by omega) hmany]
      cases verdict with
      | ends stop view' => exact (hends stop view' hmany).elim
      | fails => exact absurd rfl hmatches
      | faults f => rfl

/-- One round of a repetition: its body, and the same repetition or nothing behind it. -/
theorem parses_many_iff (hbody : Takes rules body) (hpast : c.past = 0) :
    (many body).Parses rules view c verdict ↔
      (sequence [body, maybe (many body)]).Parses rules view c verdict := by
  constructor
  · intro h
    obtain ⟨depth, h⟩ := parses_iff_succ.1 h
    simp only [parse] at h
    unfold Parse.many at h
    rw [parses_sequence_cons_iff]
    split at h
    · rename_i stop view' hfirst
      rw [if_neg (hbody.position_ne hpast ⟨_, hfirst⟩)] at h
      obtain ⟨x, t, hleads⟩ := hbody hpast ⟨_, hfirst⟩
      have hothers := parses_maybe_many_of_more hbody (hleads.past_eq hpast) (Nat.le_refl _) h
      exact .inl ⟨stop, view', ⟨_, hfirst⟩, parses_sequence_singleton_iff.2 hothers⟩
    · rename_i hends
      refine .inr ⟨⟨_, h⟩, ?_⟩
      rintro stop view' rfl
      exact hends stop view' h
  · intro h
    rcases parses_sequence_cons_iff.1 h with ⟨stop, view', hfirst, hothers⟩ | ⟨hfirst, hstays⟩
    · obtain ⟨x, t, hleads⟩ := hbody hpast hfirst
      have hmoves := position_ne_of_leads hpast hleads
      have hothers := parses_sequence_singleton_iff.1 hothers
      obtain ⟨count, hothers⟩ := hothers.exists_more hbody (hleads.past_eq hpast)
      obtain ⟨least, hfirst⟩ := hfirst.eventually
      obtain ⟨depth, hdepth⟩ : ∃ depth, depth = max least count := ⟨_, rfl⟩
      have hfirst := hfirst depth (by omega)
      have hothers := hothers depth (by omega)
      have hextends := (Parse.Extends.refl (body.parse rules depth)).more
        (show count ≤ depth by omega)
      refine ⟨depth + 1, ?_⟩
      simp only [parse, Parse.many, hfirst, if_neg hmoves]
      rcases hextends view' stop with heq | ⟨halt, heq⟩
      · rw [heq, hothers]
      · rw [heq] at hothers
        cases hothers
    · obtain ⟨depth, hfirst⟩ := hfirst
      refine ⟨depth + 1, ?_⟩
      simp only [parse, Parse.many, hfirst]
      cases verdict with
      | ends stop view' => exact absurd rfl (hstays stop view')
      | fails => rfl
      | faults f => rfl

/-- A repetition fails where its body does. -/
theorem parses_many_fails (hbody : Takes rules body) (hpast : c.past = 0)
    (h : body.Parses rules view c .fails) : (many body).Parses rules view c .fails :=
  (parses_many_iff hbody hpast).2 (parses_sequence_cons_iff.2 (.inr ⟨h, nofun⟩))

end Many

end Stencil.Matcher
