import Stencil.Proofs.Matcher.Passage
import Stencil.Proofs.Matcher.Refinement

/-!
# What a matcher reads

`Matcher.Parses` says what reading a text as a matcher comes to, whatever the bound on the depth is.
For each way to build matchers a lemma says what its verdict is, given those of the parts. With
these the meaning of a rule can be worked out from the way it is built, and `Matcher.step_some` and
`Matcher.step_none` tell what the engine finds, for matchers and rules that are `Regular`.

Many matchers look at the text alone. Such a matcher `ReadsAs` a function from places to places,
which can be put together from the functions of its parts.
-/

set_option autoImplicit false

namespace Stencil

/-- Rules whose conditions change nothing when they are asked, and whose patterns take a character
wherever they match. -/
def Rules.Regular {ν : Type} (rules : Rules ν) : Prop :=
  rules.BuiltFrom Pattern.Consumes Condition.OnlyAsks

namespace Matcher

variable {ν : Type}

/-- Reading a text as a matcher comes to a verdict. -/
def Parses (rules : Rules ν) (m : Matcher ν) (view : View) (c : Cursor) (verdict : Verdict) :
    Prop :=
  ∃ depth, m.parse rules depth view c = .ok verdict

variable {rules : Rules ν} {m : Matcher ν} {view view' : View} {c stop : Cursor}
  {verdict : Verdict}

/-- A reading has one verdict. -/
theorem Parses.unique {verdict' : Verdict} (h : m.Parses rules view c verdict)
    (h' : m.Parses rules view c verdict') : verdict = verdict' := by
  obtain ⟨depth, hdepth⟩ := h
  obtain ⟨depth', hdepth'⟩ := h'
  have hmax := parse_mono (Nat.le_max_left depth depth') hdepth
  have hmax' := parse_mono (Nat.le_max_right depth depth') hdepth'
  rw [hmax] at hmax'
  injection hmax'

/-- A bound that is used up allows no reading. -/
theorem parses_iff_succ :
    m.Parses rules view c verdict ↔ ∃ depth, m.parse rules (depth + 1) view c = .ok verdict := by
  constructor
  · rintro ⟨depth, h⟩
    exact ⟨depth, parse_mono (Nat.le_succ depth) h⟩
  · rintro ⟨depth, h⟩
    exact ⟨depth + 1, h⟩

/-- A look at the text ends where it says, with the map as it was. -/
theorem ofStop_eq_ends_iff {stop? : Option Cursor} :
    .ends stop view' = Verdict.ofStop view stop? ↔ stop? = some stop ∧ view' = view := by
  cases stop? <;> simp [Verdict.ofStop, eq_comm]

/-- A fixed text is read where it stands. -/
theorem parses_literal_iff {text : Text} {nonempty : text ≠ []} :
    (literal text nonempty).Parses rules view c verdict ↔
      verdict = .ofStop view (c.after? text) := by
  rw [parses_iff_succ]
  simp [parse, Parse.pure, eq_comm]

/-- A pattern is read where it takes a character. -/
theorem parses_pattern_iff {p : Pattern} :
    (pattern p).Parses rules view c verdict ↔ verdict = .ofStop view (p.ahead? c) := by
  rw [parses_iff_succ]
  simp [parse, Parse.pure, eq_comm]

/-- A label makes no difference to what is read. -/
theorem parses_labelled_iff {label : String} {body : Matcher ν} :
    (labelled label body).Parses rules view c verdict ↔ body.Parses rules view c verdict := by
  rw [parses_iff_succ]
  exact Iff.rfl

/-- A reference is read as the rule that it refers to. -/
theorem parses_ref_iff {name : ν} {body : Matcher ν} (hbody : rules.body name = some body) :
    (ref name).Parses rules view c verdict ↔ body.Parses rules view c verdict := by
  rw [parses_iff_succ]
  simp only [parse, hbody]
  exact Iff.rfl

/-- An empty sequence is read where it stands. -/
theorem parses_sequence_nil_iff :
    (sequence []).Parses rules view c verdict ↔ verdict = .ends c view := by
  rw [parses_iff_succ]
  simp [parse, Parse.sequence, eq_comm]

/-- A sequence goes on behind its first part, if that matches. -/
theorem parses_sequence_cons_iff {ms : List (Matcher ν)} :
    (sequence (m :: ms)).Parses rules view c verdict ↔
      (∃ stop view', m.Parses rules view c (.ends stop view') ∧
        (sequence ms).Parses rules view' stop verdict) ∨
      (m.Parses rules view c verdict ∧ ∀ stop view', verdict ≠ .ends stop view') := by
  constructor
  · intro h
    obtain ⟨depth, h⟩ := parses_iff_succ.1 h
    simp only [parse, List.map_cons, Parse.sequence] at h
    split at h
    · rename_i stop view' hfirst
      exact .inl ⟨stop, view', ⟨depth, hfirst⟩, ⟨depth + 1, h⟩⟩
    · rename_i hstays
      refine .inr ⟨⟨depth, h⟩, fun stop view' heq => hstays stop view' ?_⟩
      rw [h, heq]
  · rintro (⟨stop, view', ⟨depth, hfirst⟩, ⟨depth', hothers⟩⟩ | ⟨⟨depth, hfirst⟩, hstays⟩)
    · have hfirst' := parse_mono (Nat.le_max_left depth depth') hfirst
      have hothers' := parse_mono (Nat.le_succ_of_le (Nat.le_max_right depth depth')) hothers
      refine ⟨max depth depth' + 1, ?_⟩
      simp only [parse] at hothers' ⊢
      simp only [List.map_cons, Parse.sequence, hfirst', hothers']
    · refine ⟨depth + 1, ?_⟩
      simp only [parse, List.map_cons, Parse.sequence, hfirst]
      cases verdict with
      | ends stop view' => exact absurd rfl (hstays stop view')
      | fails => rfl
      | faults f => rfl

/-- A match of a sequence is one of its first part, and one of the others behind it. -/
theorem Parses.of_sequence_cons {ms : List (Matcher ν)}
    (h : (sequence (m :: ms)).Parses rules view c (.ends stop view')) :
    ∃ stop' view'', m.Parses rules view c (.ends stop' view'') ∧
      (sequence ms).Parses rules view'' stop' (.ends stop view') := by
  rcases parses_sequence_cons_iff.1 h with h | ⟨-, hstays⟩
  · exact h
  · exact absurd rfl (hstays stop view')

/-- An option is read as its body, or stays where it is if the body fails. -/
theorem parses_maybe_iff {body : Matcher ν} :
    (maybe body).Parses rules view c verdict ↔
      (body.Parses rules view c .fails ∧ verdict = .ends c view) ∨
      (body.Parses rules view c verdict ∧ verdict ≠ .fails) := by
  constructor
  · intro h
    obtain ⟨depth, h⟩ := parses_iff_succ.1 h
    simp only [parse, Parse.maybe] at h
    split at h
    · rename_i hfails
      cases h
      exact .inl ⟨⟨depth, hfails⟩, rfl⟩
    · rename_i hmatches
      refine .inr ⟨⟨depth, h⟩, fun heq => hmatches ?_⟩
      rw [h, heq]
  · rintro (⟨⟨depth, hfails⟩, rfl⟩ | ⟨⟨depth, hbody⟩, hmatches⟩)
    · exact ⟨depth + 1, by simp only [parse, Parse.maybe, hfails]⟩
    · refine ⟨depth + 1, ?_⟩
      simp only [parse, Parse.maybe, hbody]
      cases verdict with
      | ends stop view' => rfl
      | fails => exact absurd rfl hmatches
      | faults f => rfl

/-- A repetition that matches starts with a match of its body. -/
theorem Parses.of_many {body : Matcher ν}
    (h : (many body).Parses rules view c (.ends stop view')) :
    ∃ stop' view'', body.Parses rules view c (.ends stop' view'') := by
  obtain ⟨depth, h⟩ := parses_iff_succ.1 h
  simp only [parse, Parse.many] at h
  split at h
  · rename_i stop' view'' hfirst
    exact ⟨stop', view'', depth, hfirst⟩
  · exact ⟨stop, view', depth, h⟩

/-- A matcher with hooks matches where its body does, unless a hook finds something wrong. -/
theorem parses_hooked_ends_iff {onEntry : List EntryHook} {onMatch : List MatchHook}
    {body : Matcher ν} :
    (hooked onEntry onMatch body).Parses rules view c (.ends stop view') ↔
      ∃ view'', body.Parses rules (view.enter onEntry) c (.ends stop view'') ∧
        view''.leave (c.upTo stop) c.position onMatch = .ok view' := by
  constructor
  · intro h
    obtain ⟨depth, h⟩ := parses_iff_succ.1 h
    simp only [parse, Parse.hooked] at h
    split at h
    · rename_i stop' view'' hbody
      split at h
      · rename_i left hleave
        cases h
        exact ⟨view'', ⟨depth, hbody⟩, hleave⟩
      · cases h
    · rename_i hstays
      exact absurd h (hstays stop view')
  · rintro ⟨view'', ⟨depth, hbody⟩, hleave⟩
    exact ⟨depth + 1, by simp only [parse, Parse.hooked, hbody, hleave]⟩

/-- A passage that the hooks and conditions of a matcher respect holds between the start and the end
of a match. -/
theorem Parses.carries {R : View → Cursor → View → Cursor → Prop} {isRef : ν → Prop}
    (hR : Passage R)
    (hrules : ∀ name body, isRef name → rules.body name = some body → body.Respects R isRef)
    (hm : m.Respects R isRef) (h : m.Parses rules view c (.ends stop view')) :
    R view c view' stop := by
  obtain ⟨depth, h⟩ := h
  exact carries_parse hR hrules depth hm h

/-! ## What the engine finds -/

/-- A matcher whose conditions change nothing when they are asked, and whose patterns take a
character wherever they match. -/
def Regular (m : Matcher ν) : Prop := m.BuiltFrom Pattern.Consumes Condition.OnlyAsks

/-- Trying a regular matcher agrees with reading a text as the matcher, at all places. -/
theorem agrees_step (hrules : rules.Regular) (hm : m.Regular) {a : Attempt} (ha : a.fatal = none)
    (depth : Nat) (c : Cursor) :
    Agrees False (m.step rules depth a c) (m.parse rules depth a.store.view c) :=
  refines_step hrules.confined (.inr hrules) depth (hm.confined False) (.inr hm) ha False.elim

/-- Where the engine matches a regular matcher no cause was reported before, and the reading matches
too. -/
theorem step_some (hrules : rules.Regular) (hm : m.Regular) {depth : Nat} {a a' : Attempt}
    (h : m.step rules depth a c = .ok (some stop, a')) :
    a.fatal = none ∧ a'.fatal = none ∧
      m.Parses rules a.store.view c (.ends stop a'.store.view) := by
  have hclean := fatal_of_step_some h
  have hagrees := agrees_step hrules hm hclean depth c
  rw [h] at hagrees
  generalize hanswer : m.parse rules depth a.store.view c = answer at hagrees
  cases hagrees with
  | ends stop hplace hclean' hview => exact ⟨hclean, hclean', depth, by rw [hanswer, hview]⟩

/-- Where the engine fails a regular matcher without a cause reported before, the reading does not
match. -/
theorem step_none (hrules : rules.Regular) (hm : m.Regular) {depth : Nat} {a a' : Attempt}
    (ha : a.fatal = none) (h : m.step rules depth a c = .ok (none, a')) (stop : Cursor)
    (view' : View) : ¬m.Parses rules a.store.view c (.ends stop view') := by
  intro hends
  have hagrees := agrees_step hrules hm ha depth c
  rw [h] at hagrees
  generalize hanswer : m.parse rules depth a.store.view c = answer at hagrees
  cases hagrees with
  | fails hclean => cases hends.unique ⟨depth, hanswer⟩
  | faults hfatal => cases hends.unique ⟨depth, hanswer⟩

/-! ## Matchers that look at the text alone -/

/-- A matcher that looks at the text alone and leaves the map as it is. -/
def ReadsAs (rules : Rules ν) (m : Matcher ν) (stop? : Cursor → Option Cursor) : Prop :=
  ∀ view c, m.Parses rules view c (.ofStop view (stop? c))

section ReadsAs

variable {stop? rest? : Cursor → Option Cursor}

/-- What looks at the text alone matches up to the place that it finds there, and keeps the map. -/
theorem ReadsAs.parses_ends_iff (h : m.ReadsAs rules stop?) :
    m.Parses rules view c (.ends stop view') ↔ stop? c = some stop ∧ view' = view := by
  rw [← ofStop_eq_ends_iff]
  constructor
  · exact fun hends => hends.unique (h view c)
  · intro heq
    rw [heq]
    exact h view c

/-- A fixed text looks at the text alone. -/
theorem readsAs_literal (text : Text) (nonempty : text ≠ []) :
    (literal text nonempty).ReadsAs rules fun c => c.after? text :=
  fun _ _ => parses_literal_iff.2 rfl

/-- A pattern looks at the text alone. -/
theorem readsAs_pattern (p : Pattern) : (pattern p).ReadsAs rules p.ahead? :=
  fun _ _ => parses_pattern_iff.2 rfl

/-- A labelled matcher looks at the text alone if the matcher does. -/
theorem ReadsAs.labelled {label : String} (h : m.ReadsAs rules stop?) :
    (labelled label m).ReadsAs rules stop? :=
  fun view c => parses_labelled_iff.2 (h view c)

/-- A reference looks at the text alone if its rule does. -/
theorem ReadsAs.ref {name : ν} (h : m.ReadsAs rules stop?) (hbody : rules.body name = some m) :
    (ref name).ReadsAs rules stop? :=
  fun view c => (parses_ref_iff hbody).2 (h view c)

/-- An option looks at the text alone if its body does. -/
theorem ReadsAs.maybe (h : m.ReadsAs rules stop?) :
    (maybe m).ReadsAs rules fun c => some ((stop? c).getD c) := by
  intro view c
  have hbody := h view c
  rw [parses_maybe_iff]
  dsimp only
  cases hstop : stop? c with
  | none =>
      rw [hstop] at hbody
      exact .inl ⟨hbody, rfl⟩
  | some stop =>
      rw [hstop] at hbody
      exact .inr ⟨hbody, nofun⟩

/-- An empty sequence ends where it starts. -/
theorem readsAs_sequence_nil : (sequence [] : Matcher ν).ReadsAs rules some :=
  fun _ _ => parses_sequence_nil_iff.2 rfl

/-- A sequence looks at the text alone if its parts do. -/
theorem ReadsAs.sequence_cons {ms : List (Matcher ν)} (h : m.ReadsAs rules stop?)
    (hothers : (sequence ms).ReadsAs rules rest?) :
    (sequence (m :: ms)).ReadsAs rules fun c => (stop? c).bind rest? := by
  intro view c
  have hfirst := h view c
  rw [parses_sequence_cons_iff]
  dsimp only
  cases hstop : stop? c with
  | none =>
      rw [hstop] at hfirst
      exact .inr ⟨hfirst, nofun⟩
  | some stop =>
      rw [hstop] at hfirst
      exact .inl ⟨stop, view, hfirst, hothers view stop⟩

end ReadsAs

end Matcher

end Stencil
