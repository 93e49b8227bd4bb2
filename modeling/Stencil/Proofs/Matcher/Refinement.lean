import Stencil.Proofs.Matcher.Containment
import Stencil.Proofs.Matcher.Progress
import Stencil.Proofs.Matcher.Reading

/-!
# The engine agrees with the reading without layers

The engine works on a store with layers, the reading of `Matcher.parse` on one map. `Agrees`
compares an outcome of the engine with an answer of the reading, where the map of a store is what a
reader sees of it. `Step.Refines` says that a step agrees with a reading from every state in which
no cause was reported; each way to combine steps keeps it, and `Matcher.step_iff_parse` is the
statement about whole matchers.

Two facts on what steps write carry the proof: a try of a confined matcher that fails leaves the
store as it was (`Step.Transactional`), so that what is tried next starts with the same map, and
folding a layer changes nothing that a reader sees (`Store.OnTop.view_commit`).

The engine departs from the reading in two ways, both shown by `Matcher.not_step_iff_parse`. What a
condition writes outlives a failure where no layer is dropped for it, so the matcher must be
confined. And past the end of the text the engine takes a match of no characters for a match that
leads back to the end, so the place must lie in the text, or no pattern may match without taking a
character (`Pattern.Consumes`).
-/

set_option autoImplicit false

namespace Stencil

/-! ## Agreement -/

/-- An outcome of the engine and an answer without layers that say the same. Where only places in
the text count, a match also ends in the text. -/
inductive Agrees (inText : Prop) : Outcome → Except Halt Verdict → Prop
  | halts (halt : Halt) : Agrees inText (.error halt) (.error halt)
  | ends (stop : Cursor) {a : Attempt} {view : View} (hplace : inText → stop.past = 0)
      (hclean : a.fatal = none) (hview : a.store.view = view) :
      Agrees inText (.ok (some stop, a)) (.ok (.ends stop view))
  | fails {a : Attempt} (hclean : a.fatal = none) : Agrees inText (.ok (none, a)) (.ok .fails)
  | faults {a : Attempt} {f : Fault} (hfatal : a.fatal = some f) :
      Agrees inText (.ok (none, a)) (.ok (.faults f))

/-- An attempt with a fault is at fault. -/
theorem Attempt.isFatal_of_fatal {a : Attempt} {f : Fault} (h : a.fatal = some f) :
    a.isFatal = true := by
  simp [Attempt.isFatal, h]

/-- Settling a match keeps it if no cause was reported. -/
theorem agrees_settle_some {inText : Prop} (stop : Cursor) {a : Attempt} {view : View}
    (hplace : inText → stop.past = 0) (hclean : a.fatal = none)
    (hview : a.store.commit.view = view) :
    Agrees inText (.ok (a.settle (some stop))) (.ok (.ends stop view)) := by
  unfold Attempt.settle
  rw [hclean]
  exact .ends stop hplace rfl hview

/-- Settling after a report comes to the fault that was reported. -/
theorem agrees_settle_fatal {inText : Prop} (found : Option Cursor) {a : Attempt} {f : Fault}
    (hfatal : a.fatal = some f) : Agrees inText (.ok (a.settle found)) (.ok (.faults f)) := by
  unfold Attempt.settle
  rw [hfatal]
  cases found <;> exact .faults rfl

namespace Step

/-- A step that agrees with a reading wherever no cause was reported before, at all places or at
those in the text alone. -/
def Refines (inText : Prop) (step : Step) (parse : Parse) : Prop :=
  ∀ ⦃a : Attempt⦄, a.fatal = none → ∀ ⦃c⦄, (inText → c.past = 0) →
    Agrees inText (step a c) (parse a.store.view c)

/-- A step that agrees with a reading, and undoes its writes when it fails. -/
structure Reads (inText : Prop) (step : Step) (parse : Parse) : Prop where
  refines : Refines inText step parse
  undoes : Transactional step

variable {inText : Prop} {step terminator otherwise : Step} {parse ending other : Parse}

/-- Two ways to find a place that come to the same agree, if they stay in the text. -/
theorem refines_pure {stop? ahead? : Cursor → Option Cursor}
    (h : ∀ c, (inText → c.past = 0) →
      stop? c = ahead? c ∧ ∀ stop, ahead? c = some stop → stop.past = c.past) :
    Refines inText (Step.pure stop?) (Parse.pure ahead?) := by
  intro a ha c hc
  obtain ⟨heq, hpast⟩ := h c hc
  unfold Step.pure Parse.pure
  rw [heq]
  cases hstop : ahead? c with
  | none => exact .fails ha
  | some stop => exact .ends stop (fun hin => (hpast stop hstop).trans (hc hin)) ha rfl

/-- The engine follows a fixed text as the reading does. -/
theorem refines_literal (text : Text) :
    Refines inText (Step.pure fun c => c.after? text) (Parse.pure fun c => c.after? text) := by
  refine refines_pure fun c _ => ⟨rfl, fun stop hstop => ?_⟩
  obtain ⟨rest, -, rfl⟩ := Cursor.after?_eq_some_iff.1 hstop
  rfl

/-- The engine follows a pattern as the reading does, where only places in the text count or the
pattern takes a character wherever it matches. -/
theorem refines_pattern {p : Pattern} (h : inText ∨ p.Consumes) :
    Refines inText (Step.pure p.after?) (Parse.pure p.ahead?) := by
  refine refines_pure fun c hc => ⟨Pattern.after?_eq_ahead? (h.imp_left hc), fun stop hstop => ?_⟩
  obtain ⟨n, -, rfl⟩ := Pattern.ahead?_eq_some_iff.1 hstop
  rfl

/-- A check for a report makes no difference where none was made. -/
theorem Refines.guarded (h : Refines inText step parse) :
    Refines inText (Step.guarded step) parse := by
  intro a ha c hc
  unfold Step.guarded
  rw [if_neg (Attempt.not_isFatal ha)]
  exact h ha hc

/-- A layer of its own does not show. -/
theorem Refines.staged (h : Refines inText step parse) (hwrites : WritesOnTop step) :
    Refines inText (Step.staged step) parse := by
  intro a ha c hc
  have hagrees : Agrees inText (step a.begin c) (parse a.begin.store.view c) :=
    h (a := a.begin) ha hc
  rw [show a.begin.store.view = a.store.view from rfl] at hagrees
  unfold Step.staged
  generalize parse a.store.view c = answer at hagrees ⊢
  cases hrun : step a.begin c with
  | error halt =>
      rw [hrun] at hagrees
      cases hagrees
      exact .halts halt
  | ok outcome =>
      obtain ⟨found, b⟩ := outcome
      have hlayer : a.store.begin.OnTop b.store := hwrites hrun
      rw [hrun] at hagrees
      cases hagrees with
      | ends stop hplace hclean hview =>
          exact agrees_settle_some stop hplace hclean (hlayer.view_commit.trans hview)
      | fails hclean => exact .fails hclean
      | faults hfatal => exact .faults hfatal

/-- Hooks on entry change the map of a store as they change a map, and report nothing. -/
theorem enter_view (onEntry : List EntryHook) (a : Attempt) :
    (a.enter onEntry).store.view = a.store.view.enter onEntry ∧
      (a.enter onEntry).fatal = a.fatal := by
  induction onEntry generalizing a with
  | nil => exact ⟨rfl, rfl⟩
  | cons hook hooks ih =>
      obtain ⟨hview, hfatal⟩ := ih { a with store := a.store.edits (hook a.store.view) }
      refine ⟨?_, hfatal⟩
      show _ = (a.store.view.edits (hook a.store.view)).enter hooks
      rw [← Store.view_edits]
      exact hview

/-- Hooks on a match report what they find wrong, or change what a reader sees. -/
theorem leave_view (text : Text) (position : Nat) (onMatch : List MatchHook) {a : Attempt}
    (ha : a.fatal = none) :
    match a.store.view.leave text position onMatch with
    | .ok view =>
      (a.leave text position onMatch).store.view = view ∧
        (a.leave text position onMatch).fatal = none
    | .error f => (a.leave text position onMatch).fatal = some f := by
  induction onMatch generalizing a with
  | nil => exact ⟨rfl, ha⟩
  | cons hook hooks ih =>
      unfold View.leave Attempt.leave
      rcases hook text a.store.view with ⟨es, _ | cause⟩
      · have hothers := ih (a := { a with store := a.store.edits es }) ha
        dsimp only at hothers ⊢
        rw [Store.view_edits] at hothers
        exact hothers
      · simp [ha]

/-- A step with hooks may end with a report, so that it agrees with a reading only in a layer of its
own. -/
theorem Refines.hooked (h : Refines inText step parse) (hwrites : WritesOnTop step)
    (onEntry : List EntryHook) (onMatch : List MatchHook) :
    Refines inText (Step.staged (Step.hooked onEntry onMatch step))
      (Parse.hooked onEntry onMatch parse) := by
  intro a ha c hc
  obtain ⟨hview, hfatal⟩ := enter_view onEntry a.begin
  have hagrees := h (hfatal.trans ha) hc
  rw [hview, show a.begin.store.view = a.store.view from rfl] at hagrees
  unfold Step.staged Step.hooked Parse.hooked
  generalize parse (a.store.view.enter onEntry) c = answer at hagrees ⊢
  cases hrun : step (a.begin.enter onEntry) c with
  | error halt =>
      rw [hrun] at hagrees
      cases hagrees
      exact .halts halt
  | ok outcome =>
      obtain ⟨found, b⟩ := outcome
      have hlayer : a.store.begin.OnTop b.store :=
        (onTop_enter onEntry a.begin).trans (hwrites hrun)
      rw [hrun] at hagrees
      cases hagrees with
      | fails hclean => exact .fails hclean
      | faults hreport => exact .faults hreport
      | ends stop hplace hclean hends =>
          have hleft := leave_view (c.upTo stop) c.position onMatch hclean
          have hwritten := hlayer.trans (onTop_leave (c.upTo stop) c.position onMatch b)
          rw [hends] at hleft
          dsimp only
          rw [if_neg (Attempt.not_isFatal hclean)]
          generalize View.leave (c.upTo stop) c.position onMatch _ = left at hleft ⊢
          cases left with
          | ok view =>
              obtain ⟨hseen, hquiet⟩ := hleft
              exact agrees_settle_some stop hplace hquiet (hwritten.view_commit.trans hseen)
          | error f => exact agrees_settle_fatal (some stop) hleft

/-! ## Combinations of steps -/

section Combinations

variable {ν : Type} {run : Matcher ν → Step} {read : Matcher ν → Parse}

/-- Steps one behind the other agree with readings one behind the other. -/
theorem refines_sequence {parts : List (Matcher ν)}
    (h : ∀ m ∈ parts, Refines inText (run m) (read m)) :
    Refines inText (Step.sequence (parts.map run)) (Parse.sequence (parts.map read)) := by
  induction parts with
  | nil => exact fun a ha c hc => .ends c hc ha rfl
  | cons m ms ih =>
      intro a ha c hc
      have hfirst := h m (List.mem_cons_self ..) ha hc
      have hothers := ih fun m' hmem => h m' (List.mem_cons_of_mem _ hmem)
      rw [List.map_cons, List.map_cons, Step.sequence, Parse.sequence]
      dsimp only
      generalize run m a c = outcome, read m a.store.view c = answer at hfirst ⊢
      cases hfirst with
      | halts halt => exact .halts halt
      | fails hclean => exact .fails hclean
      | faults hfatal => exact .faults hfatal
      | ends stop hplace hclean hview =>
          rw [← hview]
          exact hothers hclean hplace

/-- A choice of steps agrees with a choice of readings, if each step undoes its writes when it
fails: the next one starts with the same map. -/
theorem refines_oneOf {choices : List (Matcher ν)}
    (h : ∀ m ∈ choices, Reads inText (run m) (read m)) :
    Refines inText (Step.oneOf (choices.map run)) (Parse.oneOf (choices.map read)) := by
  induction choices with
  | nil => exact fun a ha c hc => .fails ha
  | cons m ms ih =>
      intro a ha c hc
      obtain ⟨hrefines, hundoes⟩ := h m (List.mem_cons_self ..)
      have hfirst := hrefines ha hc
      have hothers := ih fun m' hmem => h m' (List.mem_cons_of_mem _ hmem)
      rw [List.map_cons, List.map_cons, Step.oneOf, Parse.oneOf]
      dsimp only
      generalize hrun : run m a c = outcome, read m a.store.view c = answer at hfirst ⊢
      cases hfirst with
      | halts halt => exact .halts halt
      | ends stop hplace hclean hview => exact .ends stop hplace hclean hview
      | faults hfatal =>
          dsimp only
          rw [if_pos (Attempt.isFatal_of_fatal hfatal)]
          exact .faults hfatal
      | fails hclean =>
          dsimp only
          rw [if_neg (Attempt.not_isFatal hclean), ← (hundoes hrun).2 rfl]
          exact hothers hclean hc

/-- An optional step agrees with an optional reading. -/
theorem Reads.maybe (h : Reads inText step parse) :
    Refines inText (Step.maybe step) (Parse.maybe parse) := by
  intro a ha c hc
  have hbody := h.refines ha hc
  unfold Step.maybe Parse.maybe
  generalize hrun : step a c = outcome, parse a.store.view c = answer at hbody ⊢
  cases hbody with
  | halts halt => exact .halts halt
  | ends stop hplace hclean hview => exact .ends stop hplace hclean hview
  | faults hfatal =>
      dsimp only
      rw [if_pos (Attempt.isFatal_of_fatal hfatal)]
      exact .faults hfatal
  | fails hclean =>
      dsimp only
      rw [if_neg (Attempt.not_isFatal hclean), ← (h.undoes hrun).2 rfl]
      exact .ends c hc hclean rfl

/-- A step that goes on as often as it can agrees with a reading that does. -/
theorem Reads.more (h : Reads inText step parse) (count : Nat) :
    Refines inText (Step.more step count) (Parse.more parse count) := by
  induction count with
  | zero => exact fun _ _ _ _ => .halts _
  | succ count ih =>
      intro a ha c hc
      have hbody := h.refines ha hc
      unfold Step.more Parse.more
      generalize hrun : step a c = outcome, parse a.store.view c = answer at hbody ⊢
      cases hbody with
      | halts halt => exact .halts halt
      | ends stop hplace hclean hview =>
          dsimp only
          split
          · exact .ends c hc hclean hview
          · rw [← hview]
            exact ih hclean hplace
      | faults hfatal =>
          dsimp only
          rw [if_pos (Attempt.isFatal_of_fatal hfatal)]
          exact .faults hfatal
      | fails hclean =>
          dsimp only
          rw [if_neg (Attempt.not_isFatal hclean), ← (h.undoes hrun).2 rfl]
          exact .ends c hc hclean rfl

/-- A step once or more agrees with a reading once or more. -/
theorem Reads.many (h : Reads inText step parse) (count : Nat) :
    Refines inText (Step.many step count) (Parse.many parse count) := by
  intro a ha c hc
  have hbody := h.refines ha hc
  unfold Step.many Parse.many
  generalize step a c = outcome, parse a.store.view c = answer at hbody ⊢
  cases hbody with
  | halts halt => exact .halts halt
  | fails hclean => exact .fails hclean
  | faults hfatal => exact .faults hfatal
  | ends stop hplace hclean hview =>
      dsimp only
      split
      · exact .fails hclean
      · rw [← hview]
        exact h.more count hclean hplace

/-- A step up to a terminator agrees with a reading up to a terminator, if the terminator undoes its
writes when it fails. -/
theorem Refines.upTo (h : Refines inText step parse) (hterm : Reads inText terminator ending)
    (label : String) (start count : Nat) :
    Refines inText (Step.upTo step terminator label start count)
      (Parse.upTo parse ending count) := by
  induction count with
  | zero => exact fun _ _ _ _ => .halts _
  | succ count ih =>
      intro a ha c hc
      have hends := hterm.refines ha hc
      unfold Step.upTo Parse.upTo
      generalize hrun : terminator a c = outcome, ending a.store.view c = answer at hends ⊢
      cases hends with
      | halts halt => exact .halts halt
      | ends stop hplace hclean hview => exact .ends stop hplace hclean hview
      | faults hfatal =>
          dsimp only
          rw [if_pos (Attempt.isFatal_of_fatal hfatal)]
          exact .faults hfatal
      | @fails b hclean =>
          dsimp only
          rw [if_neg (Attempt.not_isFatal hclean)]
          split
          · exact .fails hclean
          -- the body starts with the map that the terminator was given
          rw [← (hterm.undoes hrun).2 rfl]
          have hbody := h hclean hc
          generalize step b c = outcome', parse b.store.view c = answer' at hbody ⊢
          cases hbody with
          | halts halt => exact .halts halt
          | fails hclean' => exact .fails hclean'
          | faults hfatal => exact .faults hfatal
          | ends stop hplace hclean' hview =>
              dsimp only
              split
              · exact .fails hclean'
              · rw [← hview]
                exact ih hclean' hplace

/-- What a condition changes is seen by the branch that it chooses, with layers and without. -/
theorem Refines.asking (h : Refines inText step parse) (hother : Refines inText otherwise other)
    (test : Condition) :
    Refines inText
      (fun a c =>
        if test.holds a.store.view then step (a.ask test) c else otherwise (a.ask test) c)
      (fun view c =>
        if test.holds view then parse (view.ask test) c else other (view.ask test) c) := by
  intro a ha c hc
  have hbody := h (a := a.ask test) ha hc
  have hotherwise := hother (a := a.ask test) ha hc
  rw [Attempt.view_ask] at hbody hotherwise
  dsimp only
  split
  · exact hbody
  · exact hotherwise

/-- Giving up a match is failing, with layers and without. -/
theorem refines_fails :
    Refines inText (Step.pure fun _ => none) (Parse.pure fun _ => none) :=
  refines_pure fun _ _ => ⟨rfl, nofun⟩

end Combinations

end Step

namespace Matcher

variable {ν : Type} {rules : Rules ν}

/-- Trying a confined matcher agrees with reading a text as the matcher, at places in the text, and
at all places if its patterns and those of the rules take a character wherever they match. -/
theorem refines_step {inText : Prop} {onTest : Condition → Prop} (hrules : rules.Confined)
    (hpatterns : inText ∨ rules.BuiltFrom Pattern.Consumes onTest) (depth : Nat) {m : Matcher ν}
    {layered : Prop} (hm : m.Confined layered)
    (hown : inText ∨ m.BuiltFrom Pattern.Consumes onTest) :
    (m.step rules depth).Refines inText (m.parse rules depth) := by
  induction depth generalizing m layered with
  | zero => exact fun _ _ _ _ => .halts _
  | succ depth ih =>
      have hwrites := writesOnTop_step rules depth
      -- what is tried next where a part fails starts with the map that the part was given
      have hreads : ∀ {m : Matcher ν}, m.Confined False →
          (inText ∨ m.BuiltFrom Pattern.Consumes onTest) →
          (m.step rules depth).Reads inText (m.parse rules depth) :=
        fun hm hown => ⟨ih hm hown, transactional_step hrules depth hm⟩
      unfold step parse
      apply Step.Refines.guarded
      cases m with
      | literal text nonempty => exact Step.refines_literal text
      | pattern p => exact Step.refines_pattern hown
      | sequence parts =>
          have hsequence := Step.refines_sequence fun m (hmem : m ∈ parts) =>
            ih (AllConfined.confined hm hmem) (hown.imp_right (AllBuiltFrom.builtFrom · hmem))
          exact hsequence.staged (Step.writesOnTop_sequence fun m _ => hwrites m)
      | oneOf choices =>
          have honeOf := Step.refines_oneOf fun m (hmem : m ∈ choices) =>
            hreads (AllConfined.confined hm hmem) (hown.imp_right (AllBuiltFrom.builtFrom · hmem))
          exact honeOf.staged (Step.writesOnTop_oneOf fun m _ => hwrites m)
      | maybe body => exact (hreads hm hown).maybe.staged (hwrites body).maybe
      | many body => exact ((hreads hm hown).many depth).staged ((hwrites body).many depth)
      | upTo body terminator =>
          -- the position at which a shortfall is noted does not matter
          apply Step.Refines.staged
          · exact fun a ha c hc => (ih hm.1 (hown.imp_right And.left)).upTo
              (hreads hm.2 (hown.imp_right And.right)) _ _ _ ha hc
          · intro a c found a' hrun
            exact (hwrites body).upTo (hwrites terminator) _ _ _ hrun
      | when test body =>
          have hbody := ih hm.2 (hown.imp_right And.right)
          exact hbody.asking Step.refines_fails test
      | whenElse test body otherwise =>
          have hbodies := hown.imp_right And.right
          have hbody := ih hm.2.1 (hbodies.imp_right And.left)
          exact hbody.asking (ih hm.2.2 (hbodies.imp_right And.right)) test
      | ref name =>
          cases hbody : rules.body name with
          | none =>
              intro a ha c hc
              simp only [hbody]
              exact .halts _
          | some body =>
              simp only [hbody]
              exact ih (hrules name body hbody) (hpatterns.imp_right (· name body hbody))
      | labelled label body => exact ih (m := body) hm hown
      | hooked onEntry onMatch body =>
          have hconfined : body.Confined True := hm
          exact (ih hconfined hown).hooked (hwrites body) onEntry onMatch

/-- Where no cause was reported before, trying a confined matcher with a store and reading the text
with the map that a reader sees of the store come to the same, at all places of the text, and past
its end if no pattern matches without taking a character. The engine matches up to a place, leaving
another map to be seen, just when the reading ends at the place with that map; it fails, leaving the
map as it was, just when the reading fails; it fails with a cause that a hook reported, leaving the
map as it was, just when the reading comes to that fault; and it gives up just when the reading
does. A verdict of the reading stands under every larger bound. -/
theorem step_iff_parse (hrules : rules.Confined) {m : Matcher ν} (hm : m.Confined False)
    {a : Attempt} (ha : a.fatal = none) {c : Cursor}
    (hc : c.past = 0 ∨ rules.BuiltFrom Pattern.Consumes (fun _ => True) ∧
      m.BuiltFrom Pattern.Consumes fun _ => True) (depth : Nat) :
    let outcome := m.step rules depth a c
    let answer := m.parse rules depth a.store.view c
    (∀ stop view, (∃ a', outcome = .ok (some stop, a') ∧ a'.store.view = view) ↔
      answer = .ok (.ends stop view)) ∧
    ((∃ a', outcome = .ok (none, a') ∧ a'.fatal = none ∧ a'.store.view = a.store.view) ↔
      answer = .ok .fails) ∧
    (∀ f, (∃ a', outcome = .ok (none, a') ∧ a'.fatal = some f ∧ a'.store.view = a.store.view) ↔
      answer = .ok (.faults f)) ∧
    (∀ halt, outcome = .error halt ↔ answer = .error halt) ∧
    ∀ verdict, answer = .ok verdict →
      ∀ depth' ≥ depth, m.parse rules depth' a.store.view c = .ok verdict := by
  intro outcome answer
  have hstands : ∀ verdict, answer = .ok verdict →
      ∀ depth' ≥ depth, m.parse rules depth' a.store.view c = .ok verdict :=
    fun verdict hanswer depth' hle => parse_mono hle hanswer
  have hundone : ∀ a', outcome = .ok (none, a') → a'.store.view = a.store.view := by
    intro a' hrun
    rw [(transactional_step hrules depth hm hrun).2 rfl]
  have hrefines : (m.step rules depth).Refines (c.past = 0) (m.parse rules depth) :=
    refines_step hrules (hc.imp_right And.left) depth hm (hc.imp_right And.right)
  have hagrees : Agrees (c.past = 0) outcome answer := hrefines ha id
  clear_value outcome answer
  cases hagrees with
  | halts halt => simp
  | ends stop hplace hclean hview => simpa [hview] using hstands
  | fails hclean => simpa [hclean, hundone _ rfl] using hstands
  | faults hfatal => simpa [hfatal, hundone _ rfl] using hstands

/-- An option writes to the store before it fails, and the condition behind it asks for what was
written. A choice in a layer of its own counts how often its condition is asked. The store hides a
settled value. -/
theorem step_iff_parse_of_option :
    let option : Matcher String :=
      .maybe (.sequence [.hooked [] [(MatchAction.set "seen" (.flag true)).hook] (.literal ['x']),
        .literal ['z']])
    let counts : Condition :=
      { name := "counts", holds := fun view => (view "seen").isNone
        edits := fun view => [.set "asked" (.count (countAt view "asked" + 1))] }
    let m := Matcher.sequence
      [option, .whenElse counts (.literal ['x']) (.literal ['y']), .pattern (.run "y*" (· == 'y'))]
    let rules : Rules String := ⟨fun _ => none, id, 0⟩
    let a : Attempt := { store := ⟨[("seen", .flag true)], [[("seen", none)]]⟩ }
    rules.Confined ∧ m.Confined False ∧ a.fatal = none ∧
      ∃ a', m.step rules 6 a ⟨[], ['x', 'y'], 0⟩ = .ok (some ⟨['y', 'x'], [], 0⟩, a') ∧
        a'.store.view = a.store.view.edit (.set "asked" (.count 1)) := by
  intro option counts m rules a
  have hparse : m.parse rules 6 a.store.view ⟨[], ['x', 'y'], 0⟩ =
      .ok (.ends ⟨['y', 'x'], [], 0⟩ (a.store.view.edit (.set "asked" (.count 1)))) := rfl
  have hrules : rules.Confined := nofun
  have hm : m.Confined False := by simp [m, option, Confined, AllConfined]
  have hclean : a.fatal = none := rfl
  obtain ⟨hends, -⟩ :=
    step_iff_parse hrules hm hclean (c := ⟨[], ['x', 'y'], 0⟩) (.inl rfl) 6
  exact ⟨hrules, hm, hclean, (hends _ _).2 hparse⟩

/-- Two ways in which the engine departs from the reading. A condition that writes, asked with no
layer around it, leaves its write behind where the match fails, so that in a choice it is seen by
the next one. And past the end of the text a pattern that may match nothing leads the engine back to
the end, where the reading fails. -/
theorem not_step_iff_parse :
    let marks : Condition :=
      { name := "marks", holds := fun _ => false, edits := fun _ => [.set "k" (.flag true)] }
    let rules : Rules String := ⟨fun _ => none, id, 0⟩
    let marked : Matcher String := .when marks (.literal ['a'])
    let choice : Matcher String :=
      .oneOf [marked, .when (.has "k" .null false) (.literal ['b'])]
    let letters : Matcher String := .pattern (.run "a*" (· == 'a'))
    (marked.parse rules 2 (fun _ => none) ⟨[], ['b'], 0⟩ = .ok .fails ∧
      marked.step rules 2 {} ⟨[], ['b'], 0⟩ =
        .ok (none, { store := { base := [("k", .flag true)] } })) ∧
    (choice.parse rules 3 (fun _ => none) ⟨[], ['b'], 0⟩ = .ok .fails ∧
      choice.step rules 3 {} ⟨[], ['b'], 0⟩ =
        .ok (some ⟨['b'], [], 0⟩, { store := { base := [("k", .flag true)] } })) ∧
    (letters.parse rules 1 (fun _ => none) ⟨[], [], 1⟩ = .ok .fails ∧
      letters.step rules 1 {} ⟨[], [], 1⟩ = .ok (some ⟨[], [], 0⟩, {})) :=
  ⟨⟨rfl, rfl⟩, ⟨rfl, rfl⟩, rfl, rfl⟩

end Matcher

end Stencil
