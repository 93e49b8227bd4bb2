import Mathlib
import Stencil.Matcher.Run

/-!
# How far a matcher goes

A matcher that is tried at a place of a source ends at a place of the same source that is not
before it, and it takes no character only if it is `Nullable`. A cause that a hook reports on the
way is reported for a place between the start of the attempt and the end of the source.

`Forward` says all of this of an outcome, and `Step.Advances` of all outcomes of a step. Each way to
combine steps keeps it, and `Matcher.advances_step` draws the conclusion for whole matchers, by
induction on the depth.
-/

set_option autoImplicit false

namespace Stencil

/-! ## Places of a source -/

/-- A place of a source, its end included. -/
structure Cursor.Within (source : Text) (c : Cursor) : Prop where
  past_eq : c.past = 0
  /-- What lies in front of the place and what follows it make up the source. -/
  split : c.front.reverse ++ c.rest = source

namespace Cursor

variable {source : Text} {c d : Cursor}

/-- A place of a source does not lie past its end. -/
theorem Within.offset_le (h : c.Within source) : c.offset ≤ source.length := by
  rw [← h.split, List.length_append, List.length_reverse]
  exact Nat.le_add_right _ _

/-- What follows a place of a source is what is left of the source. -/
theorem Within.rest_eq (h : c.Within source) : c.rest = source.drop c.offset := by
  rw [← h.split, Cursor.offset, ← List.length_reverse, List.drop_left]

/-- A place of a source is the one with its position. -/
theorem Within.ofPosition_eq (h : c.Within source) : ofPosition source c.offset = c := by
  have hfront : source.take c.offset = c.front.reverse := by
    rw [← h.split, Cursor.offset, ← List.length_reverse, List.take_left]
  rw [ofPosition, hfront, List.reverse_reverse, ← h.rest_eq, Nat.sub_eq_zero_of_le h.offset_le,
    ← h.past_eq]

/-- A place of a source is told by how many characters lie in front of it. -/
theorem Within.eq_of_offset (h : c.Within source) (h' : d.Within source)
    (hoffset : c.offset = d.offset) : c = d := by
  rw [← h.ofPosition_eq, ← h'.ofPosition_eq, hoffset]

/-- A place of a source has as many characters in front as its position says. -/
theorem offset_ofPosition {position : Nat} (hle : position ≤ source.length) :
    (ofPosition source position).offset = position := by
  rw [offset, ofPosition, List.length_reverse, List.length_take, Nat.min_eq_left hle]

/-- Inside a source a position counts the characters in front. -/
theorem Within.position_eq (h : c.Within source) : c.position = c.offset := by
  simp [position, h.past_eq]

/-- Behind a place of a source stands what is left of its length. -/
theorem Within.length_rest (h : c.Within source) : c.rest.length = source.length - c.offset := by
  rw [h.rest_eq, List.length_drop]

/-- A position up to the length of a source is a place of it. -/
theorem within_ofPosition {position : Nat} (hle : position ≤ source.length) :
    (ofPosition source position).Within source := by
  refine ⟨Nat.sub_eq_zero_of_le hle, ?_⟩
  rw [ofPosition, List.reverse_reverse, List.take_append_drop]

/-- Moving on over characters that follow leads to a place of the source. -/
theorem Within.advance (h : c.Within source) (n : Nat) : (c.advance n).Within source := by
  refine ⟨h.past_eq, ?_⟩
  rw [Cursor.advance, List.reverse_append, List.reverse_reverse, List.append_assoc,
    List.take_append_drop, h.split]

/-- Behind a fixed text that is not empty lies a later place. -/
theorem Within.after? (h : c.Within source) {text : Text} (nonempty : text ≠ [])
    (found : c.after? text = some d) : d.Within source ∧ c.offset < d.offset := by
  obtain ⟨rest, hrest, rfl⟩ := after?_eq_some_iff.1 found
  refine ⟨⟨h.past_eq, ?_⟩, ?_⟩
  · rw [List.reverse_append, List.reverse_reverse, List.append_assoc, ← hrest, h.split]
  · have hpos : 0 < text.length := List.length_pos_iff.2 nonempty
    simp only [offset, List.length_append, List.length_reverse]
    omega

/-- Behind a pattern lies a later place. -/
theorem Within.pattern_after? (h : c.Within source) {p : Pattern} (found : p.after? c = some d) :
    d.Within source ∧ c.offset < d.offset := by
  unfold Pattern.after? at found
  split at found
  · cases found
  · rw [if_pos h.past_eq] at found
    cases found
  · rename_i n hn
    cases found
    rw [offset_advance (p.width_le _ _ _ hn)]
    exact ⟨h.advance _, by omega⟩

end Cursor

/-! ## Outcomes that lead forward -/

/-- What was reported so far is of an expected sort, and points between an offset and the end of the
source. -/
def Attempt.FaultsFrom (source : Text) (reports : Cause → Prop) (offset : Nat) (a : Attempt) :
    Prop :=
  ∀ f, a.fatal = some f →
    offset ≤ f.position ∧ f.position ≤ source.length ∧ reports f.cause

/-- The outcome of trying something at a place: it does not come to an end, or fails, and what was
reported points behind the place, or it ends without a report at a place that is not before the
first, and there only if it may stay. -/
inductive Forward (source : Text) (reports : Cause → Prop) (mayStay : Prop) (c : Cursor) :
    Outcome → Prop
  | halts (halt : Halt) : Forward source reports mayStay c (.error halt)
  | fails {a : Attempt} (hfaults : a.FaultsFrom source reports c.offset) :
      Forward source reports mayStay c (.ok (none, a))
  | stops {d : Cursor} {a : Attempt} (hd : d.Within source) (hle : c.offset ≤ d.offset)
      (hstay : d.offset = c.offset → mayStay) (hclean : a.fatal = none) :
      Forward source reports mayStay c (.ok (some d, a))

section Forward

variable {source : Text} {reports : Cause → Prop} {mayStay : Prop} {a : Attempt} {c d : Cursor}
  {outcome : Outcome}

/-- Where nothing was reported there is nothing to expect of a report. -/
theorem Attempt.faultsFrom_of_clean (ha : a.fatal = none) (offset : Nat) :
    a.FaultsFrom source reports offset := by
  intro f hf
  rw [ha] at hf
  cases hf

/-- An attempt that is not at fault has no fault. -/
theorem Attempt.fatal_of_not_isFatal (h : ¬ a.isFatal = true) : a.fatal = none := by
  simpa [Attempt.isFatal] using h

/-- An attempt without a fault is not at fault. -/
theorem Attempt.not_isFatal (h : a.fatal = none) : ¬ a.isFatal = true := by
  simp [Attempt.isFatal, h]

/-- An outcome that leads forward from a later place leads forward from the place before it. -/
theorem Forward.trans {mayStay' : Prop} (hle : c.offset ≤ d.offset)
    (h : Forward source reports mayStay d outcome)
    (hstay : d.offset = c.offset → mayStay → mayStay') :
    Forward source reports mayStay' c outcome := by
  cases h with
  | halts halt => exact .halts halt
  | fails hfaults =>
      refine .fails fun f hf => ?_
      obtain ⟨hpos, hend, hcause⟩ := hfaults f hf
      exact ⟨by omega, hend, hcause⟩
  | stops hd' hle' hstay' hclean =>
      exact .stops hd' (by omega) (fun heq => hstay (by omega) (hstay' (by omega))) hclean

/-- What leads forward may be allowed to stay more often. -/
theorem Forward.weaken {mayStay' : Prop} (h : Forward source reports mayStay c outcome)
    (imp : mayStay → mayStay') : Forward source reports mayStay' c outcome :=
  h.trans le_rfl fun _ => imp

/-- A settled failure is a failure with the same report. -/
theorem forward_settle_none (h : a.FaultsFrom source reports c.offset) :
    Forward source reports mayStay c (.ok (a.settle none)) :=
  .fails h

/-- A settled match is a match if nothing was reported, and a failure otherwise. -/
theorem forward_settle_some (hd : d.Within source) (hle : c.offset ≤ d.offset)
    (hstay : d.offset = c.offset → mayStay) (hfaults : a.FaultsFrom source reports c.offset) :
    Forward source reports mayStay c (.ok (a.settle (some d))) := by
  unfold Attempt.settle
  cases hfatal : a.fatal with
  | none => exact .stops hd hle hstay rfl
  | some f =>
      refine .fails fun f' hf' => hfaults f' ?_
      rw [hfatal]
      exact hf'

end Forward

/-! ## Steps that lead forward -/

namespace Step

/-- A step that leads forward from all places of a source. -/
def Advances (source : Text) (reports : Cause → Prop) (mayStay : Prop) (step : Step) : Prop :=
  ∀ ⦃a c⦄, c.Within source → a.fatal = none → Forward source reports mayStay c (step a c)

/-- Hooks that report only causes of an expected sort. -/
def ReportOnly (reports : Cause → Prop) (hooks : List MatchHook) : Prop :=
  ∀ hook ∈ hooks, ∀ text view cause, (hook text view).2 = some cause → reports cause

variable {source : Text} {reports : Cause → Prop} {mayStay mayEnd : Prop}
  {step terminator otherwise : Step}

/-- A step that advances may be allowed to stay more often. -/
theorem Advances.weaken (h : Advances source reports mayStay step) (imp : mayStay → mayEnd) :
    Advances source reports mayEnd step :=
  fun _ _ hc ha => (h hc ha).weaken imp

/-- A step that leaves the state alone advances if its answer lies further on. -/
theorem advances_pure {stop? : Cursor → Option Cursor}
    (h : ∀ {c d}, c.Within source → stop? c = some d → d.Within source ∧ c.offset < d.offset) :
    Advances source reports False (Step.pure stop?) := by
  intro a c hc ha
  unfold Step.pure
  cases hstop : stop? c with
  | none => exact .fails (Attempt.faultsFrom_of_clean ha _)
  | some d =>
      obtain ⟨hd, hlt⟩ := h hc hstop
      exact .stops hd (by omega) (by omega) ha

/-- Failing everywhere advances: there is no match that could stay. -/
theorem advances_fails : Advances source reports False (Step.pure fun _ => none) :=
  fun _ _ _ ha => .fails (Attempt.faultsFrom_of_clean ha _)

/-- Where nothing was reported a guard lets a step pass. -/
theorem guarded_of_clean {a : Attempt} (ha : a.fatal = none) (c : Cursor) :
    Step.guarded step a c = step a c := by
  rw [Step.guarded, if_neg (Attempt.not_isFatal ha)]

/-- Once a cause was reported, a guarded step fails and changes nothing. -/
theorem guarded_of_fatal {a : Attempt} {f : Fault} (ha : a.fatal = some f) (c : Cursor) :
    Step.guarded step a c = .ok (none, a) := by
  simp [Step.guarded, Attempt.isFatal, ha]

/-- A guarded step advances as the step does. -/
theorem Advances.guarded (h : Advances source reports mayStay step) :
    Advances source reports mayStay (Step.guarded step) := by
  intro a c hc ha
  unfold Step.guarded
  rw [if_neg (Attempt.not_isFatal ha)]
  exact h hc ha

/-- A step in a layer of its own advances as the step does. -/
theorem Advances.staged (h : Advances source reports mayStay step) :
    Advances source reports mayStay (Step.staged step) := by
  intro a c hc ha
  have hstep := h (a := a.begin) hc ha
  unfold Step.staged
  generalize step a.begin c = outcome at hstep ⊢
  cases hstep with
  | halts halt => exact .halts halt
  | fails hfaults => exact forward_settle_none hfaults
  | stops hd hle hstay hclean =>
      exact forward_settle_some hd hle hstay (Attempt.faultsFrom_of_clean hclean _)

/-- Hooks on entry report nothing. -/
theorem enter_fatal (onEntry : List EntryHook) (a : Attempt) :
    (a.enter onEntry).fatal = a.fatal := by
  induction onEntry generalizing a with
  | nil => rfl
  | cons hook hooks ih =>
      have := ih { a with store := a.store.edits (hook a.store.view) }
      simpa [Attempt.enter] using this

/-- What hooks on a match report is of the expected sort, and for the start of the match. -/
theorem leave_fatal {hooks : List MatchHook} (h : ReportOnly reports hooks) {text : Text}
    {position : Nat} {a : Attempt} {f : Fault} (ha : a.fatal = none)
    (hf : (a.leave text position hooks).fatal = some f) :
    f.position = position ∧ reports f.cause := by
  induction hooks generalizing a with
  | nil =>
      rw [Attempt.leave, ha] at hf
      cases hf
  | cons hook hooks ih =>
      unfold Attempt.leave at hf
      split at hf
      · rename_i edits _
        exact ih (fun hook' hmem => h hook' (List.mem_cons_of_mem _ hmem))
          (a := { a with store := a.store.edits edits }) ha hf
      · rename_i edits cause answer
        have hf' : some ⟨cause, position⟩ = some f := by simpa [ha] using hf
        cases hf'
        exact ⟨rfl, h hook (List.mem_cons_self ..) text a.store.view cause (by rw [answer])⟩

/-- A step with hooks may end with a report, so that it advances only in a layer of its own. -/
theorem Advances.hooked (h : Advances source reports mayStay step) (onEntry : List EntryHook)
    {onMatch : List MatchHook} (hooks : ReportOnly reports onMatch) :
    Advances source reports mayStay (Step.staged (Step.hooked onEntry onMatch step)) := by
  intro a c hc ha
  have hentry : (a.begin.enter onEntry).fatal = none := by
    rw [enter_fatal]
    exact ha
  have hstep := h hc hentry
  unfold Step.staged Step.hooked
  generalize step (a.begin.enter onEntry) c = outcome at hstep ⊢
  cases hstep with
  | halts halt => exact .halts halt
  | fails hfaults => exact forward_settle_none hfaults
  | stops hd hle hstay hclean =>
      dsimp only
      rw [if_neg (Attempt.not_isFatal hclean)]
      refine forward_settle_some hd hle hstay fun f hf => ?_
      obtain ⟨hpos, hcause⟩ := leave_fatal hooks hclean hf
      have hend := hc.offset_le
      rw [hc.position_eq] at hpos
      exact ⟨by omega, by omega, hcause⟩

/-! ## Combinations of steps -/

variable {ν : Type}

/-- Steps one behind the other advance, and stay only if all of them do. -/
theorem advances_sequence {parts : List (Matcher ν)} {run : Matcher ν → Step}
    {stays : Matcher ν → Prop}
    (h : ∀ m ∈ parts, Advances source reports (stays m) (run m)) :
    Advances source reports (∀ m ∈ parts, stays m) (Step.sequence (parts.map run)) := by
  induction parts with
  | nil => exact fun _ _ hc ha => .stops hc le_rfl (fun _ m hm => absurd hm List.not_mem_nil) ha
  | cons m ms ih =>
      intro a c hc ha
      have hfirst := h m (List.mem_cons_self ..) hc ha
      have hothers := ih fun m' hmem => h m' (List.mem_cons_of_mem _ hmem)
      rw [List.map_cons, Step.sequence]
      dsimp only
      generalize run m a c = outcome at hfirst ⊢
      cases hfirst with
      | halts halt => exact .halts halt
      | fails hfaults => exact .fails hfaults
      | stops hd hle hstay hclean =>
          refine (hothers hd hclean).trans hle fun heq hstays m' hmem => ?_
          rcases List.mem_cons.1 hmem with rfl | hmem
          · exact hstay heq
          · exact hstays m' hmem

/-- The first of several steps that matches advances, and stays only if one of them does. -/
theorem advances_oneOf {choices : List (Matcher ν)} {run : Matcher ν → Step}
    {stays : Matcher ν → Prop}
    (h : ∀ m ∈ choices, Advances source reports (stays m) (run m)) :
    Advances source reports (∃ m ∈ choices, stays m) (Step.oneOf (choices.map run)) := by
  induction choices with
  | nil => exact fun _ _ _ ha => .fails (Attempt.faultsFrom_of_clean ha _)
  | cons m ms ih =>
      intro a c hc ha
      have hfirst := h m (List.mem_cons_self ..) hc ha
      have hothers := ih fun m' hmem => h m' (List.mem_cons_of_mem _ hmem)
      rw [List.map_cons, Step.oneOf]
      dsimp only
      generalize run m a c = outcome at hfirst ⊢
      cases hfirst with
      | halts halt => exact .halts halt
      | fails hfaults =>
          dsimp only
          split
          · exact .fails hfaults
          · rename_i hnot
            refine (hothers hc (Attempt.fatal_of_not_isFatal hnot)).weaken ?_
            rintro ⟨m', hmem, hstays⟩
            exact ⟨m', List.mem_cons_of_mem _ hmem, hstays⟩
      | stops hd hle hstay hclean =>
          exact .stops hd hle (fun heq => ⟨m, List.mem_cons_self .., hstay heq⟩) hclean

/-- An option advances or stays. -/
theorem Advances.maybe (h : Advances source reports mayStay step) :
    Advances source reports True (Step.maybe step) := by
  intro a c hc ha
  have hstep := h hc ha
  unfold Step.maybe
  generalize step a c = outcome at hstep ⊢
  cases hstep with
  | halts halt => exact .halts halt
  | fails hfaults =>
      dsimp only
      split
      · exact .fails hfaults
      · rename_i hnot
        exact .stops hc le_rfl (fun _ => trivial) (Attempt.fatal_of_not_isFatal hnot)
  | stops hd hle hstay hclean => exact .stops hd hle (fun _ => trivial) hclean

/-- A step as often as it matches and moves on advances, and may stay. -/
theorem Advances.more (h : Advances source reports mayStay step) (count : Nat) :
    Advances source reports True (Step.more step count) := by
  induction count with
  | zero => exact fun _ _ _ _ => .halts _
  | succ count ih =>
      intro a c hc ha
      have hstep := h hc ha
      unfold Step.more
      generalize step a c = outcome at hstep ⊢
      cases hstep with
      | halts halt => exact .halts halt
      | fails hfaults =>
          dsimp only
          split
          · exact .fails hfaults
          · rename_i hnot
            exact .stops hc le_rfl (fun _ => trivial) (Attempt.fatal_of_not_isFatal hnot)
      | stops hd hle hstay hclean =>
          dsimp only
          split
          · exact .stops hc le_rfl (fun _ => trivial) hclean
          · exact (ih hd hclean).trans hle fun _ _ => trivial

/-- A repetition advances if its body does, since it matches nothing but what takes a character. -/
theorem Advances.many (h : Advances source reports mayStay step) (count : Nat) :
    Advances source reports False (Step.many step count) := by
  intro a c hc ha
  have hstep := h hc ha
  unfold Step.many
  generalize step a c = outcome at hstep ⊢
  cases hstep with
  | halts halt => exact .halts halt
  | fails hfaults => exact .fails hfaults
  | stops hd hle hstay hclean =>
      dsimp only
      split
      · exact .fails (Attempt.faultsFrom_of_clean hclean _)
      · rename_i hne
        rw [hd.position_eq, hc.position_eq] at hne
        exact (h.more count hd hclean).trans hle fun heq _ => hne heq

/-- A repetition up to a terminator advances, and stays only if the terminator does. -/
theorem Advances.upTo (hbody : Advances source reports mayStay step)
    (hterm : Advances source reports mayEnd terminator) (label : String) (start count : Nat) :
    Advances source reports mayEnd (Step.upTo step terminator label start count) := by
  induction count with
  | zero => exact fun _ _ _ _ => .halts _
  | succ count ih =>
      intro a c hc ha
      have hends := hterm hc ha
      unfold Step.upTo
      generalize terminator a c = outcome at hends ⊢
      cases hends with
      | halts halt => exact .halts halt
      | stops hd hle hstay hclean => exact .stops hd hle hstay hclean
      | @fails b hfaults =>
          dsimp only
          split
          · exact .fails hfaults
          rename_i hnot
          split
          · exact .fails hfaults
          have hstep := hbody hc (Attempt.fatal_of_not_isFatal hnot)
          generalize step b c = outcome at hstep ⊢
          cases hstep with
          | halts halt => exact .halts halt
          | fails hfaults' => exact .fails hfaults'
          | stops hd hle hstay hclean =>
              dsimp only
              split
              · exact .fails (Attempt.faultsFrom_of_clean hclean _)
              · rename_i hne
                rw [hd.position_eq, hc.position_eq] at hne
                exact (ih hd hclean).trans hle fun heq _ => absurd heq hne

/-- A choice by a condition advances as the branch does that is chosen. -/
theorem Advances.asking (h : Advances source reports mayStay step)
    (hother : Advances source reports mayEnd otherwise) (test : Condition) :
    Advances source reports (mayStay ∨ mayEnd) fun a c =>
      if test.holds a.store.view then step (a.ask test) c else otherwise (a.ask test) c := by
  intro a c hc ha
  dsimp only
  split
  · exact (h hc (a := a.ask test) ha).weaken .inl
  · exact (hother hc (a := a.ask test) ha).weaken .inr

end Step

/-! ## Whole matchers -/

namespace Matcher

variable {ν : Type}

/-- A matcher that may match without taking a character, as far as the way it is built tells. -/
inductive Nullable (rules : Rules ν) : Matcher ν → Prop where
  | sequence {parts : List (Matcher ν)} (h : ∀ m ∈ parts, Nullable rules m) :
      Nullable rules (sequence parts)
  | oneOf {choices : List (Matcher ν)} {m : Matcher ν} (mem : m ∈ choices)
      (h : Nullable rules m) : Nullable rules (oneOf choices)
  | maybe (body : Matcher ν) : Nullable rules (maybe body)
  | upTo (body : Matcher ν) {terminator : Matcher ν} (h : Nullable rules terminator) :
      Nullable rules (upTo body terminator)
  | when (test : Condition) {body : Matcher ν} (h : Nullable rules body) :
      Nullable rules (when test body)
  | whenElse (test : Condition) {body : Matcher ν} (otherwise : Matcher ν)
      (h : Nullable rules body) : Nullable rules (whenElse test body otherwise)
  | otherwise (test : Condition) (body : Matcher ν) {otherwise : Matcher ν}
      (h : Nullable rules otherwise) : Nullable rules (whenElse test body otherwise)
  | ref {name : ν} {body : Matcher ν} (bound : rules.body name = some body)
      (h : Nullable rules body) : Nullable rules (ref name)
  | labelled (label : String) {body : Matcher ν} (h : Nullable rules body) :
      Nullable rules (labelled label body)
  | hooked (onEntry : List EntryHook) (onMatch : List MatchHook) {body : Matcher ν}
      (h : Nullable rules body) : Nullable rules (hooked onEntry onMatch body)

mutual

/-- The hooks on a match in a matcher, those of the rules that it refers to left out. -/
def matchHooks : Matcher ν → List MatchHook
  | literal _ _ => []
  | pattern _ => []
  | sequence parts => allMatchHooks parts
  | oneOf choices => allMatchHooks choices
  | maybe body => body.matchHooks
  | many body => body.matchHooks
  | upTo body terminator => body.matchHooks ++ terminator.matchHooks
  | when _ body => body.matchHooks
  | whenElse _ body otherwise => body.matchHooks ++ otherwise.matchHooks
  | ref _ => []
  | labelled _ body => body.matchHooks
  | hooked _ onMatch body => onMatch ++ body.matchHooks

/-- The hooks on a match in matchers, those of the rules that they refer to left out. -/
def allMatchHooks : List (Matcher ν) → List MatchHook
  | [] => []
  | m :: ms => m.matchHooks ++ allMatchHooks ms

end

/-- The hooks of a matcher are among those of a list that holds it. -/
theorem matchHooks_subset_allMatchHooks {m : Matcher ν} {ms : List (Matcher ν)} (h : m ∈ ms) :
    m.matchHooks ⊆ allMatchHooks ms := by
  induction ms with
  | nil => cases h
  | cons m' ms ih =>
      rw [allMatchHooks]
      rcases List.mem_cons.1 h with rfl | h
      · exact List.subset_append_left _ _
      · exact List.Subset.trans (ih h) (List.subset_append_right _ _)

/-- A matcher whose hooks report only causes of an expected sort. -/
def ReportsOnly (reports : Cause → Prop) (m : Matcher ν) : Prop :=
  Step.ReportOnly reports m.matchHooks

variable {rules : Rules ν} {source : Text} {reports : Cause → Prop}

/-- A matcher with fewer hooks reports no more. -/
theorem ReportsOnly.of_subset {m m' : Matcher ν} (h : m'.ReportsOnly reports)
    (hsub : m.matchHooks ⊆ m'.matchHooks) : m.ReportsOnly reports :=
  fun hook hmem => h hook (hsub hmem)

/-- Each of several matchers reports what all of them report together. -/
theorem ReportsOnly.of_mem {m : Matcher ν} {ms : List (Matcher ν)}
    (h : Step.ReportOnly reports (allMatchHooks ms)) (hmem : m ∈ ms) : m.ReportsOnly reports :=
  fun hook hhook => h hook (matchHooks_subset_allMatchHooks hmem hhook)

/-- Trying a matcher leads forward in the source, stays only if the matcher is nullable, and reports
only causes of the sort that the hooks of the matcher and of the rules report. -/
theorem advances_step
    (hrules : ∀ name body, rules.body name = some body → body.ReportsOnly reports)
    (depth : Nat) {m : Matcher ν} (hm : m.ReportsOnly reports) :
    (m.step rules depth).Advances source reports (m.Nullable rules) := by
  induction depth generalizing m with
  | zero => exact fun _ _ _ _ => .halts _
  | succ depth ih =>
      unfold step
      apply Step.Advances.guarded
      cases m with
      | literal text nonempty =>
          exact (Step.advances_pure fun hc found => hc.after? nonempty found).weaken False.elim
      | pattern p =>
          exact (Step.advances_pure fun hc found => hc.pattern_after? found).weaken False.elim
      | sequence parts =>
          rw [ReportsOnly, matchHooks] at hm
          have hparts : ∀ m ∈ parts,
              (m.step rules depth).Advances source reports (m.Nullable rules) :=
            fun m hmem => ih (ReportsOnly.of_mem hm hmem)
          exact (Step.advances_sequence hparts).staged.weaken Nullable.sequence
      | oneOf choices =>
          rw [ReportsOnly, matchHooks] at hm
          have hchoices : ∀ m ∈ choices,
              (m.step rules depth).Advances source reports (m.Nullable rules) :=
            fun m hmem => ih (ReportsOnly.of_mem hm hmem)
          refine (Step.advances_oneOf hchoices).staged.weaken ?_
          rintro ⟨m, hmem, h⟩
          exact Nullable.oneOf hmem h
      | maybe body =>
          have hbody := ih (m := body) (hm.of_subset (by simp [matchHooks]))
          exact hbody.maybe.staged.weaken fun _ => Nullable.maybe body
      | many body =>
          have hbody := ih (m := body) (hm.of_subset (by simp [matchHooks]))
          exact (hbody.many depth).staged.weaken False.elim
      | upTo body terminator =>
          have hbody := ih (m := body) (hm.of_subset (by simp [matchHooks]))
          have hterm := ih (m := terminator) (hm.of_subset (by simp [matchHooks]))
          -- the position at which a shortfall is noted does not matter
          have hupTo : Step.Advances source reports (terminator.Nullable rules) fun a c =>
              Step.upTo (step rules depth body) (step rules depth terminator)
                (terminator.description rules.label) c.position depth a c :=
            fun _ _ hc ha => hbody.upTo hterm _ _ _ hc ha
          exact hupTo.staged.weaken (Nullable.upTo body)
      | when test body =>
          have hbody := ih (m := body) (hm.of_subset (by simp [matchHooks]))
          exact (hbody.asking Step.advances_fails test).weaken fun h =>
            Nullable.when test (h.resolve_right id)
      | whenElse test body otherwise =>
          have hbody := ih (m := body) (hm.of_subset (by simp [matchHooks]))
          have hother := ih (m := otherwise) (hm.of_subset (by simp [matchHooks]))
          exact (hbody.asking hother test).weaken fun h =>
            h.elim (Nullable.whenElse test otherwise) (Nullable.otherwise test body)
      | ref name =>
          cases hbody : rules.body name with
          | none =>
              intro a c hc ha
              simp only [hbody]
              exact .halts _
          | some body =>
              simp only [hbody]
              exact (ih (hrules name body hbody)).weaken (Nullable.ref hbody)
      | labelled label body =>
          have hbody := ih (m := body) (hm.of_subset (by simp [matchHooks]))
          exact hbody.weaken (Nullable.labelled label)
      | hooked onEntry onMatch body =>
          have hbody := ih (m := body) (hm.of_subset (by simp [matchHooks]))
          have hooks : Step.ReportOnly reports onMatch := fun hook hmem =>
            hm hook (by rw [matchHooks]; exact List.mem_append_left _ hmem)
          exact (hbody.hooked onEntry hooks).weaken (Nullable.hooked onEntry onMatch)

/-- Trying a matcher leads forward, or fails at once where a cause was reported before. -/
theorem forward_step
    (hrules : ∀ name body, rules.body name = some body → body.ReportsOnly reports)
    (depth : Nat) {m : Matcher ν} (hm : m.ReportsOnly reports) {a : Attempt} {c : Cursor}
    (hc : c.Within source) (ha : a.FaultsFrom source reports c.offset) :
    Forward source reports (m.Nullable rules) c (m.step rules depth a c) := by
  cases hfatal : a.fatal with
  | none => exact advances_step hrules depth hm hc hfatal
  | some f =>
      -- every step with any depth at all is guarded
      cases depth with
      | zero => exact .halts _
      | succ depth =>
          unfold step
          rw [Step.guarded_of_fatal hfatal c]
          exact .fails ha

/-- A matcher matches only where no cause was reported before. -/
theorem fatal_of_step_some {depth : Nat} {m : Matcher ν} {a a' : Attempt} {c stop : Cursor}
    (h : m.step rules depth a c = .ok (some stop, a')) : a.fatal = none := by
  cases hfatal : a.fatal with
  | none => rfl
  | some f =>
      cases depth with
      | zero => cases h
      | succ depth =>
          unfold step at h
          rw [Step.guarded_of_fatal hfatal c] at h
          cases h

/-- A match that starts at a place of a source ends at a place of the source that is not before it,
and at its start only if the matcher is nullable. -/
theorem within_of_step_some {depth : Nat} {m : Matcher ν} {a a' : Attempt} {c stop : Cursor}
    (hc : c.Within source) (h : m.step rules depth a c = .ok (some stop, a')) :
    stop.Within source ∧ c.offset ≤ stop.offset ∧ (stop.offset = c.offset → m.Nullable rules) := by
  -- what the hooks report does not matter here
  have hreports : ∀ m : Matcher ν, m.ReportsOnly fun _ => True := fun _ _ _ _ _ _ _ => trivial
  have hrules : ∀ name body, rules.body name = some body → body.ReportsOnly fun _ => True :=
    fun _ body _ => hreports body
  have hforward := forward_step hrules depth (hreports m) hc
    (Attempt.faultsFrom_of_clean (fatal_of_step_some h) _)
  rw [h] at hforward
  cases hforward with
  | stops hstop hle hstay _ => exact ⟨hstop, hle, hstay⟩

end Matcher

end Stencil
