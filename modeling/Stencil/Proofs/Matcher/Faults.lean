import Stencil.Matcher.Hook
import Stencil.Proofs.Matcher.Progress
import Stencil.Proofs.Matcher.Tracing

/-!
# A fault ends an attempt

A cause that a hook reports is fatal. Every way to combine matchers has to hand it on by itself: a
choice must not try the next one, an option must not count as nothing, a repetition must not count
as done, and a terminator that failed must not start another round of the body.

`Logged.Orderly` says what a report leads to. Until the report nothing was reported. It comes from a
hook of the matcher that was tried last and is not done yet. After it, the matchers that are not
done come back with nothing, one after the other, and nothing else happens at all. Each way to
combine matchers keeps this, because a result that is orderly may be followed by anything that is
orderly where nothing was reported, and by nothing where something was (`Logged.Orderly.andThen`).

`Matcher.first_fault_is_final` draws the conclusion for whole matchers, with what the log is good
for: it misses nothing that the outcome depends on (`Matcher.tells_traced`), and no fault gets on
record without a report in it (`Matcher.exists_report`).
-/

set_option autoImplicit false

namespace Stencil

variable {ν : Type}

/-! ## Matchers that are not done -/

/-- Matchers, each with the place where it is tried. -/
abbrev Calls (ν : Type) := List (Matcher ν × Cursor)

namespace Event

/-- The matchers that are not done after an event, the newest first. -/
def onCalls (calls : Calls ν) : Event ν → Calls ν
  | tries m start => (m, start) :: calls
  | returns _ _ _ => calls.tail
  | _ => calls

/-- A hook of the newest of the matchers that are not done runs, for the place where this matcher
was tried. -/
def IsOf (calls : Calls ν) : Event ν → Prop
  | confirms hook _ _ start => ∃ onEntry onMatch body,
      hook ∈ onMatch ∧ calls.head? = some (.hooked onEntry onMatch body, start)
  | _ => False

/-- An event of the newest matcher is one, too, where other matchers are tried around it. -/
theorem IsOf.outside {e : Event ν} {calls : Calls ν} (h : e.IsOf calls) (outer : Calls ν) :
    e.IsOf (calls ++ outer) := by
  cases e with
  | confirms hook text view start =>
      obtain ⟨onEntry, onMatch, body, hmem, hhead⟩ := h
      exact ⟨onEntry, onMatch, body, hmem, by simp [List.head?_append, hhead]⟩
  | tries m start => exact h.elim
  | returns m start found => exact h.elim
  | enters hook view => exact h.elim
  | asks test view => exact h.elim

end Event

/-- The matchers that are not done after some events, the newest first. -/
def pending (events : List (Event ν)) (calls : Calls ν) : Calls ν :=
  events.foldl Event.onCalls calls

/-- Without events the matchers at hand are not done. -/
@[simp] theorem pending_nil (calls : Calls ν) : pending [] calls = calls := rfl

/-- The first event counts before the others. -/
@[simp] theorem pending_cons (e : Event ν) (events : List (Event ν)) (calls : Calls ν) :
    pending (e :: events) calls = pending events (e.onCalls calls) := rfl

/-- Events one after the other count one after the other. -/
@[simp] theorem pending_append (events events' : List (Event ν)) (calls : Calls ν) :
    pending (events ++ events') calls = pending events' (pending events calls) :=
  List.foldl_append

/-- Matchers that are not done come back with nothing, one after the other. -/
def Calls.comeBack (calls : Calls ν) : List (Event ν) :=
  calls.map fun call => .returns call.1 call.2 none

/-- Nothing is reported. -/
def Quiet (events : List (Event ν)) : Prop := ∀ e ∈ events, e.fault? = none

/-- As many matchers are done as are tried. -/
def Closed (events : List (Event ν)) : Prop := ∀ calls, pending events calls = calls

section Quiet

variable {events events' before before' after after' : List (Event ν)} {e e' : Event ν}

/-- Where nothing happens nothing is reported. -/
theorem quiet_nil : Quiet ([] : List (Event ν)) := by simp [Quiet]

/-- Two quiet logs are quiet one behind the other. -/
theorem Quiet.append (h : Quiet events) (h' : Quiet events') : Quiet (events ++ events') :=
  fun e he => (List.mem_append.1 he).elim (h e) (h' e)

/-- An event without a fault is quiet. -/
theorem quiet_singleton (h : e.fault? = none) : Quiet [e] := by simpa [Quiet] using h

/-- Coming back reports nothing. -/
theorem quiet_comeBack (calls : Calls ν) : Quiet calls.comeBack := by
  intro e he
  obtain ⟨call, -, rfl⟩ := List.mem_map.1 he
  rfl

/-- There is one place at most at which the only report of a log can be. -/
theorem eq_of_only_report (hbefore : Quiet before) (hafter : Quiet after)
    (he : e'.fault? ≠ none) (h : before ++ e :: after = before' ++ e' :: after') :
    before = before' ∧ e = e' ∧ after = after' := by
  rcases List.append_eq_append_iff.1 h with ⟨events, rfl, hrest⟩ | ⟨events, rfl, hrest⟩
  · cases events with
    | nil => simpa using hrest
    | cons e₀ events =>
        obtain ⟨rfl, rfl⟩ := List.cons.inj hrest
        exact absurd (hafter e' (by simp)) he
  · cases events with
    | nil => simpa [eq_comm] using hrest
    | cons e₀ events =>
        obtain ⟨rfl, rfl⟩ := List.cons.inj hrest
        exact absurd (hbefore e' (by simp)) he

end Quiet

/-! ## Hooks -/

namespace Attempt

variable {a : Attempt}

/-- Hooks on entry report nothing. -/
theorem quiet_entering (hooks : List EntryHook) (a : Attempt) :
    Quiet (a.entering hooks : List (Event ν)) := by
  induction hooks generalizing a with
  | nil => exact quiet_nil
  | cons hook hooks ih => exact (quiet_singleton rfl).append (ih _)

/-- Hooks on entry try no matchers. -/
theorem closed_entering (hooks : List EntryHook) (a : Attempt) :
    Closed (a.entering hooks : List (Event ν)) := by
  induction hooks generalizing a with
  | nil => exact fun _ => rfl
  | cons hook hooks ih => exact ih _

/-- Hooks on a match try no matchers. -/
theorem closed_leaving (text : Text) (start : Cursor) (hooks : List MatchHook) (a : Attempt) :
    Closed (a.leaving text start hooks : List (Event ν)) := by
  induction hooks generalizing a with
  | nil => exact fun _ => rfl
  | cons hook hooks ih =>
      intro calls
      unfold leaving
      split
      · exact ih _ calls
      · rfl

/-- Either no hook on a match reports anything, or the last hook that runs does, and its cause is
the one that is recorded. -/
theorem leaving_cases (text : Text) (start : Cursor) (hooks : List MatchHook)
    (ha : a.fatal = none) :
    (Quiet (a.leaving text start hooks : List (Event ν)) ∧
      (a.leave text start.position hooks).fatal = none) ∨
    ∃ before hook view cause, (a.leaving text start hooks : List (Event ν)) =
        before ++ [.confirms hook text view start] ∧
      Quiet before ∧ Closed before ∧ hook ∈ hooks ∧ (hook text view).2 = some cause ∧
      (a.leave text start.position hooks).fatal = some ⟨cause, start.position⟩ := by
  induction hooks generalizing a with
  | nil => exact .inl ⟨quiet_nil, ha⟩
  | cons hook hooks ih =>
      rcases hanswer : hook text a.store.view with ⟨edits, _ | cause⟩
      · have hquiet : (Event.confirms hook text a.store.view start : Event ν).fault? = none := by
          simp [Event.fault?, hanswer]
        simp only [leaving, leave, hanswer]
        rcases ih (a := { a with store := a.store.edits edits }) ha with
          ⟨hrest, hfatal⟩ | ⟨before, hook', view, cause, hrest, hbefore, hclosed, hmem, hreport,
            hfatal⟩
        · exact .inl ⟨(quiet_singleton hquiet).append hrest, hfatal⟩
        · refine .inr ⟨_ :: before, hook', view, cause, ?_, (quiet_singleton hquiet).append hbefore,
            hclosed, List.mem_cons_of_mem _ hmem, hreport, hfatal⟩
          rw [hrest, List.cons_append]
      · refine .inr ⟨[], hook, a.store.view, cause, ?_, quiet_nil, fun _ => rfl,
          List.mem_cons_self .., ?_, ?_⟩
        · simp [leaving, hanswer]
        · rw [hanswer]
        · simp [leave, hanswer, ha]

end Attempt

/-! ## Logs that are orderly -/

namespace Logged

/-- Either nothing was reported, and as many matchers are done as were tried if there is an outcome.
Or something was reported once, by a hook of the matcher that was tried last and was not done yet.
Then the fault is recorded, and all that happens is that the matchers that were tried come back with
nothing. The matchers in `outer` were tried before and are not done. -/
inductive Orderly (outer : Calls ν) : Logged ν → Prop
  | halts {events : List (Event ν)} (halt : Halt) (hquiet : Quiet events) :
      Orderly outer (events, .error halt)
  | ends {events : List (Event ν)} {a : Attempt} (found : Option Cursor) (hquiet : Quiet events)
      (hclosed : Closed events) (hclean : a.fatal = none) : Orderly outer (events, .ok (found, a))
  | fails {before : List (Event ν)} {e : Event ν} {fault : Fault} {inner : Calls ν} {a : Attempt}
      (hquiet : Quiet before) (hopen : ∀ calls, pending before calls = inner ++ calls)
      (hreport : e.fault? = some fault) (hof : e.IsOf (inner ++ outer))
      (hfatal : a.fatal = some fault) :
      Orderly outer (before ++ e :: inner.comeBack, .ok (none, a))

variable {outer : Calls ν} {r : Logged ν} {a : Attempt}

/-- Coming to an end without a fault is orderly. -/
theorem orderly_done (found : Option Cursor) (ha : a.fatal = none) :
    Orderly outer (done found a) :=
  .ends found quiet_nil (fun _ => rfl) ha

/-- What is orderly by itself is orderly inside other matchers. -/
theorem Orderly.outside (h : Orderly [] r) (outer : Calls ν) : Orderly outer r := by
  cases h with
  | halts halt hquiet => exact .halts halt hquiet
  | ends found hquiet hclosed hclean => exact .ends found hquiet hclosed hclean
  | fails hquiet hopen hreport hof hfatal =>
      rw [List.append_nil] at hof
      exact .fails hquiet hopen hreport (hof.outside outer) hfatal

/-- What is orderly stays so behind a quiet log that is done with all it tries. -/
theorem Orderly.behind {events : List (Event ν)} (h : Orderly outer r) (hquiet : Quiet events)
    (hclosed : Closed events) : Orderly outer (r.behind events) := by
  cases h with
  | halts halt hquiet' => exact .halts halt (hquiet.append hquiet')
  | ends found hquiet' hclosed' hclean =>
      refine .ends found (hquiet.append hquiet') (fun calls => ?_) hclean
      rw [pending_append, hclosed, hclosed']
  | fails hquiet' hopen hreport hof hfatal =>
      unfold Logged.behind
      rw [← List.append_assoc]
      refine .fails (hquiet.append hquiet') (fun calls => ?_) hreport hof hfatal
      rw [pending_append, hclosed, hopen]

/-- An orderly result may be followed by anything that is orderly where nothing was reported, and
must be followed by nothing where something was. -/
theorem Orderly.andThen {next : Option Cursor → Attempt → Logged ν} (h : Orderly outer r)
    (hclean : ∀ found a, a.fatal = none → Orderly outer (next found a))
    (hfatal : ∀ a, a.isFatal = true → ∃ a', next none a = done none a' ∧ a'.fatal = a.fatal) :
    Orderly outer (r.andThen next) := by
  cases h with
  | halts halt hquiet => exact .halts halt hquiet
  | ends found hquiet hclosed ha => exact (hclean found _ ha).behind hquiet hclosed
  | @fails before e fault inner a hquiet hopen hreport hof ha =>
      obtain ⟨a', hnext, ha'⟩ := hfatal a (by simp [Attempt.isFatal, ha])
      have hr : andThen (before ++ e :: inner.comeBack, .ok (none, a)) next =
          (before ++ e :: inner.comeBack, .ok (none, a')) := by
        simp [Logged.andThen, hnext, done]
      rw [hr]
      exact .fails hquiet hopen hreport hof (ha'.trans ha)

end Logged

namespace Tracer

/-- A tracer that is orderly where nothing was reported before. -/
def Orderly (t : Tracer ν) : Prop := ∀ ⦃a c⦄, a.fatal = none → Logged.Orderly [] (t a c)

variable {t terminator otherwise : Tracer ν} {ts : List (Tracer ν)}

/-- A look at the text is orderly. -/
theorem orderly_pure (stop? : Cursor → Option Cursor) : (pure stop? : Tracer ν).Orderly :=
  fun _ _ ha => Logged.orderly_done _ ha

/-- Giving up is orderly. -/
theorem orderly_halt (halt : Halt) : Orderly (fun _ _ => ([], .error halt) : Tracer ν) :=
  fun _ _ _ => .halts halt quiet_nil

/-- Nothing more happens behind a failure. -/
theorem exists_done_none (a : Attempt) :
    ∃ a', (Logged.done none a : Logged ν) = .done none a' ∧ a'.fatal = a.fatal :=
  ⟨a, rfl, rfl⟩

/-- Nothing more happens behind a failure for which something was reported. -/
theorem exists_done_of_isFatal {a : Attempt} {r : Logged ν} (ha : a.isFatal = true) :
    ∃ a', (if a.isFatal then .done none a else r) = .done none a' ∧ a'.fatal = a.fatal :=
  ⟨a, if_pos ha, rfl⟩

/-- Keeping or dropping a layer is orderly. -/
theorem orderly_settle (outer : Calls ν) (found : Option Cursor) {a : Attempt}
    (ha : a.fatal = none) :
    Logged.Orderly outer ([], .ok (Attempt.settle found a)) := by
  cases found with
  | none => exact Logged.orderly_done none (by exact ha)
  | some stop =>
      have hsettle : a.settle (some stop) = (some stop, { a with store := a.store.commit }) := by
        unfold Attempt.settle
        rw [ha]
      rw [hsettle]
      exact Logged.orderly_done (some stop) ha

/-- A layer around an orderly tracer keeps it orderly. -/
theorem Orderly.staged (h : t.Orderly) : (staged t).Orderly := fun a _ ha =>
  (h (a := a.begin) ha).andThen (fun found _ ha' => orderly_settle [] found ha')
    fun a' _ => ⟨{ a' with store := a'.store.rollback }, rfl, rfl⟩

/-- Between the match and the end of its layer a hook may report something. -/
theorem orderly_confirm {onEntry : List EntryHook} {onMatch : List MatchHook} {body : Matcher ν}
    {a : Attempt} (ha : a.fatal = none) (c stop : Cursor) :
    Logged.Orderly [(.hooked onEntry onMatch body, c)]
      (a.leaving (c.upTo stop) c onMatch,
        .ok ((a.leave (c.upTo stop) c.position onMatch).settle (some stop))) := by
  rcases Attempt.leaving_cases (c.upTo stop) c onMatch ha with
    ⟨hquiet, hclean⟩ | ⟨before, hook, view, cause, hlog, hquiet, hclosed, hmem, hreport, hfatal⟩
  · have h := (orderly_settle [(.hooked onEntry onMatch body, c)] (some stop) hclean).behind hquiet
      (Attempt.closed_leaving (c.upTo stop) c onMatch a)
    simpa [Logged.behind] using h
  · rw [hlog]
    have hsettle : (a.leave (c.upTo stop) c.position onMatch).settle (some stop) =
        (none, { a.leave (c.upTo stop) c.position onMatch with
          store := (a.leave (c.upTo stop) c.position onMatch).store.rollback }) := by
      simp [Attempt.settle, hfatal]
    have hfault : (Event.confirms hook (c.upTo stop) view c : Event ν).fault? =
        some ⟨cause, c.position⟩ := by
      simp [Event.fault?, hreport]
    have hopen : ∀ calls, pending before calls = [] ++ calls := hclosed
    rw [hsettle]
    exact .fails hquiet hopen hfault ⟨onEntry, onMatch, body, hmem, rfl⟩ hfatal

/-- A matcher with hooks is orderly inside itself. -/
theorem Orderly.hooked (h : t.Orderly) (onEntry : List EntryHook) (onMatch : List MatchHook)
    (body : Matcher ν) {a : Attempt} (ha : a.fatal = none) (c : Cursor) :
    Logged.Orderly [(.hooked onEntry onMatch body, c)]
      (Tracer.staged (Tracer.hooked onEntry onMatch t) a c) := by
  have hentry : (a.begin.enter onEntry).fatal = none := by
    rw [Step.enter_fatal]
    exact ha
  unfold Tracer.staged Tracer.hooked
  rw [Logged.behind_andThen, Logged.andThen_andThen]
  refine Logged.Orderly.behind ?_ (Attempt.quiet_entering onEntry _)
    (Attempt.closed_entering onEntry _)
  refine ((h hentry).outside _).andThen (fun found a' ha' => ?_) fun a' _ =>
    ⟨{ a' with store := a'.store.rollback }, rfl, rfl⟩
  cases found with
  | none => exact orderly_settle _ none ha'
  | some stop =>
      simp only [if_neg (Attempt.not_isFatal ha')]
      simpa [Logged.andThen, Logged.behind, Logged.done] using orderly_confirm ha' c stop

/-- A sequence is orderly if its parts are. -/
theorem Orderly.sequence (h : ∀ t ∈ ts, t.Orderly) : (sequence ts).Orderly := by
  induction ts with
  | nil => exact fun _ c ha => Logged.orderly_done (some c) ha
  | cons t ts ih =>
      intro a c ha
      refine (h t (List.mem_cons_self ..) ha).andThen (fun found a' ha' => ?_)
        fun a' _ => exists_done_none a'
      cases found with
      | none => exact Logged.orderly_done none ha'
      | some stop => exact ih (fun t' hmem => h t' (List.mem_cons_of_mem _ hmem)) ha'

/-- A choice is orderly if its alternatives are. -/
theorem Orderly.oneOf (h : ∀ t ∈ ts, t.Orderly) : (oneOf ts).Orderly := by
  induction ts with
  | nil => exact fun _ _ ha => Logged.orderly_done none ha
  | cons t ts ih =>
      intro a c ha
      refine (h t (List.mem_cons_self ..) ha).andThen (fun found a' ha' => ?_)
        fun _ ha' => exists_done_of_isFatal ha'
      cases found with
      | none =>
          simp only [if_neg (Attempt.not_isFatal ha')]
          exact ih (fun t' hmem => h t' (List.mem_cons_of_mem _ hmem)) ha'
      | some stop => exact Logged.orderly_done (some stop) ha'

/-- An option is orderly if its body is. -/
theorem Orderly.maybe (h : t.Orderly) : (maybe t).Orderly := by
  intro a c ha
  refine (h ha).andThen (fun found a' ha' => ?_) fun _ ha' => exists_done_of_isFatal ha'
  cases found with
  | none =>
      simp only [if_neg (Attempt.not_isFatal ha')]
      exact Logged.orderly_done (some c) ha'
  | some stop => exact Logged.orderly_done (some stop) ha'

/-- Rounds of a repetition are orderly if the body is. -/
theorem Orderly.more (h : t.Orderly) (count : Nat) : (more t count).Orderly := by
  induction count with
  | zero => exact orderly_halt .tooDeep
  | succ count ih =>
      intro a c ha
      refine (h ha).andThen (fun found a' ha' => ?_) fun _ ha' => exists_done_of_isFatal ha'
      cases found with
      | none =>
          simp only [if_neg (Attempt.not_isFatal ha')]
          exact Logged.orderly_done (some c) ha'
      | some stop =>
          dsimp only
          split
          · exact Logged.orderly_done (some c) ha'
          · exact ih ha'

/-- A repetition is orderly if its body is. -/
theorem Orderly.many (h : t.Orderly) (count : Nat) : (many t count).Orderly := by
  intro a c ha
  refine (h ha).andThen (fun found a' ha' => ?_) fun a' _ => exists_done_none a'
  cases found with
  | none => exact Logged.orderly_done none ha'
  | some stop =>
      dsimp only
      split
      · exact Logged.orderly_done none ha'
      · exact h.more count ha'

/-- A repetition up to a terminator is orderly if its body and the terminator are. -/
theorem Orderly.upTo (h : t.Orderly) (hterm : terminator.Orderly) (label : String)
    (start count : Nat) : (upTo t terminator label start count).Orderly := by
  induction count with
  | zero => exact orderly_halt .tooDeep
  | succ count ih =>
      intro a c ha
      refine (hterm ha).andThen (fun found a' ha' => ?_) fun _ ha' => exists_done_of_isFatal ha'
      cases found with
      | some stop => exact Logged.orderly_done (some stop) ha'
      | none =>
          simp only [if_neg (Attempt.not_isFatal ha')]
          split
          · exact Logged.orderly_done none ha'
          -- a round of the body
          refine (h ha').andThen (fun found a'' ha'' => ?_) fun a'' _ => exists_done_none a''
          cases found with
          | none => exact Logged.orderly_done none ha''
          | some stop =>
              dsimp only
              split
              · exact Logged.orderly_done none ha''
              · exact ih ha''

/-- A choice by a condition is orderly if both branches are. -/
theorem Orderly.asking (h : t.Orderly) (h' : otherwise.Orderly) (test : Condition) :
    (asking test t otherwise).Orderly := by
  intro a c ha
  refine Logged.Orderly.behind ?_ (quiet_singleton rfl) fun _ => rfl
  split
  · exact h ha
  · exact h' ha

/-- A matcher that is orderly inside itself is orderly: it is the last one to come back. -/
theorem orderly_tried {m : Matcher ν}
    (h : ∀ a c, a.fatal = none → Logged.Orderly [(m, c)] (t a c)) :
    (tried m t).Orderly := by
  intro a c ha
  have hinside := h a c ha
  unfold tried
  generalize t a c = r at hinside
  cases hinside with
  | halts halt hquiet => exact .halts halt ((quiet_singleton rfl).append hquiet)
  | @ends events a' found hquiet hclosed hclean =>
      refine .ends found (((quiet_singleton rfl).append hquiet).append (quiet_singleton rfl))
        (fun calls => ?_) hclean
      change pending (events ++ [.returns m c found]) ((m, c) :: calls) = calls
      rw [pending_append, hclosed]
      rfl
  | @fails before e fault inner a' hquiet hopen hreport hof hfatal =>
      have hlog : [.tries m c] ++ ((before ++ e :: inner.comeBack) ++ [.returns m c none]) =
          (.tries m c :: before) ++ e :: Calls.comeBack (inner ++ [(m, c)]) := by
        simp [Calls.comeBack]
      simp only [Logged.andThen, Logged.behind, hlog]
      refine .fails ((quiet_singleton rfl).append hquiet) (fun calls => ?_) hreport
        (by simpa using hof) hfatal
      simp [Event.onCalls, hopen]

/-- Where nothing was reported a guard lets a tracer pass. -/
theorem guarded_of_clean {a : Attempt} (ha : a.fatal = none) (c : Cursor) :
    guarded t a c = t a c :=
  if_neg (Attempt.not_isFatal ha)

/-- It is enough that a guarded tracer is orderly by itself. -/
theorem Orderly.tried (h : t.Orderly) (m : Matcher ν) : (tried m (guarded t)).Orderly :=
  orderly_tried fun a c ha => by
    rw [guarded_of_clean ha]
    exact (h ha).outside _

end Tracer

/-! ## Whole matchers -/

namespace Matcher

variable {rules : Rules ν} {m : Matcher ν} {a a' : Attempt} {c stop : Cursor} {fault : Fault}

/-- Trying a matcher is orderly, whatever its hooks are. -/
theorem orderly_traced (rules : Rules ν) (depth : Nat) (m : Matcher ν) :
    (m.traced rules depth).Orderly := by
  induction depth generalizing m with
  | zero => exact Tracer.orderly_halt .tooDeep
  | succ depth ih =>
      have hparts (ms : List (Matcher ν)) : ∀ t ∈ ms.map (traced rules depth), t.Orderly := by
        intro t ht
        obtain ⟨m, -, rfl⟩ := List.mem_map.1 ht
        exact ih m
      unfold traced
      cases m with
      | literal text nonempty => exact (Tracer.orderly_pure _).tried _
      | pattern p => exact (Tracer.orderly_pure _).tried _
      | sequence parts => exact (Tracer.Orderly.sequence (hparts parts)).staged.tried _
      | oneOf choices => exact (Tracer.Orderly.oneOf (hparts choices)).staged.tried _
      | maybe body => exact (ih body).maybe.staged.tried _
      | many body => exact ((ih body).many depth).staged.tried _
      | upTo body terminator =>
          refine (Tracer.Orderly.staged fun _ _ ha => ?_).tried _
          exact (ih body).upTo (ih terminator) _ _ _ ha
      | when test body => exact ((ih body).asking (Tracer.orderly_pure _) test).tried _
      | whenElse test body otherwise => exact ((ih body).asking (ih otherwise) test).tried _
      | ref name =>
          refine Tracer.Orderly.tried ?_ _
          dsimp only
          split
          · exact ih _
          · exact Tracer.orderly_halt _
      | labelled label body => exact (ih body).tried _
      | hooked onEntry onMatch body =>
          -- the hooks are those of the matcher itself
          refine Tracer.orderly_tried fun a c ha => ?_
          rw [Tracer.guarded_of_clean ha]
          exact (ih body).hooked onEntry onMatch body ha c

/-- Once a cause was reported, trying a matcher changes nothing. -/
theorem step_of_fatal (rules : Rules ν) (depth : Nat) (m : Matcher ν) (ha : a.fatal = some fault)
    (c : Cursor) : m.step rules (depth + 1) a c = .ok (none, a) := by
  unfold step
  exact Step.guarded_of_fatal ha c

/-- Once a cause was reported, nothing happens between trying a matcher and its coming back. -/
theorem traced_of_fatal (rules : Rules ν) (depth : Nat) (m : Matcher ν) (ha : a.fatal = some fault)
    (c : Cursor) :
    m.traced rules (depth + 1) a c = ([.tries m c, .returns m c none], .ok (none, a)) := by
  unfold traced Tracer.tried Tracer.guarded
  have hfatal : a.isFatal = true := by simp [Attempt.isFatal, ha]
  simp only [if_pos hfatal]
  rfl

/-- A match ends with no cause reported. -/
theorem fatal_of_step (rules : Rules ν) (depth : Nat) (m : Matcher ν)
    (h : m.step rules depth a c = .ok (some stop, a')) : a'.fatal = none := by
  cases depth with
  | zero => cases h
  | succ depth =>
      cases ha : a.fatal with
      | some fault =>
          rw [step_of_fatal rules depth m ha] at h
          cases h
      | none =>
          have horderly := orderly_traced rules (depth + 1) m (c := c) ha
          rw [← outcome_traced, Tracer.outcome] at h
          generalize m.traced rules (depth + 1) a c = r at h horderly
          cases horderly with
          | halts halt hquiet => cases h
          | ends found hquiet hclosed hclean =>
              cases h
              exact hclean
          | fails hquiet hopen hreport hof hfatal => cases h

/-- A report by a hook is recorded with the place where the matcher with the hook was tried. It is
the first one, and the matchers that are not done then, the outermost included, come back with
nothing, with nothing else happening. -/
theorem report_is_final {before after : List (Event ν)} {e : Event ν} (ha : a.fatal = none)
    {depth : Nat} (hlog : (m.traced rules depth a c).1 = before ++ e :: after)
    (hreport : e.fault? = some fault) :
    (∃ a', m.step rules depth a c = .ok (none, a') ∧ a'.fatal = some fault) ∧
    Quiet before ∧ e.IsOf (pending before []) ∧ after = (pending before []).comeBack := by
  have hsome : e.fault? ≠ none := by simp [hreport]
  have horderly := orderly_traced rules depth m (c := c) ha
  rw [← outcome_traced, Tracer.outcome]
  generalize m.traced rules depth a c = r at hlog horderly
  -- a report rules out that the log is quiet
  have hmem : e ∈ r.1 := by simp [hlog]
  cases horderly with
  | halts halt hquiet => exact absurd (hquiet e hmem) hsome
  | ends found hquiet hclosed hclean => exact absurd (hquiet e hmem) hsome
  | fails hquiet hopen hreport' hof hfatal =>
      obtain ⟨rfl, rfl, rfl⟩ := eq_of_only_report hquiet (quiet_comeBack _) hsome hlog
      cases hreport'.symm.trans hreport
      refine ⟨⟨_, rfl, hfatal⟩, hquiet, ?_, ?_⟩
      · rw [hopen]
        exact hof
      · rw [hopen, List.append_nil]

/-- A fault that is newly on record was reported by an event of the log. -/
theorem exists_report {found : Option Cursor} (ha : a.fatal = none) {depth : Nat}
    (h : m.step rules depth a c = .ok (found, a')) (hfatal : a'.fatal = some fault) :
    ∃ before e after, (m.traced rules depth a c).1 = before ++ e :: after ∧
      e.fault? = some fault := by
  have horderly := orderly_traced rules depth m (c := c) ha
  rw [← outcome_traced, Tracer.outcome] at h
  generalize m.traced rules depth a c = r at h horderly
  cases horderly with
  | halts halt hquiet => cases h
  | ends found hquiet hclosed hclean =>
      cases h
      rw [hclean] at hfatal
      cases hfatal
  | @fails before e fault' inner a' hquiet hopen hreport hof hfatal' =>
      cases h
      cases hfatal'.symm.trans hfatal
      exact ⟨before, e, inner.comeBack, rfl, hreport⟩

/-- **The first fault ends an attempt.** A log tells what happens when a matcher is tried, with any
bound on the depth, without changing what is found. The log misses nothing: with other hooks and
conditions, which answer what is asked in the log as before and everything else as they like, the
matcher finds the same, and a fault that is newly on record was reported by an event. Where nothing
was reported before, and a hook on a match reports a cause:

* the matcher comes back with nothing, and the fault that is recorded is the cause with the place
  where the matcher with this hook was tried;
* nothing was reported earlier in the attempt;
* the hook is one of the matcher that was tried last and is not done;
* all that still happens is that the matchers that are not done come back with nothing. No hook runs
  any more, no condition is asked, and no other matcher is tried.

A matcher that comes back with the end of a match leaves no fault behind. And with a fault on
record, trying any matcher changes nothing, runs no hook, and comes back with nothing. -/
theorem first_fault_is_final (rules : Rules ν) (depth : Nat) (m : Matcher ν) (a : Attempt)
    (c : Cursor) :
    (m.traced rules depth a c).2 = m.step rules depth a c ∧
    (∀ σ : Swap, (∀ e ∈ (m.traced rules depth a c).1, σ.Keeps e) →
      (m.swap σ).step (rules.swap σ) depth a c = m.step rules depth a c) ∧
    (∀ found a' fault, a.fatal = none → m.step rules depth a c = .ok (found, a') →
      a'.fatal = some fault →
        ∃ before e after, (m.traced rules depth a c).1 = before ++ e :: after ∧
          e.fault? = some fault) ∧
    (∀ before e after fault, a.fatal = none →
      (m.traced rules depth a c).1 = before ++ e :: after → e.fault? = some fault →
        (∃ a', m.step rules depth a c = .ok (none, a') ∧ a'.fatal = some fault) ∧
        Quiet before ∧ e.IsOf (pending before []) ∧ after = (pending before []).comeBack) ∧
    (∀ stop a', m.step rules depth a c = .ok (some stop, a') → a'.fatal = none) ∧
    ∀ fault, a.fatal = some fault →
      m.traced rules (depth + 1) a c = ([.tries m c, .returns m c none], .ok (none, a)) ∧
      m.run rules a c = .ok (none, a) := by
  refine ⟨?_, fun σ hkeeps => ?_, fun _ _ _ ha h hfatal => exists_report ha h hfatal,
    fun _ _ _ _ ha hlog hreport => report_is_final ha hlog hreport,
    fun _ _ h => fatal_of_step rules depth m h,
    fun _ ha => ⟨traced_of_fatal rules depth m ha c, ?_⟩⟩
  · rw [← outcome_traced, Tracer.outcome]
  · rw [tells_traced σ rules depth m hkeeps, ← outcome_traced, Tracer.outcome]
  · have hbound : m.bound rules c.rest.length ≠ 0 := by
      simp [bound, patience]
    obtain ⟨depth', hdepth⟩ := Nat.exists_eq_succ_of_ne_zero hbound
    unfold run
    rw [hdepth]
    exact step_of_fatal rules depth' m ha c

/-- A sequence around a choice, whose first alternative matches and is rejected by its hook. -/
def rejecting : Matcher Unit :=
  .sequence [.literal ['x'],
    .oneOf [.hooked [] [MatchAction.hook (.fail "b")] (.literal ['a']), .literal ['a'],
      .literal ['b']]]

/-- No rules. -/
def noRules : Rules Unit where
  body _ := none
  label _ := ""
  size := 0

/-- In front of `xa` the choice does not come to its second alternative; in front of `xb` no hook
runs. -/
theorem first_fault_is_final_in_choice :
    (∃ a', rejecting.step noRules 4 {} (.ofPosition ['x', 'a'] 0) = .ok (none, a') ∧
      a'.fatal = some ⟨.mismatch "b", 1⟩) ∧
    (∃ stop a', rejecting.step noRules 4 {} (.ofPosition ['x', 'b'] 0) = .ok (some stop, a') ∧
      stop.position = 2 ∧ a'.fatal = none) ∧
    rejecting.run noRules { fatal := some ⟨.mismatch "b", 1⟩ } (.ofPosition ['x', 'a'] 0) =
      .ok (none, { fatal := some ⟨.mismatch "b", 1⟩ }) := by
  refine ⟨?_, ?_, ?_⟩
  · -- seven events, the report, and three matchers that come back
    have hlog {log : List (Event Unit)} (h : 7 < log.length) :
        log = log.take 7 ++ log[7] :: log.drop 8 := by
      rw [List.getElem_cons_drop, List.take_append_drop]
    have hlength : 7 < (rejecting.traced noRules 4 {} (.ofPosition ['x', 'a'] 0)).1.length := by
      decide +kernel
    have hreport : (rejecting.traced noRules 4 {} (.ofPosition ['x', 'a'] 0)).1[7].fault? =
        some ⟨.mismatch "b", 1⟩ := by
      decide +kernel +revert
    obtain ⟨-, -, -, hreports, -⟩ := first_fault_is_final noRules 4 rejecting {} _
    exact (hreports _ _ _ _ rfl (hlog hlength) hreport).1
  · have hstep : ∃ stop a', rejecting.step noRules 4 {} (.ofPosition ['x', 'b'] 0) =
        .ok (some stop, a') ∧ stop.position = 2 := ⟨_, _, rfl, rfl⟩
    obtain ⟨stop, a', hstep, hposition⟩ := hstep
    obtain ⟨-, -, -, -, hmatches, -⟩ := first_fault_is_final noRules 4 rejecting {} _
    exact ⟨stop, a', hstep, hposition, hmatches stop a' hstep⟩
  · obtain ⟨-, -, -, -, -, hfatal⟩ :=
      first_fault_is_final noRules 4 rejecting { fatal := some ⟨.mismatch "b", 1⟩ } _
    exact (hfatal _ rfl).2

end Matcher

end Stencil
