import Mathlib
import Stencil.Matcher.Run

/-!
# What happens in an attempt

The outcome of an attempt does not show what happened on the way. `Matcher.traced` runs a matcher
and keeps a log besides: which matchers are tried and what they come back with, which hooks run, and
which conditions are asked. There is a `Tracer` for each way to combine steps, and a matcher finds
the same with a log and without (`Matcher.outcome_traced`).

The log misses nothing that the outcome depends on. A `Swap` puts other hooks and conditions into
the place of those of a matcher and its rules, as different as one likes; if they answer what is
asked in the log as before, the matcher finds what it found (`Matcher.tells_traced`). A hook that
ran or a condition that was asked without an event could be replaced by one that answers otherwise.
That the log changes nothing is the case in which nothing is replaced.
-/

set_option autoImplicit false

namespace Stencil

variable {ν : Type}

/-! ## Events -/

/-- Something that happens in an attempt. -/
inductive Event (ν : Type) where
  /-- A matcher is tried at a place. -/
  | tries (m : Matcher ν) (start : Cursor)
  /-- A matcher that was tried at a place comes back with the end of a match, or without one. -/
  | returns (m : Matcher ν) (start : Cursor) (found : Option Cursor)
  /-- A hook runs on entry. -/
  | enters (hook : EntryHook) (view : View)
  /-- A condition is asked. -/
  | asks (test : Condition) (view : View)
  /-- A hook runs on a text that the matcher with the hook matches at a place. -/
  | confirms (hook : MatchHook) (text : Text) (view : View) (start : Cursor)

namespace Event

/-- The fault that an event reports: the cause that a hook on a match answers with, for the place
where the match starts. -/
def fault? : Event ν → Option Fault
  | confirms hook text view start => (hook text view).2.map fun cause => ⟨cause, start.position⟩
  | _ => none

end Event

/-! ## Running with a log -/

/-- What happens, and the outcome. -/
abbrev Logged (ν : Type) := List (Event ν) × Outcome

namespace Logged

/-- Nothing happens. -/
def done (found : Option Cursor) (a : Attempt) : Logged ν := ([], .ok (found, a))

/-- Go on with what was found. -/
def andThen (r : Logged ν) (next : Option Cursor → Attempt → Logged ν) : Logged ν :=
  match r.2 with
  | .ok (found, a) => (r.1 ++ (next found a).1, (next found a).2)
  | .error halt => (r.1, .error halt)

/-- What happens after some events. -/
def behind (r : Logged ν) (events : List (Event ν)) : Logged ν := (events ++ r.1, r.2)

/-- What is found in the end is what is found after what was found first. -/
theorem outcome_andThen (r : Logged ν) (next : Option Cursor → Attempt → Logged ν) :
    (r.andThen next).2 =
      match r.2 with
      | .ok (found, a) => (next found a).2
      | .error halt => .error halt := by
  unfold andThen
  split <;> rfl

/-- Going on twice is going on once with both. -/
theorem andThen_andThen (r : Logged ν) (next next' : Option Cursor → Attempt → Logged ν) :
    (r.andThen next).andThen next' = r.andThen fun found a => (next found a).andThen next' := by
  obtain ⟨events, halt | ⟨found, a⟩⟩ := r
  · rfl
  · simp only [andThen]
    split <;> simp

/-- What happened before stays in front when an attempt goes on. -/
theorem behind_andThen (r : Logged ν) (events : List (Event ν))
    (next : Option Cursor → Attempt → Logged ν) :
    (r.behind events).andThen next = (r.andThen next).behind events := by
  obtain ⟨events', halt | ⟨found, a⟩⟩ := r
  · rfl
  · simp [andThen, behind]

end Logged

namespace Attempt

/-- The hooks on entry that run. -/
def entering : List EntryHook → Attempt → List (Event ν)
  | [], _ => []
  | hook :: hooks, a => .enters hook a.store.view :: entering hooks (a.enter [hook])

/-- The hooks on a match that run, up to the first that reports a cause. -/
def leaving (text : Text) (start : Cursor) : List MatchHook → Attempt → List (Event ν)
  | [], _ => []
  | hook :: hooks, a =>
    .confirms hook text a.store.view start ::
      match hook text a.store.view with
      | (edits, none) => leaving text start hooks { a with store := a.store.edits edits }
      | (_, some _) => []

end Attempt

/-- Trying something at a place, and telling what happens. -/
abbrev Tracer (ν : Type) := Attempt → Cursor → Logged ν

namespace Tracer

/-- What is found, without what happens. -/
def outcome (t : Tracer ν) : Step := fun a c => (t a c).2

/-- `Step.pure` with a log. -/
def pure (stop? : Cursor → Option Cursor) : Tracer ν := fun a c => .done (stop? c) a

/-- `Step.guarded` with a log. -/
def guarded (t : Tracer ν) : Tracer ν := fun a c => if a.isFatal then .done none a else t a c

/-- `Step.staged` with a log. -/
def staged (t : Tracer ν) : Tracer ν := fun a c =>
  (t a.begin c).andThen fun found a' => ([], .ok (Attempt.settle found a'))

/-- `Step.hooked` with a log. -/
def hooked (onEntry : List EntryHook) (onMatch : List MatchHook) (t : Tracer ν) : Tracer ν :=
  fun a c =>
    ((t (a.enter onEntry) c).andThen fun
      | none, a' => .done none a'
      | some stop, a' =>
        if a'.isFatal then .done none a'
        else (.done (some stop) (a'.leave (c.upTo stop) c.position onMatch) : Logged ν).behind
          (a'.leaving (c.upTo stop) c onMatch)).behind (a.entering onEntry)

/-- `Step.sequence` with a log. -/
def sequence : List (Tracer ν) → Tracer ν
  | [] => fun a c => .done (some c) a
  | t :: ts => fun a c =>
    (t a c).andThen fun
      | some stop, a' => sequence ts a' stop
      | none, a' => .done none a'

/-- `Step.oneOf` with a log. -/
def oneOf : List (Tracer ν) → Tracer ν
  | [] => fun a _ => .done none a
  | t :: ts => fun a c =>
    (t a c).andThen fun
      | none, a' => if a'.isFatal then .done none a' else oneOf ts a' c
      | some stop, a' => .done (some stop) a'

/-- `Step.maybe` with a log. -/
def maybe (t : Tracer ν) : Tracer ν := fun a c =>
  (t a c).andThen fun
    | none, a' => if a'.isFatal then .done none a' else .done (some c) a'
    | some stop, a' => .done (some stop) a'

/-- `Step.more` with a log. -/
def more (t : Tracer ν) : Nat → Tracer ν
  | 0 => fun _ _ => ([], .error .tooDeep)
  | count + 1 => fun a c =>
    (t a c).andThen fun
      | some stop, a' =>
        if stop.position = c.position then .done (some c) a' else more t count a' stop
      | none, a' => if a'.isFatal then .done none a' else .done (some c) a'

/-- `Step.many` with a log. -/
def many (t : Tracer ν) (count : Nat) : Tracer ν := fun a c =>
  (t a c).andThen fun
    | some stop, a' => if stop.position = c.position then .done none a' else more t count a' stop
    | none, a' => .done none a'

/-- `Step.upTo` with a log. -/
def upTo (t terminator : Tracer ν) (label : String) (start : Nat) : Nat → Tracer ν
  | 0 => fun _ _ => ([], .error .tooDeep)
  | count + 1 => fun a c =>
    (terminator a c).andThen fun
      | none, a' =>
        if a'.isFatal then .done none a'
        else if c.atEnd then .done none { a' with shortfall := some ⟨label, start⟩ }
        else
          (t a' c).andThen fun
            | some stop, a'' =>
              if stop.position = c.position then .done none a''
              else upTo t terminator label start count a'' stop
            | none, a'' => .done none a''
      | some stop, a' => .done (some stop) a'

/-- One of two, as the answer to a condition says, behind what asking changes. -/
def asking (test : Condition) (t otherwise : Tracer ν) : Tracer ν := fun a c =>
  ((if test.holds a.store.view then t else otherwise) (a.ask test) c).behind
    [.asks test a.store.view]

/-- Trying a matcher, from the first event to the last. -/
def tried (m : Matcher ν) (t : Tracer ν) : Tracer ν := fun a c =>
  ((t a c).andThen fun found a' => ([.returns m c found], .ok (found, a'))).behind [.tries m c]

end Tracer

/-- `Matcher.step` with a log. -/
def Matcher.traced (rules : Rules ν) : Nat → Matcher ν → Tracer ν
  | 0, _ => fun _ _ => ([], .error .tooDeep)
  | depth + 1, m =>
    Tracer.tried m <| Tracer.guarded <|
      match m with
      | literal text _ => Tracer.pure fun c => c.after? text
      | pattern p => Tracer.pure p.after?
      | sequence parts => Tracer.staged (Tracer.sequence (parts.map (traced rules depth)))
      | oneOf choices => Tracer.staged (Tracer.oneOf (choices.map (traced rules depth)))
      | maybe body => Tracer.staged (Tracer.maybe (traced rules depth body))
      | many body => Tracer.staged (Tracer.many (traced rules depth body) depth)
      | upTo body terminator =>
        Tracer.staged fun a c =>
          Tracer.upTo (traced rules depth body) (traced rules depth terminator)
            (terminator.description rules.label) c.position depth a c
      | when test body =>
        Tracer.asking test (traced rules depth body) (Tracer.pure fun _ => none)
      | whenElse test body otherwise =>
        Tracer.asking test (traced rules depth body) (traced rules depth otherwise)
      | ref name =>
        match rules.body name with
        | some body => traced rules depth body
        | none => fun _ _ => ([], .error (.undefinedRule (rules.label name)))
      | labelled _ body => traced rules depth body
      | hooked onEntry onMatch body =>
        Tracer.staged (Tracer.hooked onEntry onMatch (traced rules depth body))

/-! ## Other hooks and conditions -/

/-- Other hooks and conditions in the place of given ones. -/
structure Swap where
  /-- The hook in the place of a hook on entry. -/
  enter : EntryHook → EntryHook
  /-- The hook in the place of a hook on a match. -/
  confirm : MatchHook → MatchHook
  /-- The answer in the place of that of a condition. -/
  holds : Condition → View → Bool
  /-- What asking changes in the place of what asking a condition changes. -/
  edits : Condition → View → List Edit

namespace Swap

/-- Nothing is replaced. -/
def none : Swap := ⟨id, id, Condition.holds, Condition.edits⟩

/-- The condition in the place of a condition, shown in the same way. -/
def ask (σ : Swap) (test : Condition) : Condition :=
  { test with holds := σ.holds test, edits := σ.edits test }

/-- What is asked in an event is answered as before. -/
def Keeps (σ : Swap) : Event ν → Prop
  | .enters hook view => σ.enter hook view = hook view
  | .asks test view => σ.holds test view = test.holds view ∧ σ.edits test view = test.edits view
  | .confirms hook text view _ => σ.confirm hook text view = hook text view
  | .tries _ _ | .returns _ _ _ => True

/-- Where nothing is replaced everything is answered as before. -/
theorem keeps_none (e : Event ν) : none.Keeps e := by
  cases e with
  | asks test view => exact ⟨rfl, rfl⟩
  | tries | returns => trivial
  | enters | confirms => rfl

end Swap

namespace Matcher

mutual

/-- A matcher with other hooks and conditions. -/
def swap (σ : Swap) : Matcher ν → Matcher ν
  | literal text nonempty => literal text nonempty
  | pattern p => pattern p
  | sequence parts => sequence (swaps σ parts)
  | oneOf choices => oneOf (swaps σ choices)
  | maybe body => maybe (body.swap σ)
  | many body => many (body.swap σ)
  | upTo body terminator => upTo (body.swap σ) (terminator.swap σ)
  | when test body => when (σ.ask test) (body.swap σ)
  | whenElse test body otherwise => whenElse (σ.ask test) (body.swap σ) (otherwise.swap σ)
  | ref name => ref name
  | labelled label body => labelled label (body.swap σ)
  | hooked onEntry onMatch body =>
    hooked (onEntry.map σ.enter) (onMatch.map σ.confirm) (body.swap σ)

/-- Matchers with other hooks and conditions. -/
def swaps (σ : Swap) : List (Matcher ν) → List (Matcher ν)
  | [] => []
  | m :: ms => m.swap σ :: swaps σ ms

end

/-- Hooks and conditions are replaced in one matcher after the other. -/
theorem swaps_eq_map (σ : Swap) (ms : List (Matcher ν)) : swaps σ ms = ms.map (swap σ) := by
  induction ms with
  | nil => rfl
  | cons m ms ih => rw [swaps, ih, List.map_cons]

mutual

/-- A matcher with other hooks and conditions is shown in the same way. -/
theorem description_swap (σ : Swap) (name : ν → String) (m : Matcher ν) :
    (m.swap σ).description name = m.description name := by
  match m with
  | literal _ _ | pattern _ | ref _ | labelled _ _ => rfl
  | sequence parts => rw [swap, description, descriptions_swaps, description]
  | oneOf choices => rw [swap, description, descriptions_swaps, description]
  | maybe body => rw [swap, description, description_swap, description]
  | many body => rw [swap, description, description_swap, description]
  | upTo body terminator =>
      rw [swap, description, description_swap, description_swap, description]
  | when test body => rw [swap, description, description_swap, description, Swap.ask]
  | whenElse test body otherwise =>
      rw [swap, description, description_swap, description_swap, description, Swap.ask]
  | hooked onEntry onMatch body => rw [swap, description, description_swap, description]

/-- Matchers with other hooks and conditions are shown in the same way. -/
theorem descriptions_swaps (σ : Swap) (name : ν → String) (ms : List (Matcher ν)) :
    descriptions name (swaps σ ms) = descriptions name ms := by
  match ms with
  | [] => rfl
  | m :: ms => rw [swaps, descriptions, description_swap, descriptions_swaps, descriptions]

end

mutual

/-- A matcher in which nothing is replaced is the same. -/
theorem swap_none (m : Matcher ν) : m.swap .none = m := by
  match m with
  | literal _ _ | pattern _ | ref _ => rfl
  | sequence parts => rw [swap, swaps_none]
  | oneOf choices => rw [swap, swaps_none]
  | maybe body => rw [swap, swap_none]
  | many body => rw [swap, swap_none]
  | upTo body terminator => rw [swap, swap_none, swap_none]
  | when test body => rw [swap, swap_none]; rfl
  | whenElse test body otherwise => rw [swap, swap_none, swap_none]; rfl
  | labelled label body => rw [swap, swap_none]
  | hooked onEntry onMatch body =>
      rw [swap, swap_none, Swap.none, List.map_id, List.map_id]

/-- Matchers in which nothing is replaced are the same. -/
theorem swaps_none (ms : List (Matcher ν)) : swaps .none ms = ms := by
  match ms with
  | [] => rfl
  | m :: ms => rw [swaps, swap_none, swaps_none]

end

end Matcher

/-- Rules with other hooks and conditions. -/
def Rules.swap (σ : Swap) (rules : Rules ν) : Rules ν :=
  { rules with body := fun name => (rules.body name).map (Matcher.swap σ) }

/-- Rules in which nothing is replaced are the same. -/
theorem Rules.swap_none (rules : Rules ν) : rules.swap .none = rules := by
  have hbody : (fun name => (rules.body name).map (Matcher.swap .none)) = rules.body := by
    funext name
    cases rules.body name with
    | none => rfl
    | some body => rw [Option.map_some, Matcher.swap_none]
  rw [Rules.swap, hbody]

/-! ## The log tells all -/

namespace Attempt

variable {σ : Swap}

/-- Other hooks on entry change the same if they answer as before what is asked of those that
run. -/
theorem enter_map (hooks : List EntryHook) (a : Attempt)
    (h : ∀ e ∈ (a.entering hooks : List (Event ν)), σ.Keeps e) :
    a.enter (hooks.map σ.enter) = a.enter hooks := by
  induction hooks generalizing a with
  | nil => rfl
  | cons hook hooks ih =>
      obtain ⟨hfirst, hothers⟩ := List.forall_mem_cons.1 h
      have hfirst : a.enter [σ.enter hook] = a.enter [hook] := by
        simp only [enter, List.foldl_cons, List.foldl_nil]
        rw [hfirst]
      calc a.enter ((hook :: hooks).map σ.enter)
          = (a.enter [σ.enter hook]).enter (hooks.map σ.enter) := rfl
        _ = (a.enter [hook]).enter (hooks.map σ.enter) := by rw [hfirst]
        _ = (a.enter [hook]).enter hooks := ih _ hothers
        _ = a.enter (hook :: hooks) := rfl

/-- Other hooks on a match change and report the same if they answer as before what is asked of
those that run. -/
theorem leave_map (text : Text) (start : Cursor) (hooks : List MatchHook) (a : Attempt)
    (h : ∀ e ∈ (a.leaving text start hooks : List (Event ν)), σ.Keeps e) :
    a.leave text start.position (hooks.map σ.confirm) = a.leave text start.position hooks := by
  induction hooks generalizing a with
  | nil => rfl
  | cons hook hooks ih =>
      obtain ⟨hfirst, hothers⟩ := List.forall_mem_cons.1 h
      have hfirst : σ.confirm hook text a.store.view = hook text a.store.view := hfirst
      simp only [List.map_cons, leave, hfirst]
      rcases hanswer : hook text a.store.view with ⟨edits, _ | cause⟩
      · rw [hanswer] at hothers
        exact ih _ hothers
      · rfl

/-- Another condition changes the same if it answers as before. -/
theorem ask_swap {test : Condition} {a : Attempt}
    (h : σ.edits test a.store.view = test.edits a.store.view) :
    a.ask (σ.ask test) = a.ask test := by
  rw [ask, ask, ← h]
  rfl

end Attempt

namespace Logged

variable {P : Event ν → Prop}

/-- What holds of all that happens holds of what happens first and of what happens then. -/
theorem forall_andThen {r : Logged ν} {next : Option Cursor → Attempt → Logged ν}
    (h : ∀ e ∈ (r.andThen next).1, P e) :
    (∀ e ∈ r.1, P e) ∧
      ∀ found a, r.2 = .ok (found, a) → ∀ e ∈ (next found a).1, P e := by
  obtain ⟨events, halt | ⟨found, a⟩⟩ := r
  · exact ⟨h, nofun⟩
  · obtain ⟨hfirst, hthen⟩ := List.forall_mem_append.1 h
    refine ⟨hfirst, ?_⟩
    rintro found' a' ⟨⟩
    exact hthen

end Logged

namespace Tracer

/-- A log tells all that a step depends on: where what is asked in it is answered as before, the
step finds what is found with the log. -/
def Tells (σ : Swap) (t : Tracer ν) (step : Step) : Prop :=
  ∀ ⦃a c⦄, (∀ e ∈ (t a c).1, σ.Keeps e) → step a c = (t a c).2

variable {σ : Swap} {t terminator otherwise : Tracer ν} {step ending other : Step}

/-- The log of giving up tells all: there is nothing to depend on. -/
theorem tells_halt (halt : Halt) :
    Tells σ (fun _ _ => ([], .error halt) : Tracer ν) fun _ _ => .error halt :=
  fun _ _ _ => rfl

/-- The log of a look at the text tells all: no hook runs and no condition is asked. -/
theorem tells_pure (stop? : Cursor → Option Cursor) :
    Tells σ (pure stop? : Tracer ν) (Step.pure stop?) :=
  fun _ _ _ => rfl

/-- Where the state decides between two ways to go on, a log tells all if both ways do. -/
theorem tells_ite {p : Prop} [Decidable p] {r r' : Logged ν} {o o' : Outcome}
    (h : (∀ e ∈ r.1, σ.Keeps e) → o = r.2) (h' : (∀ e ∈ r'.1, σ.Keeps e) → o' = r'.2)
    (hkeeps : ∀ e ∈ (if p then r else r').1, σ.Keeps e) :
    (if p then o else o') = (if p then r else r').2 := by
  split
  · rename_i hp
    rw [if_pos hp] at hkeeps
    exact h hkeeps
  · rename_i hp
    rw [if_neg hp] at hkeeps
    exact h' hkeeps

/-- Telling that a matcher is tried and done changes nothing of what a log tells. -/
theorem Tells.tried (h : Tells σ t step) (m : Matcher ν) : Tells σ (tried m t) step := by
  intro a c hkeeps
  obtain ⟨-, hkeeps⟩ := List.forall_mem_append.1 hkeeps
  rw [h (Logged.forall_andThen hkeeps).1]
  simp only [Tracer.tried, Logged.behind, Logged.outcome_andThen]
  split <;> simp_all

/-- Behind a guard a log tells all if it does without. -/
theorem Tells.guarded (h : Tells σ t step) : Tells σ (guarded t) (Step.guarded step) := by
  intro a c hkeeps
  exact tells_ite (fun _ => rfl) (fun hkeeps => h hkeeps) hkeeps

/-- In a layer of its own a log tells all if it does without. -/
theorem Tells.staged (h : Tells σ t step) : Tells σ (staged t) (Step.staged step) := by
  intro a c hkeeps
  simp only [Tracer.staged, Step.staged, Logged.outcome_andThen,
    h (Logged.forall_andThen hkeeps).1]
  split <;> simp_all

/-- The log of a step with hooks tells all if that of the step does, since every hook that runs is
in it. -/
theorem Tells.hooked (h : Tells σ t step) (onEntry : List EntryHook) (onMatch : List MatchHook) :
    Tells σ (hooked onEntry onMatch t)
      (Step.hooked (onEntry.map σ.enter) (onMatch.map σ.confirm) step) := by
  intro a c hkeeps
  obtain ⟨hentry, hkeeps⟩ := List.forall_mem_append.1 hkeeps
  obtain ⟨hbody, hthen⟩ := Logged.forall_andThen hkeeps
  simp only [Tracer.hooked, Step.hooked, Logged.behind, Logged.outcome_andThen,
    Attempt.enter_map onEntry a hentry, h hbody]
  rcases hfound : (t (a.enter onEntry) c).2 with halt | ⟨_ | stop, a'⟩
  · rfl
  · rfl
  · refine tells_ite (fun _ => rfl) (fun hleave => ?_) (hthen _ _ hfound)
    obtain ⟨hleave, -⟩ := List.forall_mem_append.1 hleave
    rw [Attempt.leave_map (c.upTo stop) c onMatch a' hleave]
    rfl

/-- The log of a sequence tells all if those of its parts do. -/
theorem tells_sequence {parts : List (Matcher ν)} {run : Matcher ν → Tracer ν}
    {step' : Matcher ν → Step} (h : ∀ m ∈ parts, Tells σ (run m) (step' m)) :
    Tells σ (sequence (parts.map run)) (Step.sequence (parts.map step')) := by
  induction parts with
  | nil => exact fun _ _ _ => rfl
  | cons m ms ih =>
      have hothers := ih fun m' hmem => h m' (List.mem_cons_of_mem _ hmem)
      intro a c hkeeps
      obtain ⟨hfirst, hthen⟩ := Logged.forall_andThen hkeeps
      simp only [List.map_cons, sequence, Step.sequence, Logged.outcome_andThen,
        h m (List.mem_cons_self ..) hfirst]
      rcases hfound : (run m a c).2 with halt | ⟨_ | stop, a'⟩
      · rfl
      · rfl
      · exact hothers (hthen _ _ hfound)

/-- The log of a choice tells all if those of its alternatives do. -/
theorem tells_oneOf {choices : List (Matcher ν)} {run : Matcher ν → Tracer ν}
    {step' : Matcher ν → Step} (h : ∀ m ∈ choices, Tells σ (run m) (step' m)) :
    Tells σ (oneOf (choices.map run)) (Step.oneOf (choices.map step')) := by
  induction choices with
  | nil => exact fun _ _ _ => rfl
  | cons m ms ih =>
      have hothers := ih fun m' hmem => h m' (List.mem_cons_of_mem _ hmem)
      intro a c hkeeps
      obtain ⟨hfirst, hthen⟩ := Logged.forall_andThen hkeeps
      simp only [List.map_cons, oneOf, Step.oneOf, Logged.outcome_andThen,
        h m (List.mem_cons_self ..) hfirst]
      rcases hfound : (run m a c).2 with halt | ⟨_ | stop, a'⟩
      · rfl
      · exact tells_ite (fun _ => rfl) (fun hrest => hothers hrest) (hthen _ _ hfound)
      · rfl

/-- The log of an option tells all if that of its body does. -/
theorem Tells.maybe (h : Tells σ t step) : Tells σ (maybe t) (Step.maybe step) := by
  intro a c hkeeps
  simp only [Tracer.maybe, Step.maybe, Logged.outcome_andThen, h (Logged.forall_andThen hkeeps).1]
  rcases (t a c).2 with halt | ⟨_ | stop, a'⟩
  · rfl
  · dsimp only
    split <;> rfl
  · rfl

/-- The log of the rounds of a repetition tells all if that of the body does. -/
theorem Tells.more (h : Tells σ t step) (count : Nat) :
    Tells σ (more t count) (Step.more step count) := by
  induction count with
  | zero => exact tells_halt .tooDeep
  | succ count ih =>
      intro a c hkeeps
      obtain ⟨hfirst, hthen⟩ := Logged.forall_andThen hkeeps
      simp only [Tracer.more, Step.more, Logged.outcome_andThen, h hfirst]
      rcases hfound : (t a c).2 with halt | ⟨_ | stop, a'⟩
      · rfl
      · dsimp only
        split <;> rfl
      · exact tells_ite (fun _ => rfl) (fun hrest => ih hrest) (hthen _ _ hfound)

/-- The log of a repetition tells all if that of its body does. -/
theorem Tells.many (h : Tells σ t step) (count : Nat) :
    Tells σ (many t count) (Step.many step count) := by
  intro a c hkeeps
  obtain ⟨hfirst, hthen⟩ := Logged.forall_andThen hkeeps
  simp only [Tracer.many, Step.many, Logged.outcome_andThen, h hfirst]
  rcases hfound : (t a c).2 with halt | ⟨_ | stop, a'⟩
  · rfl
  · rfl
  · exact tells_ite (fun _ => rfl) (fun hrest => h.more count hrest) (hthen _ _ hfound)

/-- The log of a repetition up to a terminator tells all if those of its body and the terminator do.
-/
theorem Tells.upTo (h : Tells σ t step) (hending : Tells σ terminator ending) (label : String)
    (start count : Nat) :
    Tells σ (upTo t terminator label start count) (Step.upTo step ending label start count) := by
  induction count with
  | zero => exact tells_halt .tooDeep
  | succ count ih =>
      intro a c hkeeps
      obtain ⟨hfirst, hthen⟩ := Logged.forall_andThen hkeeps
      simp only [Tracer.upTo, Step.upTo, Logged.outcome_andThen, hending hfirst]
      rcases hfound : (terminator a c).2 with halt | ⟨_ | stop, a'⟩
      · rfl
      · refine tells_ite (fun _ => rfl) (fun hmore => ?_) (hthen _ _ hfound)
        refine tells_ite (fun _ => rfl) (fun hround => ?_) hmore
        -- the terminator failed, and the body is tried
        obtain ⟨hbody, hthen'⟩ := Logged.forall_andThen hround
        simp only [Logged.outcome_andThen, h hbody]
        rcases hfound' : (t a' c).2 with halt | ⟨_ | stop, a''⟩
        · rfl
        · rfl
        · exact tells_ite (fun _ => rfl) (fun hrest => ih hrest) (hthen' _ _ hfound')
      · rfl

/-- The log of a choice by a condition tells all if those of its branches do, since the question is
in it. -/
theorem Tells.asking (h : Tells σ t step) (hother : Tells σ otherwise other) (test : Condition) :
    Tells σ (asking test t otherwise) fun a c =>
      if (σ.ask test).holds a.store.view then step (a.ask (σ.ask test)) c
      else other (a.ask (σ.ask test)) c := by
  intro a c hkeeps
  obtain ⟨⟨hholds, hedits⟩, hkeeps⟩ := List.forall_mem_cons.1 hkeeps
  have hanswer : (σ.ask test).holds a.store.view = test.holds a.store.view := hholds
  unfold Tracer.asking
  dsimp only [Logged.behind] at hkeeps ⊢
  rw [hanswer, Attempt.ask_swap hedits]
  split
  · rename_i hyes
    rw [if_pos hyes] at hkeeps
    exact h hkeeps
  · rename_i hno
    rw [if_neg hno] at hkeeps
    exact hother hkeeps

end Tracer

namespace Matcher

/-- The log of trying a matcher tells all that the outcome depends on: with other hooks and
conditions, which answer what is asked in the log as before, the matcher finds the same. -/
theorem tells_traced (σ : Swap) (rules : Rules ν) (depth : Nat) (m : Matcher ν) :
    Tracer.Tells σ (m.traced rules depth) ((m.swap σ).step (rules.swap σ) depth) := by
  induction depth generalizing m with
  | zero => exact Tracer.tells_halt .tooDeep
  | succ depth ih =>
      unfold traced step
      refine Tracer.Tells.tried (Tracer.Tells.guarded ?_) m
      cases m with
      | literal text nonempty => exact Tracer.tells_pure _
      | pattern p => exact Tracer.tells_pure _
      | sequence parts =>
          simp only [swap, swaps_eq_map, List.map_map]
          exact (Tracer.tells_sequence fun m _ => ih m).staged
      | oneOf choices =>
          simp only [swap, swaps_eq_map, List.map_map]
          exact (Tracer.tells_oneOf fun m _ => ih m).staged
      | maybe body => exact (ih body).maybe.staged
      | many body => exact ((ih body).many depth).staged
      | upTo body terminator =>
          -- a shortfall names the terminator, which is shown as before
          simp only [swap, description_swap]
          refine Tracer.Tells.staged fun a c hkeeps => ?_
          exact (ih body).upTo (ih terminator) (terminator.description rules.label) c.position
            depth hkeeps
      | when test body => exact (ih body).asking (Tracer.tells_pure fun _ => none) test
      | whenElse test body otherwise => exact (ih body).asking (ih otherwise) test
      | ref name =>
          simp only [swap, Rules.swap]
          cases rules.body name with
          | none => exact Tracer.tells_halt _
          | some body => exact ih body
      | labelled label body => exact ih body
      | hooked onEntry onMatch body => exact ((ih body).hooked onEntry onMatch).staged

/-- A matcher finds the same with a log and without. -/
theorem outcome_traced (rules : Rules ν) (depth : Nat) (m : Matcher ν) :
    (m.traced rules depth).outcome = m.step rules depth := by
  funext a c
  have htells := tells_traced .none rules depth m fun e (_ : e ∈ (m.traced rules depth a c).1) =>
    Swap.keeps_none e
  rw [swap_none, Rules.swap_none] at htells
  exact htells.symm

end Matcher

end Stencil
