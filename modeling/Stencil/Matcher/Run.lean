import Stencil.Matcher.Description

/-!
# Running matchers

Trying a matcher at a place is a `Step`: from the state of the attempt it finds the end of the
match, or that there is none, and the state afterwards. Each way to build matchers is a way to
combine steps, and `Matcher.step` puts these together for a whole matcher.

A step that has several parts works in a layer of the store of its own, which is kept when the step
matches and dropped when it fails. A choice by a condition has no layer of its own, so what its
condition changes goes to the layer around it. A cause that a hook reports is fatal: from then on
every step fails and changes nothing. Rules may be recursive, so a step carries a bound on its
depth; `Matcher.bound` is large enough for rules that take a character before they come back to
themselves, and leaves ample room for rules that come back without one until the store makes them
stop.
-/

set_option autoImplicit false

namespace Stencil

/-- A cause that a hook reported, and the position of the match that it was reported for. -/
structure Fault where
  /-- What the hook found wrong. -/
  cause : Cause
  /-- Where the match starts. -/
  position : Nat
  deriving DecidableEq, Repr

/-- A terminator that the text ended in front of. -/
structure Shortfall where
  /-- The description of the terminator. -/
  terminator : String
  /-- Where the repetition up to the terminator starts. -/
  position : Nat
  deriving DecidableEq, Repr

/-- The state of an attempt. -/
structure Attempt where
  /-- What the rules remember. -/
  store : Store := {}
  /-- The first cause that a hook reported. -/
  fatal : Option Fault := none
  /-- The last terminator that the text ended in front of. -/
  shortfall : Option Shortfall := none
  deriving Repr

/-- Why a step does not come to an end. -/
inductive Halt where
  /-- The bound on the depth is used up. -/
  | tooDeep
  /-- A rule is referred to but not defined. -/
  | undefinedRule (name : String)
  deriving DecidableEq, Repr

/-- What a step finds: the end of the match, if there is one, and the state afterwards. -/
abbrev Outcome := Except Halt (Option Cursor × Attempt)

/-- Trying something at a place. -/
abbrev Step := Attempt → Cursor → Outcome

namespace Attempt

/-- Whether a hook has reported a cause. -/
def isFatal (a : Attempt) : Bool := a.fatal.isSome

/-- Open a layer of the store. -/
def begin (a : Attempt) : Attempt := { a with store := a.store.begin }

/-- Settle the newest layer: it is kept if there is a match and no hook has reported a cause. -/
def settle (found : Option Cursor) (a : Attempt) : Option Cursor × Attempt :=
  match found, a.fatal with
  | some stop, none => (some stop, { a with store := a.store.commit })
  | _, _ => (none, { a with store := a.store.rollback })

/-- Run hooks on entry, each of which sees the changes of those before it. -/
def enter (hooks : List EntryHook) (a : Attempt) : Attempt :=
  hooks.foldl (fun a hook => { a with store := a.store.edits (hook a.store.view) }) a

/-- Ask a condition, whose changes stand whatever it answers. -/
def ask (test : Condition) (a : Attempt) : Attempt :=
  { a with store := a.store.edits (test.edits a.store.view) }

/-- Run hooks on a match, up to the first that reports a cause. -/
def leave (text : Text) (position : Nat) : List MatchHook → Attempt → Attempt
  | [], a => a
  | hook :: hooks, a =>
    match hook text a.store.view with
    | (edits, none) => leave text position hooks { a with store := a.store.edits edits }
    | (edits, some cause) =>
      { a with
        store := a.store.edits edits
        fatal := a.fatal <|> some ⟨cause, position⟩ }

end Attempt

namespace Step

/-- A step that leaves the state alone. -/
def pure (stop? : Cursor → Option Cursor) : Step := fun a c => .ok (stop? c, a)

/-- A step that does nothing once a hook has reported a cause. -/
def guarded (step : Step) : Step := fun a c => if a.isFatal then .ok (none, a) else step a c

/-- A step in a layer of its own. -/
def staged (step : Step) : Step := fun a c =>
  match step a.begin c with
  | .error halt => .error halt
  | .ok (found, a') => .ok (Attempt.settle found a')

/-- A step with hooks. -/
def hooked (onEntry : List EntryHook) (onMatch : List MatchHook) (step : Step) : Step := fun a c =>
  match step (a.enter onEntry) c with
  | .error halt => .error halt
  | .ok (none, a') => .ok (none, a')
  | .ok (some stop, a') =>
    if a'.isFatal then .ok (none, a')
    else .ok (some stop, a'.leave (c.upTo stop) c.position onMatch)

/-- Steps one behind the other. -/
def sequence : List Step → Step
  | [] => fun a c => .ok (some c, a)
  | step :: steps => fun a c =>
    match step a c with
    | .ok (some stop, a') => sequence steps a' stop
    | failure => failure

/-- The first step that matches. -/
def oneOf : List Step → Step
  | [] => fun a _ => .ok (none, a)
  | step :: steps => fun a c =>
    match step a c with
    | .ok (none, a') => if a'.isFatal then .ok (none, a') else oneOf steps a' c
    | outcome => outcome

/-- A step, or no step at all. -/
def maybe (step : Step) : Step := fun a c =>
  match step a c with
  | .ok (none, a') => if a'.isFatal then .ok (none, a') else .ok (some c, a')
  | outcome => outcome

/-- A step as often as it matches and moves on, at most `count` times. -/
def more (step : Step) : Nat → Step
  | 0 => fun _ _ => .error .tooDeep
  | count + 1 => fun a c =>
    match step a c with
    | .ok (some stop, a') =>
      if stop.position = c.position then .ok (some c, a') else more step count a' stop
    | .ok (none, a') => if a'.isFatal then .ok (none, a') else .ok (some c, a')
    | .error halt => .error halt

/-- A step once, and then as often as it matches and moves on. -/
def many (step : Step) (count : Nat) : Step := fun a c =>
  match step a c with
  | .ok (some stop, a') =>
    if stop.position = c.position then .ok (none, a') else more step count a' stop
  | failure => failure

/-- A step as often as it takes to reach a terminator, at most `count` times. Where the text ends
first, the terminator and the position `start` are noted. -/
def upTo (step terminator : Step) (label : String) (start : Nat) : Nat → Step
  | 0 => fun _ _ => .error .tooDeep
  | count + 1 => fun a c =>
    match terminator a c with
    | .ok (none, a') =>
      if a'.isFatal then .ok (none, a')
      else if c.atEnd then .ok (none, { a' with shortfall := some ⟨label, start⟩ })
      else
        match step a' c with
        | .ok (some stop, a'') =>
          if stop.position = c.position then .ok (none, a'')
          else upTo step terminator label start count a'' stop
        | failure => failure
    | outcome => outcome

end Step

namespace Matcher

variable {ν : Type}

/-- Trying a matcher, with a bound on the depth. -/
def step (rules : Rules ν) : Nat → Matcher ν → Step
  | 0, _ => fun _ _ => .error .tooDeep
  | depth + 1, m =>
    Step.guarded <|
      match m with
      | literal text _ => Step.pure fun c => c.after? text
      | pattern p => Step.pure p.after?
      | sequence parts => Step.staged (Step.sequence (parts.map (step rules depth)))
      | oneOf choices => Step.staged (Step.oneOf (choices.map (step rules depth)))
      | maybe body => Step.staged (Step.maybe (step rules depth body))
      | many body => Step.staged (Step.many (step rules depth body) depth)
      | upTo body terminator =>
        Step.staged fun a c =>
          Step.upTo (step rules depth body) (step rules depth terminator)
            (terminator.description rules.label) c.position depth a c
      | when test body => fun a c =>
        if test.holds a.store.view then step rules depth body (a.ask test) c
        else .ok (none, a.ask test)
      | whenElse test body otherwise => fun a c =>
        if test.holds a.store.view then step rules depth body (a.ask test) c
        else step rules depth otherwise (a.ask test) c
      | ref name =>
        match rules.body name with
        | some body => step rules depth body
        | none => fun _ _ => .error (.undefinedRule (rules.label name))
      | labelled _ body => step rules depth body
      | hooked onEntry onMatch body =>
        Step.staged (Step.hooked onEntry onMatch (step rules depth body))

/-- How much deeper rules may nest when they come back to themselves without taking a character.
Only the store can make them stop then, and no store in use changes this often. -/
def patience : Nat := 1 <<< 21

/-- A depth that is enough for a matcher in front of `length` characters: each of them may be
followed by all the rules there are, and there is room for rules that come back to themselves in
between. -/
def bound (rules : Rules ν) (m : Matcher ν) (length : Nat) : Nat :=
  patience + (length + 2) * (rules.size + m.size + 2)

/-- Trying a matcher. -/
def run (rules : Rules ν) (m : Matcher ν) : Step := fun a c =>
  m.step rules (m.bound rules c.rest.length) a c

/-- Try a matcher at one position of a text after the other, in one attempt. -/
def runAll (rules : Rules ν) (m : Matcher ν) (source : Text) :
    List Nat → Attempt → Except Halt (List (Option Cursor) × Attempt)
  | [], a => .ok ([], a)
  | position :: positions, a => do
    let (found, a) ← m.run rules a (Cursor.ofPosition source position)
    let (founds, a) ← runAll rules m source positions a
    return (found :: founds, a)

/-- The text that a matcher matches at a position, or the fault that a hook reported. -/
def textAt (rules : Rules ν) (m : Matcher ν) (source : Text) (position : Nat) (store : Store) :
    Except Halt (Except Fault (Option Text)) := do
  let start := Cursor.ofPosition source position
  let (found, a) ← m.run rules { store } start
  match a.fatal with
  | some fault => return .error fault
  | none => return .ok (found.map start.upTo)

end Matcher

end Stencil
