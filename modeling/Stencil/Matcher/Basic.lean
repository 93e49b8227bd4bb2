import Stencil.LexError
import Stencil.Matcher.Pattern
import Stencil.Store.Basic

/-!
# Matchers

A matcher is tried at a place of a text and either ends at a later place or fails. Matchers are
built from fixed texts and patterns by sequence, ordered choice, option, repetition, repetition up
to a terminator, and choice by a condition on the store; they refer to rules by name, so that rules
may be recursive. `ν` is the type of rule names.

A condition may also change the store when it is asked, like a hook.

A matcher may carry hooks, which look at the store and answer with the changes they want. A hook on
entry runs each time the matcher is tried, a hook on a match runs after each match, sees the
matched text, and may report a cause that ends the whole attempt.
-/

set_option autoImplicit false

namespace Stencil

/-- A question about the store. -/
structure Condition where
  /-- How the question is shown in a description. -/
  name : String
  /-- The answer. -/
  holds : View → Bool
  /-- What asking changes in the store. -/
  edits : View → List Edit := fun _ => []

/-- What a matcher does to the store each time it is tried. -/
abbrev EntryHook := View → List Edit

/-- What a matcher does to the store after it has matched a text, and what it finds wrong. -/
abbrev MatchHook := Text → View → List Edit × Option Cause

/-- A way to recognise a part of a text. -/
inductive Matcher (ν : Type) where
  /-- A fixed text, which is not empty. -/
  | literal (text : Text) (nonempty : text ≠ [] := by decide)
  /-- A pattern. -/
  | pattern (p : Pattern)
  /-- All parts, one behind the other. -/
  | sequence (parts : List (Matcher ν))
  /-- The first choice that matches. -/
  | oneOf (choices : List (Matcher ν))
  /-- The body, or nothing. -/
  | maybe (body : Matcher ν)
  /-- The body, once or more. -/
  | many (body : Matcher ν)
  /-- The body, as often as it takes to reach the terminator, and the terminator. -/
  | upTo (body terminator : Matcher ν)
  /-- The body, if a condition holds. -/
  | when (test : Condition) (body : Matcher ν)
  /-- One of two bodies, as a condition says. -/
  | whenElse (test : Condition) (body otherwise : Matcher ν)
  /-- The rule with a name. -/
  | ref (name : ν)
  /-- The body, shown under a label. -/
  | labelled (label : String) (body : Matcher ν)
  /-- The body, with hooks. -/
  | hooked (onEntry : List EntryHook) (onMatch : List MatchHook) (body : Matcher ν)

/-- What rule names stand for. -/
structure Rules (ν : Type) where
  /-- The matcher behind a name. -/
  body : ν → Option (Matcher ν)
  /-- How a name is shown. -/
  label : ν → String
  /-- How large all the matchers are together, which bounds how deep rules nest between two
  characters of the text. -/
  size : Nat

namespace Matcher

variable {ν : Type}

mutual

/-- The number of matchers that a matcher is built from, itself included. -/
def size : Matcher ν → Nat
  | literal _ _ => 1
  | pattern _ => 1
  | sequence parts => sizes parts + 1
  | oneOf choices => sizes choices + 1
  | maybe body => body.size + 1
  | many body => body.size + 1
  | upTo body terminator => body.size + terminator.size + 1
  | when _ body => body.size + 1
  | whenElse _ body otherwise => body.size + otherwise.size + 1
  | ref _ => 1
  | labelled _ body => body.size + 1
  | hooked _ _ body => body.size + 1

/-- The number of matchers that a list of matchers is built from. -/
def sizes : List (Matcher ν) → Nat
  | [] => 0
  | m :: ms => m.size + sizes ms

end

/-- The label of a matcher, if it has one. -/
def label? : Matcher ν → Option String
  | labelled label _ => some label
  | _ => none

/-- A matcher without the labels and hooks around it. -/
def bare : Matcher ν → Matcher ν
  | labelled _ body => body.bare
  | hooked _ _ body => body.bare
  | m => m

/-- The terminator of a repetition up to a terminator. -/
def terminator? (m : Matcher ν) : Option (Matcher ν) :=
  match m.bare with
  | upTo _ terminator => some terminator
  | _ => none

end Matcher

end Stencil
