import Stencil.Matcher.Basic

/-!
# Hooks from actions

Hooks that do one simple thing to one key of the store, and the condition that a key has a value
that counts as yes.
-/

set_option autoImplicit false

namespace Stencil

/-- Whether the value under a key, or a default, counts as yes. -/
def Condition.has (key : String) (default : Value) (anonymous : Bool) : Condition where
  name := if anonymous then "predicate" else "has_" ++ key
  holds view := ((view key).getD default).isTrue

/-- What a hook on entry may do. -/
inductive EntryAction where
  /-- Put a value under a key. -/
  | set (key : String) (value : Value)
  /-- Remove a key. -/
  | delete (key : String)
  /-- Count one more under a key. -/
  | count (key : String)
  deriving Repr

/-- The count under a key, which is zero where nothing counts as yes. -/
def countAt (view : View) (key : String) : Int :=
  match view key with
  | some (.count n) => n
  | some (.flag true) => 1
  | _ => 0

/-- The text under a key, which is empty where there is none. -/
def textAt (view : View) (key : String) : Text :=
  match view key with
  | some (.text t) => t
  | _ => []

/-- The values of the list under a key. -/
def listAt (view : View) (key : String) : List Value :=
  match view key with
  | some value => value.items
  | none => []

/-- The hook on entry that does what an action says. -/
def EntryAction.hook : EntryAction → EntryHook
  | set key value => fun _ => [.set key value]
  | delete key => fun _ => [.delete key]
  | count key => fun view => [.set key (.count (countAt view key + 1))]

/-- What a hook on a match may do. -/
inductive MatchAction where
  /-- Put a value under a key. -/
  | set (key : String) (value : Value)
  /-- Remove a key. -/
  | delete (key : String)
  /-- Put the matched text under a key. -/
  | text (key : String)
  /-- Add the matched text and a semicolon to the text under a key. -/
  | append (key : String)
  /-- Add the matched text to the list under a key, which must not hold it yet. -/
  | unique (key : String)
  /-- Report that something was expected. -/
  | fail (expected : String)
  deriving Repr

/-- The hook on a match that does what an action says. -/
def MatchAction.hook : MatchAction → MatchHook
  | set key value => fun _ _ => ([.set key value], none)
  | delete key => fun _ _ => ([.delete key], none)
  | text key => fun matched _ => ([.set key (.text matched)], none)
  | append key => fun matched view =>
    ([.set key (.text (textAt view key ++ matched ++ [';']))], none)
  | unique key => fun matched view =>
    if (listAt view key).contains (.text matched) then ([], some (.duplicateAttribute matched))
    else ([.set key (.list (listAt view key ++ [.text matched]))], none)
  | fail expected => fun _ _ => ([], some (.mismatch expected))

end Stencil
