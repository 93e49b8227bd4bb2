import Stencil.Ledger
import Stencil.Log
import Stencil.Placeholder.Build
import Stencil.Placeholder.Recognise

/-!
# Restoration

Restoration puts the recorded constructs back: the first placeholder of a text stands for the first
record, and so on. Each placeholder must be of the family of its record, and the number in an
identifier must be that of the record, so a placeholder that was lost or doubled is noticed. A brace
or a comment that the record's own placeholder does not have goes back to the text around it.
-/

set_option autoImplicit false

namespace Stencil

/-- Why a text cannot be restored. -/
inductive RestorationError where
  /-- There are more placeholders than records. -/
  | surplus (count : Nat) (found : Text)
  /-- A placeholder is of another family than its record. -/
  | wrongFamily (number : Nat) (found : Family) (construct : Text) (needed : Family)
  /-- An identifier has the number of another record. -/
  | displaced (found : Text) (number : Nat)
  /-- There are fewer placeholders than records. -/
  | shortage (count found : Nat)
  /-- A record is too short for the placeholder of a start tag. -/
  | underlength (construct : Text)
  /-- A record is of a kind that has no placeholders. -/
  | unclassified (kind : Kind)
  deriving DecidableEq, Repr

/-- Why a text cannot be restored, in words. -/
def RestorationError.message : RestorationError → String
  | surplus count found =>
    s!"Found more placeholders than the {count} recorded tags: " ++
      String.ofList (Text.quoted found)
  | wrongFamily number found construct needed =>
    s!"Placeholder {number} is a " ++ found.name ++ " placeholder but " ++
      String.ofList (Text.quoted construct) ++ " needs a " ++ needed.name ++ " placeholder"
  | displaced found number =>
    "Placeholder " ++ String.ofList (Text.quoted found) ++ s!" found at position {number}"
  | shortage count found => s!"Expected {count} placeholders but found {found}"
  | underlength construct => Placeholder.underlengthMessage construct
  | unclassified kind => kind.name

/-- How far the placeholder of a record reaches in what was found, and what is open afterwards. -/
structure Extent where
  /-- What goes back to the text in front of the placeholder. -/
  before : Text
  /-- What goes back to the text behind it. -/
  after : Text
  /-- For each open custom tag, the innermost first, whether its placeholder opened a block. -/
  braced : List Bool
  deriving DecidableEq, Repr

namespace Restoration

/-- How far an opening reaches, given the placeholder that its record would have: without a brace of
its own it is the comment alone, and a condition on one line has no comment behind it. -/
def openingExtent (f : Found) (expected : Text) (braced : List Bool) : Extent :=
  if !Placeholder.opensBlock expected then ⟨f.lead, [], false :: braced⟩
  else if (Text.firstMatch? (Text.after? "/*".toList) expected).isSome then ⟨[], [], true :: braced⟩
  else ⟨[], f.trail, true :: braced⟩

/-- How far a closing reaches: without a brace of its own it is the comment alone. -/
def closingExtent (f : Found) : List Bool → Extent
  | false :: below => ⟨f.lead, [], below⟩
  | true :: below => ⟨[], [], below⟩
  | [] => ⟨[], [], []⟩

/-- How far the placeholder of a record reaches, if what was found can be that placeholder. -/
def extent (f : Found) (r : Record) (number : Nat) (braced : List Bool) :
    Except RestorationError Extent :=
  match r.kind.family? with
  | none => .error (.unclassified r.kind)
  | some family =>
    if f.family ≠ family then .error (.wrongFamily number f.family r.construct family)
    else
      match family with
      | .comment => .ok ⟨[], [], braced⟩
      | .identifier =>
        match Placeholder.ordinal? f.text with
        | some (_, digits) =>
          if Text.decimalValue digits ≠ number then .error (.displaced f.text number)
          else .ok ⟨[], [], braced⟩
        | none => .ok ⟨[], [], braced⟩
      | .opening =>
        match Placeholder.opening (Layout.of r.construct) with
        | none => .error (.underlength r.construct)
        | some expected => .ok (openingExtent f expected braced)
      | .closing => .ok (closingExtent f braced)

/-- Put the remaining records back into the remaining text. Of `count` records in all, `number` have
been put back before. -/
def restoreFrom (count : Nat) : Ledger → Nat → List Bool → Text → Except RestorationError Text
  | [], _, _, t =>
    match Placeholder.next? t with
    | none => .ok t
    | some (_, f, _) => .error (.surplus count f.text)
  | r :: rs, number, braced, t =>
    match Placeholder.next? t with
    | none => .error (.shortage count number)
    | some (before, f, after) => do
      let e ← extent f r number braced
      let rest ← restoreFrom count rs (number + 1) e.braced (e.after ++ after)
      return before ++ e.before ++ r.construct ++ rest

/-- Put the records of a ledger back into a text. -/
def restore (t : Text) (ledger : Ledger) : Except RestorationError Text :=
  restoreFrom ledger.length ledger 0 [] t

/-- What is reported when a text has been restored. -/
def logEntry (ledger : Ledger) (output : Text) : LogEntry :=
  { channel := .restoration
    message := s!"Restored {ledger.length} tags into {output.length} characters" }

end Restoration

end Stencil
