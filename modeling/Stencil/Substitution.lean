import Stencil.Ledger
import Stencil.Log
import Stencil.Placeholder.Build
import Stencil.Token.Stream

/-!
# Masked texts

Substitution cuts a source into tokens and puts a placeholder in the place of each construct. What
comes out is a masked text: a row of segments, one for each token, which are template text as it was
and placeholders with the records of what they stand for. A masked text has the length and the lines
of its source. Template text must not hold sentinels, since those would look like placeholders.
-/

set_option autoImplicit false

namespace Stencil

/-- A piece of a masked text. -/
inductive Segment where
  /-- Template text. -/
  | template (t : Text)
  /-- A placeholder, and what it stands for. -/
  | construct (placeholder : Text) (record : Record)
  deriving DecidableEq, Repr

namespace Segment

/-- What a formatter sees of a segment. -/
def shown : Segment → Text
  | template t => t
  | construct placeholder _ => placeholder

/-- What a segment was in the source. -/
def unmasked : Segment → Text
  | template t => t
  | construct _ record => record.construct

/-- The record of a construct. -/
def record? : Segment → Option Record
  | template _ => none
  | construct _ record => some record

end Segment

/-- A text with placeholders, and what they stand for. -/
structure Masked where
  /-- The pieces of the text in order. -/
  segments : List Segment
  deriving DecidableEq, Repr

namespace Masked

/-- What a formatter sees. -/
def text (m : Masked) : Text := m.segments.flatMap Segment.shown

/-- The constructs in order. -/
def ledger (m : Masked) : Ledger := m.segments.filterMap Segment.record?

/-- The source. -/
def source (m : Masked) : Text := m.segments.flatMap Segment.unmasked

end Masked

/-- Why a source cannot be masked. -/
inductive SubstitutionError where
  /-- It cannot be cut into tokens. -/
  | lexing (failure : LexFailure)
  /-- Its template text holds a sentinel. -/
  | sentinel (place : Location) (file : Option String) (c : Char)
  /-- A construct is too short for a placeholder. -/
  | underlength (construct : Text)
  /-- An end tag has no start tag. -/
  | unopenedEnd
  deriving DecidableEq, Repr

/-- Why a source cannot be masked, in words. -/
def SubstitutionError.message : SubstitutionError → String
  | lexing (.error e) => e.message
  | lexing (.definition e) => e.message
  | lexing (.unknownRule r) => r.label
  | lexing (.halted _) => "A rule does not come to an end"
  | sentinel place file c =>
    String.ofList (place.render file) ++ " Source already contains placeholder text " ++
      String.ofList (Text.quoted [c])
  | underlength construct => Placeholder.underlengthMessage construct
  | unopenedEnd => "An end tag has no start tag"

namespace Masked

/-- The first sentinel of a text, and how many characters stand in front of it. -/
def firstSentinel? (t : Text) : Option (Nat × Char) :=
  match t.dropWhile (!isSentinel ·) with
  | [] => none
  | c :: _ => some ((t.takeWhile (!isSentinel ·)).length, c)

/-- Whether a construct becomes a line comment: it may, the settings allow it, and nothing follows
it on its line. -/
def endsLine (source : Text) (settings : Settings) (t : Token) : Bool :=
  settings.lineComments && t.kind.mayEndLine && Text.endsLine (source.drop t.stop)

/-- The placeholder of a construct with a number. `braced` tells for each open custom tag, the
innermost first, whether its placeholder opened a block; the answer holds it as it is afterwards. -/
def placeholder (source : Text) (settings : Settings) (t : Token) (family : Family) (number : Nat)
    (braced : List Bool) : Except SubstitutionError (Text × List Bool) :=
  let layout := Layout.of t.value
  let made (placeholder? : Option Text) (braced : Text → List Bool) :=
    match placeholder? with
    | some p => .ok (p, braced p)
    | none => .error (.underlength t.value)
  match family with
  | .comment => made (Placeholder.comment layout (endsLine source settings t)) fun _ => braced
  | .identifier =>
    made (Placeholder.identifier layout t.kind.identifierLabel number) fun _ => braced
  | .opening => made (Placeholder.opening layout) fun p => Placeholder.opensBlock p :: braced
  | .closing =>
    match braced with
    | [] => .error .unopenedEnd
    | isBraced :: below => made (Placeholder.closing layout isBraced) fun _ => below

/-- The segments of the tokens of a source, of which `number` constructs have been replaced
before. -/
def segmentsOf (source : Text) (file : Option String) (settings : Settings) :
    List Token → Nat → List Bool → Except SubstitutionError (List Segment)
  | [], _, _ => .ok []
  | t :: ts, number, braced =>
    match t.kind.family? with
    | none =>
      match firstSentinel? t.value with
      | some (n, c) => .error (.sentinel (.ofOffset source (t.offset + n)) file c)
      | none => do
        let segments ← segmentsOf source file settings ts number braced
        return .template t.value :: segments
    | some family => do
      let (p, braced) ← placeholder source settings t family number braced
      let segments ← segmentsOf source file settings ts (number + 1) braced
      return .construct p ⟨t.value, t.kind⟩ :: segments

/-- Mask a source. -/
def ofSource (source : Text) (settings : Settings) (file : Option String) :
    Except SubstitutionError Masked :=
  match (TokenStream.ofSource source settings file none).complete with
  | .error failure => .error (.lexing failure)
  | .ok tokens =>
    match segmentsOf source file settings tokens 0 [] with
    | .error e => .error e
    | .ok segments => .ok { segments }

/-- What is reported when a source has been masked. -/
def logEntry (m : Masked) : LogEntry :=
  { channel := .substitution
    message := s!"Substituted {m.ledger.length} tags in {m.text.length} characters" }

end Masked

end Stencil
