import Stencil.Location
import Stencil.Text.Quoted

/-!
# Errors of lexing

A lexing error is a cause together with the place where lexing stopped. Hooks of a grammar give a
cause alone; the lexer adds the place, the excerpt of the source that stands there and the file.
-/

set_option autoImplicit false

namespace Stencil

/-- What is wrong with an end tag. -/
inductive EndTagFault where
  /-- The source ends before the tag is closed. -/
  | missing
  /-- The tag closes nothing, since no tag is open. -/
  | unopened
  /-- The tag stands where another one has to be closed first. -/
  | misplaced (expected : Text)
  /-- Any other fault, in the caller's words. -/
  | described (message : String)
  deriving DecidableEq, Repr

/-- Why lexing stopped. -/
inductive Cause where
  /-- A cause in the caller's words. -/
  | general (message : String)
  /-- What was expected does not stand there. -/
  | mismatch (expected : String)
  /-- The source ends in front of a terminator. -/
  | unterminated (terminator : String)
  /-- A tag has an attribute twice. -/
  | duplicateAttribute (name : Text)
  /-- An end tag does not close the innermost open tag. -/
  | endTag (name : Text) (fault : EndTagFault)
  deriving DecidableEq, Repr

/-- A cause in words. -/
def Cause.message : Cause → String
  | general message => message
  | mismatch expected => "Failed to match " ++ expected
  | unterminated terminator => "Unexpected end-of-input trying to match " ++ terminator
  | duplicateAttribute name => "Duplicate attribute " ++ String.ofList (Text.quoted name)
  | endTag name fault =>
    let tag (t : Text) := "</" ++ String.ofList t ++ ">"
    match fault with
    | .missing => "Missing end tag " ++ tag name
    | .unopened => "Unexpected end tag " ++ tag name ++ " with no open tag"
    | .misplaced expected => "Expected end tag " ++ tag expected ++ " but found " ++ tag name
    | .described message => message

/-- A cause, and as much of its place as is known. -/
structure LexError where
  /-- Why lexing stopped. -/
  cause : Cause
  /-- The beginning of what stands at the place. -/
  excerpt : Text := []
  /-- The characters in front of the place. -/
  offset : Option Int := none
  /-- The line of the place. -/
  line : Option Int := none
  /-- The column of the place. -/
  column : Option Int := none
  /-- The file of the source. -/
  file : Option String := none
  deriving DecidableEq, Repr

namespace LexError

/-- A cause at an offset of a source, with an excerpt of at most `count` characters. -/
def located (cause : Cause) (source : Text) (offset : Nat) (file : Option String) (count : Int) :
    LexError :=
  let place := Location.ofOffset source offset
  { cause
    excerpt := Text.excerpt source place.offset count
    offset := some place.offset
    line := some place.line
    column := some place.column
    file }

/-- A text without the colons at its end. -/
def dropColons (t : Text) : Text := (t.reverse.dropWhile (· == ':')).reverse

/-- The place in words: what is known of file, line and column, with a blank behind it. A column
without a line is not shown. -/
def place (e : LexError) : Text :=
  let file :=
    match e.file with
    | none => []
    | some file => if file.isEmpty then [] else file.toList ++ [':']
  let line :=
    match e.line, e.column with
    | none, _ => []
    | some line, none => Text.ofInt line ++ [':']
    | some line, some column => Text.ofInt line ++ ':' :: (Text.ofInt column ++ [':'])
  match file ++ line with
  | [] => []
  | known => dropColons known ++ [' ']

/-- The whole message: the place, the cause, and the excerpt in quotes. -/
def message (e : LexError) : String :=
  String.ofList (e.place ++ e.cause.message.toList ++ " at: ".toList ++
    Text.inDoubleQuotes e.excerpt)

end LexError

end Stencil
