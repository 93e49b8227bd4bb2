import Stencil.Formatter
import Stencil.Restoration
import Stencil.Substitution

/-!
# Formatting pages

A page is formatted by a formatter that knows nothing of templates: the constructs are masked, the
formatter works on the masked text, and the constructs are put back into what it returns.
-/

set_option autoImplicit false

namespace Stencil

/-- Why a page cannot be formatted. -/
inductive FormatError where
  /-- It cannot be masked. -/
  | substitution (e : SubstitutionError)
  /-- The formatter refused the masked text. -/
  | formatter (message : String)
  /-- The constructs do not fit what the formatter returned. -/
  | restoration (e : RestorationError)
  deriving DecidableEq, Repr

/-- A formatted page. -/
structure Formatted where
  /-- The page as it was. -/
  source : Text
  /-- The page with its constructs back in place. -/
  output : Text
  /-- The constructs. -/
  ledger : Ledger
  deriving DecidableEq, Repr

/-- Whether formatting changed the page. -/
def Formatted.changed (f : Formatted) : Bool := f.output != f.source

/-- How formatting went. -/
structure FormatReport where
  /-- The texts that the formatter was given. -/
  seen : List Text := []
  /-- What was reported on the way. -/
  log : List LogEntry := []
  /-- The formatted page, or why there is none. -/
  result : Except FormatError Formatted

namespace Formatting

/-- What is reported when a page has been formatted. -/
def logEntry (file : Option String) (f : Formatted) : LogEntry :=
  let name :=
    match file with
    | none => "<string>"
    | some file => if file.isEmpty then "<string>" else file
  { channel := .formatting
    message := "Formatted " ++ name ++ s!": {f.ledger.length} tags, " ++
      (if f.changed then "changed" else "unchanged") }

/-- Format a page, and tell how it went. -/
def report (source : Text) (formatter : Formatter) (settings : Settings) (file : Option String) :
    FormatReport :=
  match Masked.ofSource source settings file with
  | .error e => { result := .error (.substitution e) }
  | .ok masked =>
    let seen := [masked.text]
    let log := [masked.logEntry]
    match formatter masked.text with
    | .error message => { seen, log, result := .error (.formatter message) }
    | .ok text =>
      match Restoration.restore text masked.ledger with
      | .error e => { seen, log, result := .error (.restoration e) }
      | .ok output =>
        let formatted := { source, output, ledger := masked.ledger }
        { seen
          log := log ++ [Restoration.logEntry masked.ledger output, logEntry file formatted]
          result := .ok formatted }

/-- Format a page. -/
def format (source : Text) (formatter : Formatter) (settings : Settings) (file : Option String) :
    Except FormatError Formatted :=
  (report source formatter settings file).result

/-- Whether a page is formatted already. -/
def check (source : Text) (formatter : Formatter) (settings : Settings) (file : Option String) :
    Except FormatError Bool :=
  (format source formatter settings file).map fun f => !f.changed

end Formatting

/-- What is reported when a page has been cut into tokens, or when it is known why it cannot be. -/
def TokenStream.logEntry (s : TokenStream) (source : Text) : Option LogEntry :=
  match s.failure with
  | none =>
    some
      { channel := .lexing
        message := s!"Lexed {s.tokens.length} tokens from {source.length} characters" }
  | some (.error e) =>
    some
      { channel := .lexing
        message := s!"Lexing stopped after {s.tokens.length} tokens: " ++ e.message }
  | some _ => none

end Stencil
