import Stencil.Jsp.Lexicon
import Stencil.Settings

/-!
# The tokens of a page

A page is cut into tokens from left to right. At each place the constructs are tried in a fixed
order, first by their delimiters; a construct that starts must also end, and nothing else is tried
in its place. Then come the end tag of the innermost open custom tag, other end tags, which are out
of place, and start tags. Whatever is left is template text. Custom tags nest, so the page may only
end when all of them are closed.

`TokenStream.ofSource` is the whole cut: the tokens in order, and why it stopped early if it did.
-/

set_option autoImplicit false

namespace Stencil

open Jsp (Construct Lexicon Production Rule)

/-- Why a page cannot be cut into tokens. -/
inductive LexFailure where
  /-- The page is at fault. -/
  | error (e : LexError)
  /-- A rule is missing from the lexicon. -/
  | unknownRule (r : Rule)
  /-- A rule cannot be made. -/
  | definition (e : DefinitionError)
  /-- A rule does not come to an end. -/
  | halted (h : Halt)
  deriving DecidableEq, Repr

/-- A custom tag that waits for its end tag. -/
structure OpenTag where
  /-- The qualified name of the tag. -/
  name : Text
  /-- The matcher of its end tag. -/
  closer : Production
  /-- Where the start tag starts. -/
  offset : Nat

/-- A page, and what stays the same while it is cut. -/
structure Page where
  /-- The whole text. -/
  source : Text
  /-- The number of its characters. -/
  length : Nat
  /-- The name of its file, for messages. -/
  file : Option String
  /-- The characters that an error quotes. -/
  excerptLength : Int
  /-- The rules that are looked up by name. -/
  lexicon : Lexicon
  /-- The constructs that are told by their delimiters. -/
  constructs : List (Construct Production)

/-- How far a page is cut. -/
structure Progress where
  /-- The characters in front of the place, the nearest first. -/
  front : Text
  /-- The characters behind it. -/
  rest : Text
  /-- What the grammar remembers. -/
  store : Store
  /-- The first cause that a hook reported, after which nothing matches any more. -/
  fatal : Option Fault := none
  /-- The custom tags that are open, the innermost first. -/
  openTags : List OpenTag := []

/-- How many characters are cut. -/
def Progress.offset (s : Progress) : Nat := s.front.length

/-- Where the next token starts. -/
def Progress.place (s : Progress) : Cursor := { front := s.front, rest := s.rest }

/-- The place that cutting has come to has its offset. -/
@[simp] theorem Progress.offset_place (s : Progress) : s.place.offset = s.offset := rfl

/-- Behind the place that cutting has come to stands what is left. -/
@[simp] theorem Progress.rest_place (s : Progress) : s.place.rest = s.rest := rfl

/-- A token that stands at a place. -/
structure Sighting where
  /-- The kind of the token. -/
  kind : Kind
  /-- The place behind it. -/
  stop : Cursor
  /-- The state afterwards. -/
  attempt : Attempt
  /-- The custom tags that are open afterwards. -/
  openTags : List OpenTag

/-- What one of several tries at a place finds. -/
inductive Try where
  /-- Nothing of this sort stands here; the state afterwards. -/
  | miss (a : Attempt)
  /-- A token. -/
  | hit (s : Sighting)

namespace Page

/-- The rule with a name in a lexicon. -/
def find (lexicon : Lexicon) (r : Rule) : Except LexFailure Production :=
  match lexicon r with
  | some m => .ok m
  | none => .error (.unknownRule r)

/-- Look up the delimiters and rules of constructs, in order. -/
def resolve (lexicon : Lexicon) :
    List (Construct Rule) → Except LexFailure (List (Construct Production))
  | [] => .ok []
  | entry :: entries => do
    let delimiter ← find lexicon entry.delimiter
    let whole ← find lexicon entry.whole
    return ⟨entry.kind, delimiter, whole⟩ :: (← resolve lexicon entries)

/-- A page under a lexicon, which must know all constructs. -/
def ofSource (source : Text) (file : Option String) (excerptLength : Int) (lexicon : Lexicon) :
    Except LexFailure Page := do
  return ⟨source, source.length, file, excerptLength, lexicon, ← resolve lexicon Jsp.constructs⟩

/-- A cause at an offset of the page. -/
def fault (p : Page) (cause : Cause) (offset : Nat) : LexFailure :=
  .error (.located cause p.source offset p.file p.excerptLength)

/-- Why a match failed: a cause that a hook reported comes first, at its own place; then the end of
the page inside a construct; else something else was expected. -/
def failure (p : Page) (a : Attempt) (expected : String) (offset : Nat) : LexFailure :=
  match a.fatal, a.shortfall with
  | some fault, _ => p.fault fault.cause fault.position
  | none, some shortfall => p.fault (.unterminated shortfall.terminator) offset
  | none, none => p.fault (.mismatch expected) offset

/-- The rule with a name. -/
def lookUp (p : Page) (r : Rule) : Except LexFailure Production := find p.lexicon r

/-- Try a matcher. -/
def attempt (p : Page) (m : Production) (a : Attempt) (c : Cursor) :
    Except LexFailure (Option Cursor × Attempt) :=
  match m.step Jsp.rules (m.bound Jsp.rules p.length) a c with
  | .ok outcome => .ok outcome
  | .error halt => .error (.halted halt)

/-- A matcher in words. -/
def describe (m : Production) : String := m.description Rule.label

/-- Try the constructs that are told by their delimiters. -/
def construct (p : Page) (openTags : List OpenTag) (c : Cursor) :
    List (Construct Production) → Attempt → Except LexFailure Try
  | [], a => .ok (.miss a)
  | entry :: entries, a => do
    let (started, a) ← p.attempt entry.delimiter a c
    match started with
    | none =>
      if a.isFatal then .error (p.failure a (describe entry.delimiter) c.offset)
      else construct p openTags c entries a
    | some _ =>
      let (stop?, a) ← p.attempt entry.whole a c
      match stop? with
      | none => .error (p.failure a (describe entry.whole) c.offset)
      | some stop => .ok (.hit ⟨entry.kind, stop, a, openTags⟩)

/-- What is wrong with an end tag that does not close the innermost open tag. -/
def misplacedEndTag (openTags : List OpenTag) (name : Text) : Cause :=
  match openTags with
  | [] => .endTag name .unopened
  | tag :: _ => .endTag name (.misplaced tag.name)

/-- Try an end tag other than that of the innermost open tag, which is always a fault. -/
def strayEndTag (p : Page) (openTags : List OpenTag) (c : Cursor) (a : Attempt) :
    Except LexFailure Try := do
  let (started, a) ← p.attempt (← p.lookUp .actionEndDelimiter) a c
  match started with
  | none => .ok (.miss a)
  | some _ =>
    let whole ← p.lookUp .actionEnd
    let (stop?, a) ← p.attempt whole a c
    match stop? with
    | none => .error (p.failure a (describe whole) c.offset)
    | some _ =>
      let start := Cursor.ofPosition p.source (c.offset + 2)
      let (stop?, _) ← p.attempt (← p.lookUp .qName) a start
      let name :=
        match stop? with
        | some stop => start.upTo stop
        | none => start.rest
      .error (p.fault (misplacedEndTag openTags name) c.offset)

/-- Try an end tag, first that of the innermost open tag. -/
def endTag (p : Page) (openTags : List OpenTag) (c : Cursor) (a : Attempt) :
    Except LexFailure Try :=
  match openTags with
  | [] => p.strayEndTag openTags c a
  | tag :: below => do
    let (stop?, a) ← p.attempt tag.closer a c
    match stop? with
    | some stop => .ok (.hit ⟨.endTag, stop, a, below⟩)
    | none => p.strayEndTag openTags c a

/-- The end tag of a start tag, and the name that it repeats: what the grammar remembers. -/
def closer (p : Page) (remembered : Option Value) : Except LexFailure (Text × Production) :=
  let name :=
    match remembered with
    | some (.text name) => name
    | _ => []
  if h : name ≠ [] then do
    let space ← p.lookUp .space
    return (name, Jsp.closer name h space)
  else .error (.definition .emptyLiteral)

/-- Try a start tag. A tag that is closed at once is an empty tag. -/
def startTag (p : Page) (openTags : List OpenTag) (c : Cursor) (a : Attempt) :
    Except LexFailure Try := do
  let (started, a) ← p.attempt (← p.lookUp .actionStartDelimiter) a c
  match started with
  | none => .ok (.miss a)
  | some _ =>
    let start ← p.lookUp .actionStart
    let (named?, a) ← p.attempt start a c
    match named? with
    | none => .error (p.failure a (describe start) c.offset)
    | some named =>
      let name := a.store.view Jsp.tagNameKey
      let a := { a with store := a.store.delete Jsp.tagNameKey }
      let (empty?, a) ← p.attempt (← p.lookUp .actionEmptyEnd) a named
      match empty? with
      | some stop => .ok (.hit ⟨.emptyTag, stop, a, openTags⟩)
      | none =>
        let (body?, a) ← p.attempt (← p.lookUp .actionTagEnd) a named
        match body? with
        | none => .error (p.failure a "\"/>\" | \">\"" named.offset)
        | some body =>
          let (name, closer) ← p.closer name
          let (closed?, a) ← p.attempt closer a body
          match closed? with
          | some stop => .ok (.hit ⟨.emptyTag, stop, a, openTags⟩)
          | none => .ok (.hit ⟨.startTag, body, a, ⟨name, closer, c.offset⟩ :: openTags⟩)

/-- Read template text. -/
def templateText (p : Page) (openTags : List OpenTag) (c : Cursor) (a : Attempt) :
    Except LexFailure Sighting := do
  let text ← p.lookUp .templateText
  let (stop?, a) ← p.attempt text a c
  match stop? with
  | none => .error (p.failure a (describe text) c.offset)
  | some stop => .ok ⟨.templateText, stop, a, openTags⟩

/-- What stands at a place. -/
def sight (p : Page) (s : Progress) : Except LexFailure Sighting := do
  let c := s.place
  match ← p.construct s.openTags c p.constructs { store := s.store, fatal := s.fatal } with
  | .hit sighting => .ok sighting
  | .miss a =>
    match ← p.endTag s.openTags c a with
    | .hit sighting => .ok sighting
    | .miss a =>
      match ← p.startTag s.openTags c a with
      | .hit sighting => .ok sighting
      | .miss a => p.templateText s.openTags c a

/-- Cut one token off. -/
def next (p : Page) (s : Progress) : Except LexFailure (Token × Progress) := do
  let sighting ← p.sight s
  let stop := sighting.stop
  let value := s.rest.take (stop.offset - s.offset)
  return (⟨sighting.kind, value, s.offset⟩,
    ⟨stop.front, stop.rest, sighting.attempt.store, sighting.attempt.fatal, sighting.openTags⟩)

/-- Cut off at most `count` tokens. -/
def cut (p : Page) : Nat → Progress → List Token × Option LexFailure
  | 0, _ => ([], some (.halted .tooDeep))
  | count + 1, s =>
    if s.rest.isEmpty then
      match s.openTags with
      | [] => ([], none)
      | tag :: _ => ([], some (p.fault (.endTag tag.name .missing) tag.offset))
    else
      match p.next s with
      | .error failure => ([], some failure)
      | .ok (token, s') =>
        let (tokens, failure) := p.cut count s'
        (token :: tokens, failure)

end Page

/-- The tokens of a page, and why there are no more of them. -/
structure TokenStream where
  /-- The tokens in order. -/
  tokens : List Token
  /-- Why the page was not cut to its end. -/
  failure : Option LexFailure
  deriving DecidableEq, Repr

namespace TokenStream

/-- The start of a page, with the expression language on or off. -/
def start (source : Text) (elEnabled : Bool) : Progress :=
  { front := [], rest := source, store := { base := [(Jsp.elEnabledKey, .flag elEnabled)] } }

/-- The tokens of a page. A token of the page grammar is never empty, so there are no more of them
than characters; other grammars may cut empty tokens off for as long as patience lasts. -/
def ofPage (p : Page) (elEnabled : Bool) : TokenStream :=
  let (tokens, failure) := p.cut (Matcher.patience + (p.length + 1)) (start p.source elEnabled)
  { tokens, failure }

/-- The tokens of a source under a lexicon. The expression language is on or off as asked for, or
else as the settings say. -/
def under (lexicon : Lexicon) (source : Text) (settings : Settings) (file : Option String)
    (elEnabled : Option Bool) : TokenStream :=
  match Page.ofSource source file settings.excerptLength lexicon with
  | .error failure => { tokens := [], failure := some failure }
  | .ok page => ofPage page (elEnabled.getD settings.elEnabled)

/-- The tokens of a source. -/
def ofSource (source : Text) (settings : Settings) (file : Option String)
    (elEnabled : Option Bool) : TokenStream :=
  under .standard source settings file elEnabled

/-- All the tokens, or why the page was not cut to its end. -/
def complete (s : TokenStream) : Except LexFailure (List Token) :=
  match s.failure with
  | none => .ok s.tokens
  | some failure => .error failure

end TokenStream

end Stencil
