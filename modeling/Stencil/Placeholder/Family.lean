import Stencil.Token.Basic

/-!
# Families of placeholders

Each kind of construct is replaced by a placeholder of one of four families. A placeholder holds at
least one sentinel, a letter or sign that hardly ever occurs in scripts and that template text must
not hold, so placeholders can be found again.
-/

set_option autoImplicit false

namespace Stencil

/-- The families of placeholders. -/
inductive Family where
  /-- A comment, for what leaves no value and has no body. -/
  | comment
  /-- An identifier, for what stands for a value. -/
  | identifier
  /-- The start of a block, for a start tag. -/
  | opening
  /-- The end of a block, for an end tag. -/
  | closing
  deriving DecidableEq, Repr

/-- The name under which a family is known outside. -/
def Family.name : Family → String
  | comment => "comment"
  | identifier => "identifier"
  | opening => "open"
  | closing => "close"

/-- The family of the placeholders for a kind of construct; template text has none. -/
def Kind.family? : Kind → Option Family
  | .templateText => none
  | .comment | .directive | .declaration | .scriptlet | .emptyTag => some .comment
  | .expression | .elExpression | .portletNamespace => some .identifier
  | .startTag => some .opening
  | .endTag => some .closing

/-- Whether a construct may become a line comment when nothing follows it on its line. -/
def Kind.mayEndLine : Kind → Bool
  | .comment | .directive | .declaration | .scriptlet => true
  | _ => false

/-- What an identifier placeholder says about its construct. -/
def Kind.identifierLabel : Kind → Text
  | .expression => "JSP_EXPR".toList
  | .elExpression => "EL".toList
  | .portletNamespace => "PORTLET_NAMESPACE".toList
  | _ => []

namespace Sentinel

/-- The filler of comments. -/
def comment : Char := '\u2573'

/-- The filler of openings. -/
def opening : Char := '\u0283'

/-- The filler of closings. -/
def closing : Char := '\u0285'

/-- The first character of identifiers. -/
def identifierStart : Char := '\u02be'

/-- The last character of the name in an identifier, and the filler of the comment behind it. -/
def identifierEnd : Char := '\u02bf'

/-- Every sentinel. -/
def all : List Char := [comment, opening, closing, identifierStart, identifierEnd]

end Sentinel

/-- Whether a character is a sentinel. -/
def isSentinel (c : Char) : Bool := Sentinel.all.contains c

end Stencil
