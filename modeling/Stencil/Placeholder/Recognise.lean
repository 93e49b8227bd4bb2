import Stencil.Placeholder.Family
import Stencil.Text.CharClass
import Stencil.Text.Scan

/-!
# Finding placeholders

Formatters put white space between the fixed parts of a placeholder and around the fillers of its
comment, so placeholders are recognised with white space in all these places. What is found has
three parts: a brace in front of a comment, which may belong to the text around the placeholder;
the placeholder itself; and a comment behind a condition or an identifier, which may belong to the
next placeholder.
-/

set_option autoImplicit false

namespace Stencil

/-- A placeholder that was found in a text. -/
structure Found where
  /-- The family of the placeholder. -/
  family : Family
  /-- A brace in front of a comment, with the white space behind it. -/
  lead : Text
  /-- The condition, comment or identifier itself. -/
  core : Text
  /-- A comment behind a condition or an identifier, with the white space in front of it. -/
  trail : Text
  deriving DecidableEq, Repr

namespace Found

/-- All that was found. -/
def text (f : Found) : Text := f.lead ++ f.core ++ f.trail

end Found

namespace Placeholder

/-- White space, possibly none. -/
def blanks : Scan := .run Text.isBlank

/-- A run of a filler and white space that holds the filler at least once. -/
def fillers (filler : Char) : Scan :=
  .runWith (fun c => c == filler || Text.isBlank c) fun taken => taken.contains filler

/-- A comment that holds fillers and white space. -/
def commentOf (filler : Char) : Scan :=
  .all [.text "/*".toList, fillers filler, .text "*/".toList]

/-- The condition of an opening, up to its brace. -/
def condition : Scan :=
  .all
    [.text "if".toList, blanks, .text ['('], .run1 (· == Sentinel.opening), .text [')'], blanks,
      .text ['{']]

/-- A brace with the white space behind it. -/
def brace (c : Char) : Scan := .all [.text [c], blanks]

/-- A comment of fillers with the white space in front of it, where there is one. -/
def trailing (filler : Char) : Scan := .orNothing (.all [blanks, commentOf filler])

/-- Whether a character may stand inside an identifier. -/
def isIdentifierChar (c : Char) : Bool := c.isAlphanum || c == '_'

/-- The name of an identifier between its half rings. -/
def name : Scan :=
  .all [.text [Sentinel.identifierStart], .run isIdentifierChar, .text [Sentinel.identifierEnd]]

/-- A comment of fillers, perhaps with a brace in front of it. -/
def bracedComment? (family : Family) (mark filler : Char) (t : Text) : Option (Found × Text) :=
  let lead := (brace mark t).getD ([], t)
  (commentOf filler lead.2).map fun (core, rest) => (⟨family, lead.1, core, []⟩, rest)

/-- A scan, perhaps with a comment of fillers behind it. -/
def trailed? (family : Family) (scan : Scan) (filler : Char) (t : Text) : Option (Found × Text) :=
  match scan t with
  | none => none
  | some (core, rest) =>
    (trailing filler rest).map fun (trail, rest') => (⟨family, [], core, trail⟩, rest')

/-- An opening at the start of a text. -/
def opening? (t : Text) : Option (Found × Text) :=
  trailed? .opening condition Sentinel.opening t <|>
    bracedComment? .opening '{' Sentinel.opening t

/-- A closing at the start of a text. -/
def closing? (t : Text) : Option (Found × Text) :=
  bracedComment? .closing '}' Sentinel.closing t

/-- A comment at the start of a text, as a block or up to the end of the line. -/
def comment? (t : Text) : Option (Found × Text) :=
  (commentOf Sentinel.comment t <|>
      Scan.all [.text "//".toList, .run1 (· == Sentinel.comment)] t).map
    fun (core, rest) => (⟨.comment, [], core, []⟩, rest)

/-- An identifier at the start of a text. -/
def identifier? (t : Text) : Option (Found × Text) :=
  trailed? .identifier name Sentinel.identifierEnd t

/-- The placeholder at the start of a text, and what follows it. -/
def found? (t : Text) : Option (Found × Text) :=
  opening? t <|> closing? t <|> comment? t <|> identifier? t

/-- The first placeholder in a text, with the text in front of it and behind it. -/
def next? (t : Text) : Option (Text × Found × Text) := Text.firstMatch? found? t

/-- Whether a run of capitals and low lines is a label: words of capitals, each with a low line
behind it. -/
def isLabel : Text → Bool
  | [] => false
  | ['_'] => false
  | [c, '_'] => c.isUpper
  | c :: '_' :: t => c.isUpper && isLabel t
  | c :: t => c.isUpper && isLabel t

/-- Whether a character is a capital or a low line. -/
def isLabelChar (c : Char) : Bool := c.isUpper || c == '_'

/-- The start of an identifier up to its number, of which it answers with the digits. -/
def ordinal? (t : Text) : Option (Text × Text) :=
  let label := Scan.runWith isLabelChar fun taken => taken.isEmpty || isLabel taken
  match Scan.all [.text [Sentinel.identifierStart], label] t with
  | none => none
  | some (taken, rest) =>
    (Scan.run1 Text.isDecimal rest).map fun (digits, _) => (taken ++ digits, digits)

/-- Every placeholder in a text: where it starts and ends, and its family. -/
def allFound (t : Text) : List (Nat × Nat × Family) :=
  Text.allMatches (fun t => (found? t).map fun (f, _) => (f.text.length, f.family)) t

/-- Every numbered start of an identifier in a text: where it starts and ends, and its digits. -/
def allOrdinals (t : Text) : List (Nat × Nat × Text) :=
  Text.allMatches (fun t => (ordinal? t).map fun (taken, digits) => (taken.length, digits)) t

/-- Every condition of an opening in a text: where it starts and ends. -/
def allConditions (t : Text) : List (Nat × Nat × Unit) :=
  Text.allMatches (fun t => (condition t).map fun (taken, _) => (taken.length, ())) t

/-- Every sentinel in a text: where it starts and ends. -/
def allSentinels (t : Text) : List (Nat × Nat × Unit) :=
  Text.allMatches
    (fun
      | [] => none
      | c :: _ => if isSentinel c then some (1, ()) else none)
    t

end Placeholder

end Stencil
