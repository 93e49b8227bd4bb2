import Stencil.Placeholder.Family
import Stencil.Text.Layout
import Stencil.Text.Quoted

/-!
# Making placeholders

A placeholder fills the layout of the construct that it replaces, so it has the same length and the
same line breaks, whatever the construct says. Each family has its shapes, and the first that fits
is taken. Nothing but the layout of a construct decides what its placeholder looks like.
-/

set_option autoImplicit false

namespace Stencil.Placeholder

/-- The refusal of a construct that is too short for any placeholder, in words. -/
def underlengthMessage (construct : Text) : String :=
  "Invalid (underlength) tag: " ++ String.ofList (Text.quoted construct)

/-- A block comment, or a line comment if that is asked for and the layout has one line. -/
def comment (l : Layout) (asLineComment : Bool) : Option Text :=
  if asLineComment && l.isSingleLine then
    l.firstFit [{ head := "//".toList, filler := [Sentinel.comment] }]
  else l.firstFit [{ head := "/*".toList, filler := [Sentinel.comment], tail := "*/".toList }]

/-- The label and the number of a construct. -/
def tag (label : Text) (ordinal : Int) : Text := label ++ '_' :: Text.ofInt ordinal

/-- An identifier on one line that ends in fillers. -/
def namedShape (name : Text) (minFill : Int) : Shape :=
  { head := Sentinel.identifierStart :: name
    filler := ['_']
    tail := [Sentinel.identifierEnd]
    minFill }

/-- An identifier with a comment behind it that may hold line breaks. -/
def trailedShape (name : Text) : Shape :=
  { head := Sentinel.identifierStart :: (name ++ Sentinel.identifierEnd :: "/*".toList)
    filler := [Sentinel.identifierEnd]
    tail := "*/".toList }

/-- An identifier that tells label and number if there is room, or at least the number. -/
def identifier (l : Layout) (label : Text) (ordinal : Int) : Option Text :=
  if l.isSingleLine then
    l.firstFit
      [namedShape (tag label ordinal) 0, namedShape (Text.ofInt ordinal) 0, namedShape [] 1]
  else
    l.firstFit
      [trailedShape (tag label ordinal), trailedShape (Text.ofInt ordinal), trailedShape []]

/-- A comment of fillers, behind some text. -/
def commentBehind (head : Text) (filler : Char) : Shape :=
  { head := head ++ "/*".toList, filler := [filler], tail := "*/".toList }

/-- A condition whose block is opened, or a comment alone where there is no room for it. -/
def opening (l : Layout) : Option Text :=
  if l.isSingleLine then
    l.firstFit
      [{ head := "if (".toList, filler := [Sentinel.opening], tail := ") \x7b".toList },
        { head := "if(".toList, filler := [Sentinel.opening], tail := ")\x7b".toList },
        commentBehind [] Sentinel.opening]
  else
    l.firstFit
      [commentBehind ("if (".toList ++ Sentinel.opening :: ") \x7b".toList) Sentinel.opening,
        commentBehind ['{'] Sentinel.opening, commentBehind [] Sentinel.opening]

/-- Whether an opening starts a block that its closing has to end. -/
def opensBlock (placeholder : Text) : Bool := (Text.after? "/*".toList placeholder).isNone

/-- The end of a block with a comment, or the comment alone if no block was opened. -/
def closing (l : Layout) (braced : Bool) : Option Text :=
  l.firstFit [commentBehind (if braced then ['}'] else []) Sentinel.closing]

end Stencil.Placeholder
