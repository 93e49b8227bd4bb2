import Stencil.Text.Basic

/-!
# The layout of a text

The layout of a text is what a formatter sees of its shape: how long its first line is, and for
each later line the line break in front of it, the blanks and tabs that it is indented by, and how
many characters stand behind them. A line break is a carriage return with a line feed, or either
alone. `Layout.fill` lays another text out in the same shape.
-/

set_option autoImplicit false

namespace Stencil

namespace Text

/-- The first line of a text, and each later line with the line break in front of it. -/
def lines : Text → Text × List (Text × Text)
  | [] => ([], [])
  | '\r' :: '\n' :: t =>
    let (line, later) := lines t
    ([], (['\r', '\n'], line) :: later)
  | '\r' :: t =>
    let (line, later) := lines t
    ([], (['\r'], line) :: later)
  | '\n' :: t =>
    let (line, later) := lines t
    ([], (['\n'], line) :: later)
  | c :: t =>
    let (line, later) := lines t
    (c :: line, later)

/-- Whether a character indents a line: a blank or a tab. -/
def isIndent (c : Char) : Bool := c == ' ' || c == '\t'

/-- Whether nothing but blanks and tabs follows up to the end of the line. -/
def endsLine (rest : Text) : Bool :=
  match rest.dropWhile isIndent with
  | [] => true
  | c :: _ => c == '\r' || c == '\n'

end Text

/-- The shape of a line other than the first. -/
structure LineShape where
  /-- The line break in front of the line. -/
  ending : Text
  /-- The blanks and tabs at the start of the line. -/
  indent : Text
  /-- The number of characters behind them. -/
  width : Nat
  deriving DecidableEq, Repr

/-- The shape of a text. -/
structure Layout where
  /-- The length of the first line. -/
  first : Nat
  /-- The later lines. -/
  later : List LineShape
  deriving DecidableEq, Repr

namespace Layout

/-- The shape of a line with the line break in front of it. -/
def ofLine (line : Text × Text) : LineShape :=
  { ending := line.1
    indent := line.2.takeWhile Text.isIndent
    width := (line.2.dropWhile Text.isIndent).length }

/-- The shape of a text. -/
def of (t : Text) : Layout :=
  { first := (Text.lines t).1.length, later := (Text.lines t).2.map ofLine }

/-- Whether there is one line only. -/
def isSingleLine (l : Layout) : Bool := l.later.isEmpty

/-- The characters of each line behind its indentation. -/
def widths (l : Layout) : List Nat := l.first :: l.later.map (·.width)

/-- The characters that belong to no line break and no indentation. -/
def net (l : Layout) : Nat := l.widths.foldr (· + ·) 0

/-- Take up to `need` characters from lines in order, but leave `floor` of the last of them. -/
def draw (need floor : Int) : List Int → Int × List Int
  | [] => (0, [])
  | [width] =>
    let taken := max 0 (min need (width - floor))
    (taken, [width - taken])
  | width :: widths =>
    let taken := max 0 (min need width)
    let (more, rest) := draw (need - taken) floor widths
    (taken + more, (width - taken) :: rest)

/-- Move characters to the first line, from the nearest later lines on, until it holds `head`. -/
def fillFirst (head tail : Int) : List Int → List Int
  | [] => []
  | first :: later =>
    let (taken, rest) := draw (head - first) tail later
    (first + taken) :: rest

/-- Move characters between lines so that the first line holds `head` characters and the last line
`tail`, as far as there are enough of them. -/
def rebalance (head tail : Int) (widths : List Int) : List Int :=
  (fillFirst tail head (fillFirst head tail widths).reverse).reverse

/-- Whether the first line holds `head` characters and the last line `tail`; `none` where there is
no line at all. -/
def holds? (head tail : Int) (widths : List Int) : Option Bool :=
  match widths.head?, widths.getLast? with
  | some first, some last => some (head ≤ first && tail ≤ last)
  | _, _ => none

/-- Write a text over later lines of given widths. -/
def writeLines (body : Text) : List LineShape → List Int → Text
  | line :: lines, width :: widths =>
    line.ending ++ line.indent ++ body.take width.toNat ++
      writeLines (body.drop width.toNat) lines widths
  | _, _ => []

/-- Write a text over the lines of a layout, with these widths in place of its own. -/
def write (l : Layout) (body : Text) : List Int → Text
  | [] => []
  | first :: later =>
    body.take first.toNat ++ writeLines (body.drop first.toNat) l.later later

end Layout

/-- A way to fill a layout: a fixed beginning, a repeated filler and a fixed end. -/
structure Shape where
  /-- The text at the very start. -/
  head : Text
  /-- The text that is repeated in between. -/
  filler : Text
  /-- The text at the very end. -/
  tail : Text := []
  /-- The fewest repetitions. -/
  minFill : Int := 1
  deriving DecidableEq, Repr

namespace Layout

/-- The widths of the lines when a layout is filled in one way. A layout of several lines has room
for the beginning on its first line and for the end on its last. -/
def filledWidths (l : Layout) (s : Shape) : List Int :=
  let widths := l.widths.map Int.ofNat
  if l.isSingleLine then widths else rebalance s.head.length s.tail.length widths

/-- Fill a layout in one way, if it is large enough. -/
def fill (l : Layout) (s : Shape) : Option Text :=
  let count : Int := l.net - s.head.length - s.tail.length
  let widths := l.filledWidths s
  if count < s.minFill then none
  else if l.isSingleLine || holds? s.head.length s.tail.length widths == some true then
    some (l.write (s.head ++ (List.replicate count.toNat s.filler).flatten ++ s.tail) widths)
  else none

/-- Fill a layout in the first way for which it is large enough. -/
def firstFit (l : Layout) (shapes : List Shape) : Option Text := shapes.findSome? l.fill

end Layout

end Stencil
