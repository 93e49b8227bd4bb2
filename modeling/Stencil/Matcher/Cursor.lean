import Stencil.Text.Basic

/-!
# Cursors

A cursor is a place in a text at which something is tried: the characters in front of it and those
that follow. A place past the end of the text is allowed; nothing follows it, and only its distance
from the end tells it from the end itself.
-/

set_option autoImplicit false

namespace Stencil

/-- A place in a text, or past its end. -/
structure Cursor where
  /-- The characters of the text in front of the place, the nearest first. -/
  front : Text
  /-- The characters behind the place. -/
  rest : Text
  /-- How far the place lies past the end of the text. -/
  past : Nat := 0
  deriving DecidableEq, Repr

namespace Cursor

/-- The place `position` characters into a text. -/
def ofPosition (source : Text) (position : Nat) : Cursor :=
  { front := (source.take position).reverse
    rest := source.drop position
    past := position - source.length }

/-- How many characters of the text lie in front of the place. -/
def offset (c : Cursor) : Nat := c.front.length

/-- The number of the place, counted from the start of the text. -/
def position (c : Cursor) : Nat := c.offset + c.past

/-- The place `n` characters further on. -/
def advance (c : Cursor) (n : Nat) : Cursor :=
  { c with front := (c.rest.take n).reverse ++ c.front, rest := c.rest.drop n }

/-- The place behind a fixed text, if it stands here. -/
def after? (c : Cursor) (text : Text) : Option Cursor :=
  (Text.after? text c.rest).map fun rest => { c with front := text.reverse ++ c.front, rest }

/-- The characters from one place to a later one. -/
def upTo (c stop : Cursor) : Text := c.rest.take (stop.position - c.position)

/-- Whether no character follows. -/
def atEnd (c : Cursor) : Bool := c.rest.isEmpty

/-- The place at a position has that position. -/
theorem position_ofPosition (source : Text) (position : Nat) :
    (ofPosition source position).position = position := by
  simp only [Cursor.position, offset, ofPosition, List.length_reverse, List.length_take]
  omega

/-- A place that is reached over characters of the text has them in front. -/
theorem offset_advance {c : Cursor} {n : Nat} (h : n ≤ c.rest.length) :
    (c.advance n).offset = c.offset + n := by
  simp only [offset, advance, List.length_append, List.length_reverse, List.length_take]
  omega

/-- Behind a fixed text stands what followed it, and the text itself lies in front. -/
theorem after?_eq_some_iff {c d : Cursor} {text : Text} :
    c.after? text = some d ↔
      ∃ rest, c.rest = text ++ rest ∧ d = ⟨text.reverse ++ c.front, rest, c.past⟩ := by
  simp only [after?, Option.map_eq_some_iff, Text.after?_eq_some_iff]
  constructor
  · rintro ⟨rest, h, rfl⟩
    exact ⟨rest, h, rfl⟩
  · rintro ⟨rest, h, rfl⟩
    exact ⟨rest, h, rfl⟩

end Cursor

end Stencil
