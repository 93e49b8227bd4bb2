import Stencil.Text.Basic

/-!
# Locations

A location is an offset of a source together with its line and column, all that a message needs to
point at a place. Lines and columns count from one and only the line feed ends a line.
`offset_ofOffset` says that an offset inside the source is kept as it is.
-/

set_option autoImplicit false

namespace Stencil

/-- A place in a source. -/
structure Location where
  /-- The line, counted from one. -/
  line : Nat
  /-- The column, counted from one. -/
  column : Nat
  /-- The characters in front of the place. -/
  offset : Nat
  deriving DecidableEq, Repr

namespace Location

/-- The place `offset` characters into a source. Offsets outside the source are moved to its nearer
end. -/
def ofOffset (source : Text) (offset : Int) : Location :=
  let offset := min offset.toNat source.length
  let before := source.take offset
  { line := before.count '\n' + 1
    column := (before.reverse.takeWhile (· != '\n')).length + 1
    offset }

/-- The offset of a location lies inside the source. -/
theorem offset_ofOffset_le (source : Text) (offset : Int) :
    (ofOffset source offset).offset ≤ source.length :=
  Nat.min_le_right ..

/-- Inside the source an offset is kept as it is. -/
theorem offset_ofOffset {source : Text} {offset : Nat} (h : offset ≤ source.length) :
    (ofOffset source offset).offset = offset := by
  simp [ofOffset, h]

/-- The text of a location: line and column, behind the file name if there is one. -/
def render (l : Location) (file : Option String) : Text :=
  let place := Text.ofNat l.line ++ ':' :: Text.ofNat l.column
  match file with
  | none => place
  | some file => if file.isEmpty then place else file.toList ++ ':' :: place

end Location

end Stencil
