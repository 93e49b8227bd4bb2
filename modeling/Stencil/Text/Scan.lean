import Stencil.Text.Basic

/-!
# Scans

A scan takes characters from the start of a text: it answers with what it took and what is left.
Scans are put together from fixed texts and runs of a class. `Text.allMatches` finds all the
places at which something is recognised, from left to right and without overlap.
-/

set_option autoImplicit false

namespace Stencil

/-- Taking characters from the start of a text. -/
abbrev Scan := Text → Option (Text × Text)

namespace Scan

/-- A fixed text. -/
def text (word : Text) : Scan := fun t => (Text.after? word t).map (word, ·)

/-- As many characters of a class as there are, possibly none. -/
def run (isMember : Char → Bool) : Scan := fun t =>
  some (t.takeWhile isMember, t.dropWhile isMember)

/-- A run of a class that meets a condition. -/
def runWith (isMember : Char → Bool) (ok : Text → Bool) : Scan := fun t =>
  if ok (t.takeWhile isMember) then run isMember t else none

/-- One or more characters of a class. -/
def run1 (isMember : Char → Bool) : Scan := runWith isMember fun taken => !taken.isEmpty

/-- One scan behind another. -/
def andThen (first second : Scan) : Scan := fun t =>
  match first t with
  | none => none
  | some (taken, rest) => (second rest).map fun (taken', rest') => (taken ++ taken', rest')

/-- Scans one behind the other. -/
def all : List Scan → Scan
  | [] => fun t => some ([], t)
  | s :: ss => andThen s (all ss)

/-- A scan, or nothing where it fails. -/
def orNothing (s : Scan) : Scan := fun t => some ((s t).getD ([], t))

end Scan

namespace Text

/-- All that is recognised in a text from left to right: where it starts and what it is. The
recogniser answers with the number of characters that it takes. -/
def allMatches {α : Type} (recognise : Text → Option (Nat × α)) (t : Text) : List (Nat × Nat × α) :=
  go 0 0 t
where
  /-- The same at a position, when `skip` characters still belong to the match before it. -/
  go (position skip : Nat) : Text → List (Nat × Nat × α)
    | [] => []
    | c :: t =>
      match skip with
      | skip + 1 => go (position + 1) skip t
      | 0 =>
        match recognise (c :: t) with
        | some (width, a) => (position, position + width, a) :: go (position + 1) (width - 1) t
        | none => go (position + 1) 0 t

/-- The first place at which something is recognised: the text in front of it, and what it is. -/
def firstMatch? {α : Type} (recognise : Text → Option α) : Text → Option (Text × α)
  | [] => (recognise []).map ([], ·)
  | c :: t =>
    match recognise (c :: t) with
    | some a => some ([], a)
    | none => (firstMatch? recognise t).map fun (before, a) => (c :: before, a)

end Text

end Stencil
