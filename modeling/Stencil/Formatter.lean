import Stencil.Text.Layout
import Stencil.Text.Scan

/-!
# Formatters

A formatter turns one text into another, or refuses it. Small formatters are put together from
revisions, which are carried out in order.
-/

set_option autoImplicit false

namespace Stencil

/-- A formatter: the new text, or why there is none. -/
abbrev Formatter := Text → Except String Text

/-- One change of a text. -/
inductive Revision where
  /-- Put a text in place of every occurrence of another, which is not empty. -/
  | replace (old new : Text)
  /-- Put a text in place of the first occurrence of another, which is not empty. -/
  | replaceFirst (old new : Text)
  /-- Put a text in front. -/
  | prepend (t : Text)
  /-- Put a text behind. -/
  | append (t : Text)
  /-- Put a text in place of everything. -/
  | set (t : Text)
  /-- Make one blank of each run of blanks. -/
  | squeeze
  /-- Take the indentation off every line. -/
  | dedent
  /-- Refuse the text. -/
  | fail (message : String)
  deriving DecidableEq, Repr

namespace Revision

/-- Put a text in place of every occurrence of another, from left to right, when `skip` characters
still belong to the last occurrence. -/
def replaceFrom (old new : Text) (skip : Nat) : Text → Text
  | [] => []
  | c :: t =>
    match skip with
    | skip + 1 => replaceFrom old new skip t
    | 0 =>
      match Text.after? old (c :: t) with
      | some _ => new ++ replaceFrom old new (old.length - 1) t
      | none => c :: replaceFrom old new 0 t

/-- Put a text in place of the first occurrence of another. -/
def replaceOnce (old new t : Text) : Text :=
  match Text.firstMatch? (Text.after? old) t with
  | some (before, after) => before ++ new ++ after
  | none => t

/-- Make one blank of each run of blanks. -/
def squeezed : Text → Text
  | ' ' :: ' ' :: t => squeezed (' ' :: t)
  | c :: t => c :: squeezed t
  | [] => []

/-- Take off the indentation of every line; `inIndent` says whether the line has had nothing else
so far. -/
def dedented (inIndent : Bool) : Text → Text
  | [] => []
  | c :: t =>
    if inIndent && Text.isIndent c then dedented true t else c :: dedented (c == '\n') t

/-- Carry out one change. -/
def apply : Revision → Formatter
  | replace old new => fun t => .ok (replaceFrom old new 0 t)
  | replaceFirst old new => fun t => .ok (replaceOnce old new t)
  | prepend added => fun t => .ok (added ++ t)
  | append added => fun t => .ok (t ++ added)
  | set new => fun _ => .ok new
  | squeeze => fun t => .ok (squeezed t)
  | dedent => fun t => .ok (dedented true t)
  | fail message => fun _ => .error message

/-- Carry out changes in order. -/
def applyAll (revisions : List Revision) : Formatter := fun t =>
  revisions.foldlM (fun t r => r.apply t) t

end Revision

end Stencil
