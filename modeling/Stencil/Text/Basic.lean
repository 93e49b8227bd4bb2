/-!
# Texts

A text is a list of characters, so every length, offset and cut in this library counts code
points. This module holds what the other modules share: the cuts, such as what follows a fixed
beginning and the excerpt that error messages quote, and how numbers are written in messages,
labels and placeholders.
-/

set_option autoImplicit false

namespace Stencil

/-- A text: its characters in order. -/
abbrev Text := List Char

namespace Text

/-- What follows `lead` in a text that starts with it, and `none` for any other text. -/
def after? : Text → Text → Option Text
  | [], t => some t
  | _ :: _, [] => none
  | a :: lead, b :: t => if a = b then after? lead t else none

/-- A text starts with `lead` exactly when it is `lead` followed by the answer. -/
theorem after?_eq_some_iff {lead t rest : Text} : after? lead t = some rest ↔ t = lead ++ rest := by
  induction lead generalizing t with
  | nil => simp [after?]
  | cons a lead ih =>
      cases t with
      | nil => simp [after?]
      | cons b t =>
          by_cases h : a = b
          · simp [after?, h, ih]
          · simp [after?, h, Ne.symm h]

/-- The `count` characters from `start` on. A negative `start + count` is a position counted from
the end of the text, so a negative `count` may still leave something to quote. -/
def excerpt (t : Text) (start : Nat) (count : Int) : Text :=
  let stop := (start : Int) + count
  let stop := if stop < 0 then stop + t.length else stop
  (t.drop start).take (stop.toNat - start)

/-- With a count of zero or more the excerpt is simply a beginning of what stands at `start`. -/
theorem excerpt_ofNat (t : Text) (start count : Nat) :
    excerpt t start count = (t.drop start).take count := by
  have h : ¬((start : Int) + (count : Int) < 0) := by omega
  have h' : ((start : Int) + (count : Int)).toNat - start = count := by omega
  simp [excerpt, h, h']

/-- Whether a text holds a line feed or a carriage return. -/
def isMultiline (t : Text) : Bool := t.contains '\n' || t.contains '\r'

/-- The decimal digits of a natural number. -/
def ofNat (n : Nat) : Text := Nat.toDigits 10 n

/-- An integer in decimal. -/
def ofInt : Int → Text
  | .ofNat n => ofNat n
  | .negSucc n => '-' :: ofNat (n + 1)

/-- Every text so far, one for each part added at the end. -/
def running (parts : List Text) : List Text :=
  go [] parts
where
  /-- The texts so far, given the text before the first of the parts. -/
  go (done : Text) : List Text → List Text
    | [] => []
    | part :: parts => (done ++ part) :: go (done ++ part) parts

end Text

end Stencil
