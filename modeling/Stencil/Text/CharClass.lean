/-!
# Character classes

A class of characters is given by ranges of code points, both ends included. The classes of this
library are those of XML 1.0, the white space that a formatter may put between the fixed parts of a
placeholder, and the decimal digits.

## Main definitions

* `CodeRanges`: ranges of code points, and whether a character lies in one of them.
* `Text.isNcNameStart`, `Text.isNcNameChar`: the classes from which a name without a colon is
  built; a colon may stand anywhere in other names. `Text.startsQName` says where a name with a
  prefix stands.
* `Text.isBlank`: the Unicode space characters together with the control characters that separate
  lines, fields and records.
* `Text.digitValue?`: the worth of a decimal digit. The digits of every script come in runs of ten,
  zero first, so the zeros alone say which characters are digits and what they are worth.
-/

set_option autoImplicit false

namespace Stencil

/-- Ranges of code points, both ends included. -/
abbrev CodeRanges := List (Nat × Nat)

/-- Whether a character lies in one of the ranges. -/
def CodeRanges.has (ranges : CodeRanges) (c : Char) : Bool :=
  ranges.any fun range => range.1 ≤ c.toNat && c.toNat ≤ range.2

/-- A character is in two lists of ranges put together when it is in one of them. -/
theorem CodeRanges.has_append (r s : CodeRanges) (c : Char) :
    CodeRanges.has (r ++ s) c = (CodeRanges.has r c || CodeRanges.has s c) := by
  simp [CodeRanges.has, List.any_append]

namespace Text

/-! ## XML characters and names -/

/-- Letters: what may start a name, apart from the colon and the low line. -/
def letterRanges : CodeRanges :=
  [(0x41, 0x5a), (0x61, 0x7a), (0xc0, 0xd6), (0xd8, 0xf6), (0xf8, 0x2ff), (0x370, 0x37d),
    (0x37f, 0x1fff), (0x200c, 0x200d), (0x2070, 0x218f), (0x2c00, 0x2fef), (0x3001, 0xd7ff),
    (0xf900, 0xfdcf), (0xfdf0, 0xfffd), (0x10000, 0xeffff)]

/-- The ASCII digits. -/
def digitRanges : CodeRanges := [(0x30, 0x39)]

/-- Combining marks and ties that may continue a name. -/
def combiningRanges : CodeRanges := [(0x300, 0x36f), (0x203f, 0x2040)]

/-- The middle dot, which may continue a name. -/
def extenderRanges : CodeRanges := [(0xb7, 0xb7)]

/-- What may start a name that holds no colon: the low line and the letters. -/
def ncNameStartRanges : CodeRanges := (0x5f, 0x5f) :: letterRanges

/-- What may continue a name that holds no colon: also hyphen, full stop, digits and marks. -/
def ncNameCharRanges : CodeRanges :=
  ncNameStartRanges ++ (0x2d, 0x2e) :: digitRanges ++ combiningRanges ++ extenderRanges

/-- What may start a name. -/
def nameStartRanges : CodeRanges := (0x3a, 0x3a) :: ncNameStartRanges

/-- What may continue a name. -/
def nameCharRanges : CodeRanges := (0x3a, 0x3a) :: ncNameCharRanges

/-- The characters that a document may hold. -/
def xmlCharRanges : CodeRanges :=
  [(0x9, 0xa), (0xd, 0xd), (0x20, 0xd7ff), (0xe000, 0xfffd), (0x10000, 0x10ffff)]

/-- The white space of a document: blank, tab, carriage return and line feed. -/
def xmlSpaceRanges : CodeRanges := [(0x9, 0xa), (0xd, 0xd), (0x20, 0x20)]

/-- Whether a character is a letter. -/
def isLetter (c : Char) : Bool := letterRanges.has c

/-- Whether a character is an ASCII digit. -/
def isDigit (c : Char) : Bool := digitRanges.has c

/-- Whether a character is a combining mark or a tie. -/
def isCombining (c : Char) : Bool := combiningRanges.has c

/-- Whether a character is the middle dot. -/
def isExtender (c : Char) : Bool := extenderRanges.has c

/-- Whether a character may start a name. -/
def isNameStart (c : Char) : Bool := nameStartRanges.has c

/-- Whether a character may continue a name. -/
def isNameChar (c : Char) : Bool := nameCharRanges.has c

/-- Whether a character may start a name that holds no colon. -/
def isNcNameStart (c : Char) : Bool := ncNameStartRanges.has c

/-- Whether a character may continue a name that holds no colon. -/
def isNcNameChar (c : Char) : Bool := ncNameCharRanges.has c

/-- Whether a document may hold a character. -/
def isXmlChar (c : Char) : Bool := xmlCharRanges.has c

/-- Whether a character is white space of a document. -/
def isXmlSpace (c : Char) : Bool := xmlSpaceRanges.has c

/-- What starts a name without a colon may also continue it. -/
theorem isNcNameChar_of_isNcNameStart {c : Char} (h : isNcNameStart c = true) :
    isNcNameChar c = true := by
  have h' : CodeRanges.has ncNameStartRanges c = true := h
  simp [isNcNameChar, ncNameCharRanges, CodeRanges.has_append, h']

/-- The colon is no part of a name without a colon. -/
theorem isNcNameChar_colon : isNcNameChar ':' = false := by decide

/-- A qualified name stands at the start of a text: a name, a colon and the start of a name. -/
def startsQName : List Char → Bool
  | [] => false
  | c :: t =>
    isNcNameStart c &&
      match t.dropWhile isNcNameChar with
      | ':' :: d :: _ => isNcNameStart d
      | _ => false

/-! ## White space -/

/-- The code points of white space. -/
def blankRanges : CodeRanges :=
  [(0x9, 0xd), (0x1c, 0x20), (0x85, 0x85), (0xa0, 0xa0), (0x1680, 0x1680), (0x2000, 0x200a),
    (0x2028, 0x2029), (0x202f, 0x202f), (0x205f, 0x205f), (0x3000, 0x3000)]

/-- Whether a character is white space. -/
def isBlank (c : Char) : Bool := blankRanges.has c

/-- The ASCII white space of the core library is white space here. -/
theorem isBlank_of_isWhitespace {c : Char} (h : c.isWhitespace = true) : isBlank c = true := by
  simp only [Char.isWhitespace, Bool.or_eq_true, decide_eq_true_eq] at h
  rcases h with ((h | h) | h) | h <;> subst h <;> decide

/-! ## Decimal digits -/

/-- The code points of the digits zero. -/
def zeros : List Nat :=
  [0x30, 0x660, 0x6f0, 0x7c0, 0x966, 0x9e6, 0xa66, 0xae6, 0xb66, 0xbe6, 0xc66, 0xce6, 0xd66,
    0xde6, 0xe50, 0xed0, 0xf20, 0x1040, 0x1090, 0x17e0, 0x1810, 0x1946, 0x19d0, 0x1a80, 0x1a90,
    0x1b50, 0x1bb0, 0x1c40, 0x1c50, 0xa620, 0xa8d0, 0xa900, 0xa9d0, 0xa9f0, 0xaa50, 0xabf0,
    0xff10, 0x104a0, 0x10d30, 0x11066, 0x110f0, 0x11136, 0x111d0, 0x112f0, 0x11450, 0x114d0,
    0x11650, 0x116c0, 0x11730, 0x118e0, 0x11950, 0x11c50, 0x11d50, 0x11da0, 0x16a60, 0x16ac0,
    0x16b50, 0x1d7ce, 0x1d7d8, 0x1d7e2, 0x1d7ec, 0x1d7f6, 0x1e140, 0x1e2f0, 0x1e950, 0x1fbf0]

/-- The worth of a decimal digit of any script, and `none` for other characters. -/
def digitValue? (c : Char) : Option Nat :=
  (zeros.find? fun base => base ≤ c.toNat && c.toNat < base + 10).map (c.toNat - ·)

/-- Whether a character is a decimal digit of some script. -/
def isDecimal (c : Char) : Bool := (digitValue? c).isSome

/-- An ASCII digit is worth what it is worth in ASCII. -/
theorem digitValue?_of_isDigit {c : Char} (h : c.isDigit = true) :
    digitValue? c = some (c.toNat - 48) := by
  have h' : 48 ≤ c.toNat ∧ c.toNat < 58 := by
    simp only [Char.isDigit, Bool.and_eq_true, decide_eq_true_eq] at h
    exact ⟨h.1, Nat.lt_succ_of_le h.2⟩
  simp [digitValue?, zeros, h'.1, h'.2]

/-- A digit is worth less than ten. -/
theorem digitValue?_lt {c : Char} {n : Nat} (h : digitValue? c = some n) : n < 10 := by
  obtain ⟨base, found, rfl⟩ := Option.map_eq_some_iff.1 h
  have := List.find?_some found
  simp only [Bool.and_eq_true, decide_eq_true_eq] at this
  omega

/-- The number that a row of decimal digits writes, the most significant digit first. -/
def decimalValue (digits : List Char) : Nat :=
  digits.foldl (fun n c => 10 * n + (digitValue? c).getD 0) 0

end Text

end Stencil
