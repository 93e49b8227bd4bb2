import Stencil.Text.Basic
import Stencil.Text.Printable

/-!
# Quoted texts

Two ways to show a text inside a message. `Text.inDoubleQuotes` is how excerpts and literal
matchers are quoted: everything stays as it is but the quote, the backslash and the ASCII control
characters. `Text.quoted` is how names and tags are quoted: it picks the quote that needs no escape
where it can, and escapes every character that is not printable.
-/

set_option autoImplicit false

namespace Stencil.Text

/-- The last `width` hexadecimal digits of a number, in lower case. -/
def hexDigits : Nat → Nat → Text
  | 0, _ => []
  | width + 1, n => hexDigits width (n / 16) ++ [Nat.digitChar (n % 16)]

/-- There are exactly as many digits as asked for. -/
theorem length_hexDigits (width n : Nat) : (hexDigits width n).length = width := by
  induction width generalizing n with
  | zero => rfl
  | succ width ih => simp [hexDigits, ih]

/-- One character between double quotes. -/
def escapeDouble (c : Char) : Text :=
  match c with
  | '\x22' => ['\\', '\x22']
  | '\\' => ['\\', '\\']
  | '\n' => ['\\', 'n']
  | '\r' => ['\\', 'r']
  | '\t' => ['\\', 't']
  | '\x08' => ['\\', 'b']
  | '\x0c' => ['\\', 'f']
  | c => if c.toNat < 0x20 then '\\' :: 'u' :: hexDigits 4 c.toNat else [c]

/-- A text between double quotes, with `\"`, `\\` and the ASCII control characters escaped. -/
def inDoubleQuotes (t : Text) : Text := '\x22' :: t.flatMap escapeDouble ++ ['\x22']

/-- One character between two copies of `mark`. -/
def escapeQuoted (mark c : Char) : Text :=
  if c = mark || c = '\\' then ['\\', c]
  else if c = '\n' then ['\\', 'n']
  else if c = '\r' then ['\\', 'r']
  else if c = '\t' then ['\\', 't']
  else if isPrintable c then [c]
  else if c.toNat ≤ 0xff then '\\' :: 'x' :: hexDigits 2 c.toNat
  else if c.toNat ≤ 0xffff then '\\' :: 'u' :: hexDigits 4 c.toNat
  else '\\' :: 'U' :: hexDigits 8 c.toNat

/-- The quote for a text: the single quote, unless only the double quote needs no escape. -/
def quoteMark (t : Text) : Char :=
  if t.contains '\x27' && !t.contains '\x22' then '\x22' else '\x27'

/-- A text between quotes, with the quote in use, the backslash and all that is not printable
escaped. -/
def quoted (t : Text) : Text :=
  quoteMark t :: t.flatMap (escapeQuoted (quoteMark t)) ++ [quoteMark t]

end Stencil.Text
