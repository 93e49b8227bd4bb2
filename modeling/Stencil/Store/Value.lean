import Stencil.Text.Quoted

/-!
# Values

What the rules of a grammar remember while they match: switches, counts, texts, sets of texts, and
lists of any of these.
-/

set_option autoImplicit false

namespace Stencil

/-- A remembered value. -/
inductive Value where
  /-- No value, though the key is present. -/
  | null
  /-- A switch. -/
  | flag (on : Bool)
  /-- A count. -/
  | count (n : Int)
  /-- A text. -/
  | text (t : Text)
  /-- Values in order, repetitions allowed. -/
  | list (items : List Value)
  /-- A set of texts; each of them once, in the order in which they came. -/
  | names (ts : List Text)
  deriving BEq, Repr

namespace Value

/-- Whether a value counts as yes: neither absent, off, zero nor empty. -/
def isTrue : Value → Bool
  | null => false
  | flag on => on
  | count n => n != 0
  | text t => !t.isEmpty
  | list items => !items.isEmpty
  | names ts => !ts.isEmpty

/-- A set of texts from any list of them. -/
def ofNames (ts : List Text) : Value := names ts.eraseDups

/-- The texts of a set; other values have none. -/
def members : Value → List Text
  | names ts => ts
  | _ => []

/-- The values of a list; other values have none. -/
def items : Value → List Value
  | list vs => vs
  | _ => []

mutual

/-- A value in words. -/
def render : Value → Text
  | null => "None".toList
  | flag true => "True".toList
  | flag false => "False".toList
  | count n => Text.ofInt n
  | text t => Text.quoted t
  | list vs => '[' :: (List.intercalate ", ".toList (renderAll vs) ++ [']'])
  | names ts => '{' :: (List.intercalate ", ".toList (ts.map Text.quoted) ++ ['}'])

/-- Each of a list of values in words. -/
def renderAll : List Value → List Text
  | [] => []
  | v :: vs => v.render :: renderAll vs

end

end Value

end Stencil
