import Stencil.Matcher.Basic

/-!
# Descriptions of matchers

Messages show a matcher under its label, and without one by its parts: a fixed text in quotes, the
parts of a sequence side by side, the choices of an ordered choice with a bar between them. A part
that would fall apart, because its own description holds a blank, is put in parentheses.
-/

set_option autoImplicit false

namespace Stencil

/-- A description as a part of another one: in parentheses, if it holds a blank. -/
def parenthesized (description : String) : String :=
  if description.toList.contains ' ' then "(" ++ description ++ ")" else description

namespace Matcher

variable {ν : Type}

mutual

/-- A matcher in words; `name` shows the rules that it refers to. -/
def description (name : ν → String) : Matcher ν → String
  | literal text _ => String.ofList (Text.inDoubleQuotes text)
  | pattern p => "/" ++ p.label ++ "/"
  | sequence parts => " ".intercalate ((descriptions name parts).map parenthesized)
  | oneOf choices => " | ".intercalate (descriptions name choices)
  | maybe body => parenthesized (body.description name) ++ "?"
  | many body => parenthesized (body.description name) ++ "+"
  | upTo body terminator =>
    parenthesized (body.description name) ++ "* " ++ parenthesized (terminator.description name)
  | when test body => parenthesized (body.description name) ++ " when " ++ test.name
  | whenElse test body otherwise =>
    parenthesized (body.description name) ++ " when " ++ test.name ++ " else " ++
      parenthesized (otherwise.description name)
  | ref rule => name rule
  | labelled label _ => label
  | hooked _ _ body => body.description name

/-- Each of a list of matchers in words. -/
def descriptions (name : ν → String) : List (Matcher ν) → List String
  | [] => []
  | m :: ms => m.description name :: descriptions name ms

end

/-- The form of a matcher, whatever labels and hooks it carries. -/
def form (m : Matcher ν) : String :=
  match m.bare with
  | literal _ _ => "Literal"
  | pattern _ => "Pattern"
  | sequence _ => "Sequence"
  | oneOf _ => "OneOf"
  | maybe _ => "Maybe"
  | many _ => "Repeat"
  | upTo _ _ => "Until"
  | when _ _ => "When"
  | whenElse _ _ _ => "When"
  | ref _ => "NamedRef"
  | labelled _ _ => "Labelled"
  | hooked _ _ _ => "Hooked"

/-- A matcher in words, with its form. -/
def render (name : ν → String) (m : Matcher ν) : String :=
  "<" ++ m.form ++ " " ++ m.description name ++ ">"

end Matcher

end Stencil
