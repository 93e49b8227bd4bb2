import Stencil.Jsp.Grammar
import Stencil.Token.Basic

/-!
# The lexicon

Cutting a page into tokens looks up rules by name: for each construct a delimiter, which says that
the construct starts here, and the rule for the whole of it. A lexicon answers these look-ups. The
standard lexicon answers with the rules of the page grammar; others may replace a rule or leave it
out, which changes the look-up alone and not what the rules of the page grammar refer to.
-/

set_option autoImplicit false

namespace Stencil.Jsp

/-- The answers to look-ups by name. -/
abbrev Lexicon := Rule → Option Production

namespace Lexicon

/-- The lexicon of the page grammar. -/
def standard : Lexicon := fun r => some (rule r)

/-- A lexicon with another answer for one rule. -/
def replace (lexicon : Lexicon) (r : Rule) (answer : Option Production) : Lexicon :=
  fun r' => if r' = r then answer else lexicon r'

end Lexicon

/-- A construct that is told by its delimiter. -/
structure Construct (α : Type) where
  /-- The kind of its tokens. -/
  kind : Kind
  /-- What it starts with. -/
  delimiter : α
  /-- The whole of it. -/
  whole : α

/-- The constructs that are told by their delimiters, in the order in which they are tried. -/
def constructs : List (Construct Rule) :=
  [⟨.comment, .commentStart, .comment⟩, ⟨.directive, .directiveStart, .directive⟩,
    ⟨.declaration, .declarationStart, .declaration⟩, ⟨.expression, .expressionStart, .expression⟩,
    ⟨.scriptlet, .scriptletStart, .scriptlet⟩, ⟨.elExpression, .elExpressionStart, .elExpression⟩,
    ⟨.portletNamespace, .portletNamespace, .portletNamespace⟩]

end Stencil.Jsp
