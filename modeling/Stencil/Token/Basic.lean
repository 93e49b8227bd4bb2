import Stencil.Text.Quoted

/-!
# Tokens

A page is a row of tokens: template text, which a formatter can read as it is, and constructs,
which it cannot. A token knows its text and the offset at which it starts.
-/

set_option autoImplicit false

namespace Stencil

/-- What a token is. -/
inductive Kind where
  /-- Text that holds no construct. -/
  | templateText
  /-- A comment, `<%-- … --%>`. -/
  | comment
  /-- A directive, `<%@ … %>`. -/
  | directive
  /-- A declaration, `<%! … %>`. -/
  | declaration
  /-- An expression, `<%= … %>`. -/
  | expression
  /-- A scriptlet, `<% … %>`. -/
  | scriptlet
  /-- An expression of the expression language, `$` or `#` in front of braces. -/
  | elExpression
  /-- A marker of the portlet namespace, `<portlet:namespace/>`. -/
  | portletNamespace
  /-- The start tag of a custom action with a body. -/
  | startTag
  /-- The end tag of a custom action. -/
  | endTag
  /-- A custom action without a body. -/
  | emptyTag
  deriving DecidableEq, Repr

namespace Kind

/-- Every kind of token. -/
def all : List Kind :=
  [templateText, comment, directive, declaration, expression, scriptlet, elExpression,
    portletNamespace, startTag, endTag, emptyTag]

/-- The name under which a kind is known outside. -/
def name : Kind → String
  | templateText => "TEMPLATE_TEXT"
  | comment => "JSP_COMMENT"
  | directive => "JSP_DIRECTIVE"
  | declaration => "JSP_DECLARATION"
  | expression => "JSP_EXPRESSION"
  | scriptlet => "JSP_SCRIPTLET"
  | elExpression => "EL_EXPRESSION"
  | portletNamespace => "PORTLET_NAMESPACE"
  | startTag => "CUSTOM_ACTION_START"
  | endTag => "CUSTOM_ACTION_END"
  | emptyTag => "CUSTOM_ACTION_SELF_CLOSING"

/-- The kind with a given name. -/
def ofName? (name : String) : Option Kind := all.find? (·.name == name)

/-- Names tell kinds apart. -/
theorem ofName?_name (k : Kind) : ofName? k.name = some k := by
  cases k <;> rfl

end Kind

/-- A piece of a source. -/
structure Token where
  /-- What the piece is. -/
  kind : Kind
  /-- The characters of the piece. -/
  value : Text
  /-- The characters of the source in front of the piece. -/
  offset : Nat
  deriving DecidableEq, Repr

namespace Token

/-- The offset behind the last character of a token. -/
def stop (t : Token) : Nat := t.offset + t.value.length

/-- Whether a token spans a line break. -/
def isMultiline (t : Token) : Bool := Text.isMultiline t.value

/-- A short form of a token for messages, given its parts: of a value of more than twenty characters
it shows the first seventeen. -/
def renderAt (kind : Kind) (value : Text) (offset : Int) : Text :=
  let shown := if value.length > 20 then value.take 17 ++ "...".toList else value
  "Token(".toList ++ kind.name.toList ++ ", ".toList ++ Text.quoted shown ++ ", @".toList ++
    Text.ofInt offset ++ [')']

/-- A short form of a token for messages. -/
def render (t : Token) : Text := renderAt t.kind t.value t.offset

end Token

end Stencil
