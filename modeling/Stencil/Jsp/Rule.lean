/-!
# The rules of the page grammar

One name for each rule of the grammar of pages. Every name has a rule, so a reference between the
rules never fails.
-/

set_option autoImplicit false

namespace Stencil.Jsp

/-- A rule of the page grammar. -/
inductive Rule where
  -- characters and names
  | char | space | letter | digit | combiningChar | extender | nameStartChar | nameChar
  | name | ncName | qName | eq
  -- delimiters
  | commentStart | commentEnd | directiveStart | declarationStart | expressionStart
  | scriptletStart | close | elExpressionStart
  -- scripting elements
  | comment | declaration | expression | scriptlet
  -- the expression language
  | elString | elBraces | elBodyChar | elBody | elExpression
  -- attribute values
  | quotedChar | doubleQuotedValue | singleQuotedValue | runtimeValue | attributeValue
  -- directives
  | includeDirective | isElIgnoredValue | pageAttributeName | pageAttribute | pageDirective
  | taglibAttributeName | taglibAttribute | taglibDirective | directive
  -- custom actions
  | portletNamespace | actionAttributeName | actionAttribute | actionAttributes | actionName
  | actionStartDelimiter | actionStart | actionEmptyEnd | actionTagEnd | actionEndDelimiter
  | actionEnd
  -- template text
  | templateChunk | templateText
  deriving DecidableEq, Repr

namespace Rule

/-- Every rule. -/
def all : List Rule :=
  [char, space, letter, digit, combiningChar, extender, nameStartChar, nameChar, name, ncName,
    qName, eq, commentStart, commentEnd, directiveStart, declarationStart, expressionStart,
    scriptletStart, close, elExpressionStart, comment, declaration, expression, scriptlet, elString,
    elBraces, elBodyChar, elBody, elExpression, quotedChar, doubleQuotedValue, singleQuotedValue,
    runtimeValue, attributeValue, includeDirective, isElIgnoredValue, pageAttributeName,
    pageAttribute, pageDirective, taglibAttributeName, taglibAttribute, taglibDirective, directive,
    portletNamespace, actionAttributeName, actionAttribute, actionAttributes, actionName,
    actionStartDelimiter, actionStart, actionEmptyEnd, actionTagEnd, actionEndDelimiter, actionEnd,
    templateChunk, templateText]

/-- The name under which a rule is known outside. -/
def label : Rule → String
  | char => "CHAR"
  | space => "SPACE"
  | letter => "LETTER"
  | digit => "DIGIT"
  | combiningChar => "COMBINING_CHAR"
  | extender => "EXTENDER"
  | nameStartChar => "NAME_START_CHAR"
  | nameChar => "NAME_CHAR"
  | name => "NAME"
  | ncName => "NC_NAME"
  | qName => "QNAME"
  | eq => "EQ"
  | commentStart => "JSP_COMMENT_START"
  | commentEnd => "JSP_COMMENT_END"
  | directiveStart => "JSP_DIRECTIVE_START"
  | declarationStart => "JSP_DECLARATION_START"
  | expressionStart => "JSP_EXPRESSION_START"
  | scriptletStart => "JSP_SCRIPTLET_START"
  | close => "JSP_END"
  | elExpressionStart => "EL_EXPRESSION_START"
  | comment => "JSP_COMMENT"
  | declaration => "JSP_DECLARATION"
  | expression => "JSP_EXPRESSION"
  | scriptlet => "JSP_SCRIPTLET"
  | elString => "EL_STRING"
  | elBraces => "EL_BRACES"
  | elBodyChar => "EL_BODY_CHAR"
  | elBody => "EL_BODY"
  | elExpression => "EL_EXPRESSION"
  | quotedChar => "QUOTED_CHAR"
  | doubleQuotedValue => "ATTRIBUTE_VALUE_DOUBLE"
  | singleQuotedValue => "ATTRIBUTE_VALUE_SINGLE"
  | runtimeValue => "RUNTIME_ATTRIBUTE_VALUE"
  | attributeValue => "ATTRIBUTE_VALUE"
  | includeDirective => "INCLUDE_DIRECTIVE"
  | isElIgnoredValue => "IS_EL_IGNORED_VALUE"
  | pageAttributeName => "PAGE_ATTRIBUTE_NAME"
  | pageAttribute => "PAGE_ATTRIBUTE"
  | pageDirective => "PAGE_DIRECTIVE"
  | taglibAttributeName => "TAGLIB_ATTRIBUTE_NAME"
  | taglibAttribute => "TAGLIB_ATTRIBUTE"
  | taglibDirective => "TAGLIB_DIRECTIVE"
  | directive => "JSP_DIRECTIVE"
  | portletNamespace => "PORTLET_NAMESPACE"
  | actionAttributeName => "ATTRIBUTE_NAME"
  | actionAttribute => "ATTRIBUTE"
  | actionAttributes => "ATTRIBUTES"
  | actionName => "CUSTOM_ACTION_NAME"
  | actionStartDelimiter => "CUSTOM_ACTION_START_DELIMITER"
  | actionStart => "CUSTOM_ACTION_PREFIX"
  | actionEmptyEnd => "CUSTOM_ACTION_EMPTY_END"
  | actionTagEnd => "CUSTOM_ACTION_TAG_END"
  | actionEndDelimiter => "CUSTOM_ACTION_END_DELIMITER"
  | actionEnd => "CUSTOM_ACTION_END"
  | templateChunk => "TEMPLATE_CHUNK"
  | templateText => "TEMPLATE_TEXT"

/-- The rule with a given name. -/
def ofLabel? (label : String) : Option Rule := all.find? (·.label == label)

/-- Every rule is listed. -/
theorem mem_all (r : Rule) : r ∈ all := by
  cases r <;> decide

end Rule

end Stencil.Jsp
