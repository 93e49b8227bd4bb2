import Stencil.Jsp.Memory
import Stencil.Jsp.Rule
import Stencil.Matcher.Draft
import Stencil.Matcher.Run
import Stencil.Text.CharClass

/-!
# The page grammar

Only what it takes to find where a construct ends is described here. Scripts are opaque up to their
terminator. An expression of the expression language is opaque up to the brace that balances its
own; strings and inner braces are skipped whole, and such expressions do not nest. Custom tags are
read as far as the shape of their attributes goes.
-/

set_option autoImplicit false

namespace Stencil.Jsp

open Matcher (sequence oneOf maybe many upTo when whenElse ref pattern hooked)

/-- A matcher over the rules of the page grammar. -/
abbrev Production := Matcher Rule

/-- A fixed text. -/
def text (s : String) (h : s.toList ≠ [] := by decide) : Production := .literal s.toList h

/-- A quote, a body as often as it takes to reach the next quote, and that quote. -/
def between (quote : String) (body : Production) (h : quote.toList ≠ [] := by decide) :
    Production :=
  sequence [text quote h, upTo body (text quote h)]

/-- The attributes that a page directive may have. -/
def pageAttributeNames : List Production :=
  [text "language", text "extends", text "import", text "session", text "buffer", text "autoFlush",
    text "isThreadSafe", text "info", text "errorPage", text "isErrorPage", text "contentType",
    text "pageEncoding", text "isELIgnored", text "deferredSyntaxAllowedAsLiteral",
    text "trimDirectiveWhitespaces"]

/-- The attributes that a library directive may have. -/
def taglibAttributeNames : List Production := [text "prefix", text "uri", text "tagdir"]

/-- Whether a character starts an expression of the expression language when a brace follows. -/
def isElMark (c : Char) : Bool := c == '$' || c == '#'

/-- Whether a text starts with an opening brace. -/
def startsBrace : Text → Bool
  | '{' :: _ => true
  | _ => false

/-- A character of an expression that is neither a brace nor a quote and does not start another
expression. -/
def elChar : Pattern :=
  .charBefore "expression character" fun c t =>
    !(c == '{' || c == '}' || c == '\x27' || c == '\x22') && !(isElMark c && startsBrace t)

/-- Whether a script, a start tag or an end tag follows an opening angle bracket. -/
def startsMarkup : Text → Bool
  | '%' :: _ => true
  | '/' :: t => Text.startsQName t
  | t => Text.startsQName t

/-- A run of characters with which no construct starts. -/
def plainRun : Pattern :=
  .run1 "text" fun c => !(c == '<' || isElMark c || c == '\\')

/-- An opening angle bracket that starts nothing. -/
def loneBracket : Pattern := .charBefore "<" fun c t => c == '<' && !startsMarkup t

/-- A dollar or hash sign that starts nothing. -/
def loneMark : Pattern := .charBefore "$ or #" fun c t => isElMark c && !startsBrace t

/-- What a rule matches. -/
def production : Rule → Production
  | .char => pattern (.char "character" Text.isXmlChar)
  | .space => pattern (.run1 "white space" Text.isXmlSpace)
  | .letter => pattern (.char "letter" Text.isLetter)
  | .digit => pattern (.char "digit" Text.isDigit)
  | .combiningChar => pattern (.char "combining character" Text.isCombining)
  | .extender => pattern (.char "extender" Text.isExtender)
  | .nameStartChar => pattern (.char "start of a name" Text.isNameStart)
  | .nameChar => pattern (.char "name character" Text.isNameChar)
  | .name => pattern (.word "name" Text.isNameStart Text.isNameChar)
  | .ncName => pattern (.word "name without colon" Text.isNcNameStart Text.isNcNameChar)
  | .qName => sequence [ref .ncName, text ":", ref .ncName]
  | .eq => sequence [maybe (ref .space), text "=", maybe (ref .space)]
  | .commentStart => text "<%--"
  | .commentEnd => text "--%>"
  | .directiveStart => text "<%@"
  | .declarationStart => text "<%!"
  | .expressionStart => text "<%="
  | .scriptletStart => text "<%"
  | .close => text "%>"
  | .elExpressionStart => when elEnabled (oneOf [text "$\x7b", text "#\x7b"])
  | .comment => sequence [ref .commentStart, upTo (ref .char) (text "--%>")]
  | .declaration => sequence [ref .declarationStart, upTo (ref .char) (text "%>")]
  | .expression => sequence [ref .expressionStart, upTo (ref .char) (text "%>")]
  | .scriptlet => sequence [ref .scriptletStart, upTo (ref .char) (text "%>")]
  | .elString =>
    oneOf
      [between "\x22" (oneOf [text "\\\\", text "\\\x22", ref .char]),
        between "\x27" (oneOf [text "\\\\", text "\\\x27", ref .char])]
  | .elBraces => sequence [text "\x7b", upTo (ref .elBodyChar) (text "\x7d")]
  | .elBodyChar => oneOf [ref .elString, ref .elBraces, pattern elChar]
  | .elBody => upTo (ref .elBodyChar) (text "\x7d")
  | .elExpression => when elEnabled (sequence [ref .elExpressionStart, ref .elBody])
  | .quotedChar =>
    oneOf
      [text "&apos;", text "&quot;", text "\\\\", text "\\\x22", text "\\\x27", text "\\$",
        text "\\#", ref .elExpression, ref .expression, ref .char]
  | .doubleQuotedValue => between "\x22" (ref .quotedChar)
  | .singleQuotedValue => between "\x27" (ref .quotedChar)
  | .runtimeValue =>
    oneOf
      [sequence [text "\x22", ref .expression, text "\x22"],
        sequence [text "\x27", ref .expression, text "\x27"]]
  | .attributeValue =>
    oneOf [ref .runtimeValue, ref .doubleQuotedValue, ref .singleQuotedValue]
  | .includeDirective =>
    sequence [text "include", ref .space, text "file", ref .eq, ref .attributeValue]
  | .isElIgnoredValue =>
    oneOf
      [hooked [] [switchEl false] (oneOf [text "\x22true\x22", text "\x27true\x27"]),
        hooked [] [switchEl true] (oneOf [text "\x22false\x22", text "\x27false\x27"])]
  | .pageAttributeName => hooked [] [recordPageAttributeName] (oneOf pageAttributeNames)
  | .pageAttribute =>
    oneOf
      [sequence
          [ref .space, hooked [] [recordPageAttributeName] (text "isELIgnored"), ref .eq,
            ref .isElIgnoredValue],
        sequence [ref .space, ref .pageAttributeName, ref .eq, ref .attributeValue]]
  | .pageDirective =>
    hooked [resetAttributeNames] [] (sequence [text "page", many (ref .pageAttribute)])
  | .taglibAttributeName => hooked [] [recordAttributeName] (oneOf taglibAttributeNames)
  | .taglibAttribute =>
    sequence [ref .space, ref .taglibAttributeName, ref .eq, ref .attributeValue]
  | .taglibDirective =>
    hooked [resetAttributeNames] [checkTaglibAttributes]
      (sequence [text "taglib", many (ref .taglibAttribute)])
  | .directive =>
    sequence
      [ref .directiveStart, maybe (ref .space),
        oneOf [ref .includeDirective, ref .pageDirective, ref .taglibDirective],
        maybe (ref .space), ref .close]
  | .portletNamespace =>
    pattern
      (.around "portlet namespace" "<portlet:namespace".toList Text.isXmlSpace "/>".toList)
  | .actionAttributeName =>
    hooked [] [recordAttributeName] (pattern (.word "name" Text.isNameStart Text.isNameChar))
  | .actionAttribute =>
    sequence [ref .space, ref .actionAttributeName, ref .eq, ref .attributeValue]
  | .actionAttributes => many (ref .actionAttribute)
  | .actionName => hooked [] [captureTagName] (sequence [ref .qName])
  | .actionStartDelimiter => pattern (.textBefore "<" "<".toList Text.startsQName)
  | .actionStart =>
    hooked [resetAttributeNames] []
      (sequence
        [ref .actionStartDelimiter, ref .actionName, maybe (ref .actionAttributes),
          maybe (ref .space)])
  | .actionEmptyEnd => text "/>"
  | .actionTagEnd => text ">"
  | .actionEndDelimiter => pattern (.textBefore "</" "</".toList Text.startsQName)
  | .actionEnd =>
    sequence [ref .actionEndDelimiter, ref .qName, maybe (ref .space), text ">"]
  | .templateChunk =>
    oneOf
      [pattern plainRun, text "\\$", text "\\#", text "\\", pattern loneBracket,
        whenElse elEnabled (pattern loneMark) (pattern (.char "$ or #" isElMark))]
  | .templateText => many (ref .templateChunk)

/-- The matcher of a rule, shown under the rule's name. -/
def rule (r : Rule) : Production := .labelled r.label (production r)

/-- The rules of the page grammar. -/
def rules : Rules Rule where
  body r := some (rule r)
  label := Rule.label
  size := Matcher.sizes (Rule.all.map rule)

/-- The end tag of one start tag: it repeats the name exactly, which no rule could say. -/
def closer (name : Text) (nonempty : name ≠ []) (space : Production) : Production :=
  .labelled ("</" ++ String.ofList name ++ ">")
    (sequence [text "</", .literal name nonempty, maybe space, text ">"])

/-- The end tag of a start tag with a name, which must not be empty. -/
def closer? (name : Text) (space : Production) : Except DefinitionError Production :=
  if h : name ≠ [] then .ok (closer name h space) else .error .emptyLiteral

end Stencil.Jsp
