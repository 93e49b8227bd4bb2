import Stencil.Matcher.Description

/-!
# Drafts of matchers

A draft is a matcher as an author writes it: a plain text may stand wherever a matcher may, and
nothing has been checked yet. The only thing that can be wrong with a draft is an empty text.
Checking reads the parts of a draft in order, and the plain texts among the parts of one form after
the other parts of that form, which decides how many references have been read when it fails.
-/

set_option autoImplicit false

namespace Stencil

/-- Why a set of rules is refused. -/
inductive DefinitionError where
  /-- A fixed text is empty. -/
  | emptyLiteral
  /-- A rule is defined a second time. -/
  | alreadyDefined (name : String)
  /-- A rule is tried that is not defined. -/
  | undefinedRule (name : String)
  /-- Rules are missing from a finished grammar. -/
  | undefinedRules (names : List String)
  deriving DecidableEq, Repr

/-- A name between quotes. -/
def quotedName (name : String) : String := String.ofList (Text.quoted name.toList)

/-- A refusal in words. -/
def DefinitionError.message : DefinitionError → String
  | emptyLiteral => "Literal matcher needs a non-empty string"
  | alreadyDefined name => "Rule " ++ quotedName name ++ " is already defined"
  | undefinedRule name => "Rule " ++ quotedName name ++ " is not defined"
  | undefinedRules names => "Undefined grammar rules: " ++ ", ".intercalate names

/-- A matcher of a fixed text, which must not be empty. -/
def Matcher.ofText? {ν : Type} (text : Text) : Except DefinitionError (Matcher ν) :=
  if h : text ≠ [] then .ok (.literal text h) else .error .emptyLiteral

/-- A matcher as it is written. -/
inductive Draft (ν : Type) where
  /-- A fixed text in place of a matcher. -/
  | plain (text : Text)
  /-- A fixed text. -/
  | literal (text : Text)
  /-- A pattern. -/
  | pattern (p : Pattern)
  /-- All parts, one behind the other. -/
  | sequence (parts : List (Draft ν))
  /-- The first choice that matches. -/
  | oneOf (choices : List (Draft ν))
  /-- The body, or nothing. -/
  | maybe (body : Draft ν)
  /-- The body, once or more. -/
  | many (body : Draft ν)
  /-- The body up to a terminator. -/
  | upTo (body terminator : Draft ν)
  /-- The body, if a condition holds. -/
  | when (test : Condition) (body : Draft ν)
  /-- One of two bodies, as a condition says. -/
  | whenElse (test : Condition) (body otherwise : Draft ν)
  /-- The rule with a name. -/
  | ref (name : ν)
  /-- The body under a label. -/
  | labelled (label : String) (body : Draft ν)
  /-- The body with hooks. -/
  | hooked (onEntry : List EntryHook) (onMatch : List MatchHook) (body : Draft ν)

namespace Draft

variable {ν : Type}

mutual

/-- The rules that are referred to before checking comes upon an empty text, and whether it comes
to the end. -/
def refs : Draft ν → List ν × Bool
  | plain _ => ([], true)
  | literal text => ([], !text.isEmpty)
  | pattern _ => ([], true)
  | sequence parts => refsAll parts true
  | oneOf choices => refsAll choices true
  | maybe body => body.part
  | many body => body.part
  | upTo body terminator =>
    match body.refs, terminator.refs with
    | (names, false), _ => (names, false)
    | (names, true), (names', done) =>
      (names ++ names', done && body.isFilled && terminator.isFilled)
  | when _ body => body.part
  | whenElse _ body otherwise =>
    match body.refs, otherwise.refs with
    | (names, false), _ => (names, false)
    | (names, true), (names', done) =>
      (names ++ names', done && body.isFilled && otherwise.isFilled)
  | ref name => ([name], true)
  | labelled _ body => body.part
  | hooked _ _ body => body.part

/-- The same for the only part of a form. -/
def part (d : Draft ν) : List ν × Bool :=
  match d.refs with
  | (names, done) => (names, done && d.isFilled)

/-- The same for the parts of a form; `filled` says whether its plain texts so far are not empty. -/
def refsAll : List (Draft ν) → Bool → List ν × Bool
  | [], filled => ([], filled)
  | d :: ds, filled =>
    match d.refs with
    | (names, false) => (names, false)
    | (names, true) =>
      match refsAll ds (filled && d.isFilled) with
      | (names', done) => (names ++ names', done)

/-- Whether a draft is something else than an empty plain text. -/
def isFilled : Draft ν → Bool
  | plain text => !text.isEmpty
  | _ => true

end

mutual

/-- The matcher that a draft stands for. -/
def matcher? : Draft ν → Except DefinitionError (Matcher ν)
  | plain text => Matcher.ofText? text
  | literal text => Matcher.ofText? text
  | pattern p => .ok (.pattern p)
  | sequence parts => return .sequence (← matchers? parts)
  | oneOf choices => return .oneOf (← matchers? choices)
  | maybe body => return .maybe (← body.matcher?)
  | many body => return .many (← body.matcher?)
  | upTo body terminator => return .upTo (← body.matcher?) (← terminator.matcher?)
  | when test body => return .when test (← body.matcher?)
  | whenElse test body otherwise =>
    return .whenElse test (← body.matcher?) (← otherwise.matcher?)
  | ref name => .ok (.ref name)
  | labelled label body => return .labelled label (← body.matcher?)
  | hooked onEntry onMatch body => return .hooked onEntry onMatch (← body.matcher?)

/-- The matchers that a list of drafts stands for. -/
def matchers? : List (Draft ν) → Except DefinitionError (List (Matcher ν))
  | [] => .ok []
  | d :: ds => return (← d.matcher?) :: (← matchers? ds)

end

end Draft

end Stencil
