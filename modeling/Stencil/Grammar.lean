import Stencil.Matcher.Draft
import Stencil.Matcher.Run

/-!
# Grammars

A grammar is a set of named rules that refer to each other by name. It is made in two phases: a
builder declares and defines rules in any order, and is finished when every rule that was declared,
referred to or defined has a matcher. A rule keeps the matcher that it was first given.
-/

set_option autoImplicit false

namespace Stencil

/-- Named rules, each with its matcher. -/
structure Grammar where
  /-- The rules in the order in which their names first came. -/
  rules : Entries (Matcher String)

namespace Grammar

/-- The names of the rules. -/
def names (g : Grammar) : List String := g.rules.map (·.1)

/-- The matcher of a rule. -/
def rule? (g : Grammar) (name : String) : Option (Matcher String) := g.rules.get? name

/-- Names in the order of their characters. -/
def sorted (names : List String) : List String := names.mergeSort (· ≤ ·)

end Grammar

/-- Rules that are declared, some of them with a matcher already. -/
structure GrammarBuilder where
  /-- The declared names in order; `none` where no matcher is bound yet. -/
  bindings : Entries (Option (Matcher String)) := []

namespace GrammarBuilder

/-- The number of declared rules. -/
def size (b : GrammarBuilder) : Nat := b.bindings.length

/-- Whether a rule has a matcher. -/
def isBound (b : GrammarBuilder) (name : String) : Bool :=
  match b.bindings.get? name with
  | some (some _) => true
  | _ => false

/-- Declare a rule, unless it is declared already. -/
def declare (b : GrammarBuilder) (name : String) : GrammarBuilder :=
  match b.bindings.get? name with
  | some _ => b
  | none => { bindings := b.bindings.put name none }

/-- Declare rules in order. -/
def declareAll (b : GrammarBuilder) (names : List String) : GrammarBuilder :=
  names.foldl declare b

/-- A matcher under the name of its rule, unless it has a label of its own. -/
def labelledAs (name : String) (m : Matcher String) : Matcher String :=
  match m.label? with
  | some _ => m
  | none => .labelled name m

/-- Bind a declared rule to a matcher, unless it is bound already. -/
def bind (b : GrammarBuilder) (name : String) (m : Except DefinitionError (Matcher String)) :
    GrammarBuilder × Except DefinitionError (Matcher String) :=
  let b := b.declare name
  if b.isBound name then (b, .error (.alreadyDefined name))
  else
    match m with
    | .error e => (b, .error e)
    | .ok m =>
      let m := labelledAs name m
      ({ bindings := b.bindings.put name (some m) }, .ok m)

/-- Define a rule, which declares it and the rules that its draft refers to. -/
def define (b : GrammarBuilder) (name : String) (draft : Draft String) :
    GrammarBuilder × Except DefinitionError (Matcher String) :=
  match draft with
  | .plain text => b.bind name (Matcher.ofText? text)
  | draft =>
    let b := b.declareAll draft.refs.1
    match draft.matcher? with
    | .error e => (b, .error e)
    | .ok m => b.bind name (.ok m)

/-- The rules without a matcher, in the order of their characters. -/
def unbound (b : GrammarBuilder) : List String :=
  Grammar.sorted ((b.bindings.filter fun binding => binding.2.isNone).map (·.1))

/-- The rules that have a matcher. -/
def bound (b : GrammarBuilder) : Entries (Matcher String) :=
  b.bindings.filterMap fun binding => binding.2.map (binding.1, ·)

/-- The finished grammar, if every declared rule has a matcher. -/
def build (b : GrammarBuilder) : Except DefinitionError Grammar :=
  match b.unbound with
  | [] => .ok { rules := b.bound }
  | names => .error (.undefinedRules names)

/-- A rule name and whether it is bound, in words. -/
def render (b : GrammarBuilder) (name : String) : String :=
  "Binding(" ++ quotedName name ++ ", " ++ (if b.isBound name then "bound" else "unbound") ++ ")"

/-- What the rule names stand for so far. -/
def rules (b : GrammarBuilder) : Rules String where
  body name := (b.bindings.get? name).getD none
  label := id
  size := Matcher.sizes (b.bound.map (·.2))

end GrammarBuilder

/-- What the names of a grammar's rules stand for. -/
def Grammar.toRules (g : Grammar) : Rules String where
  body := g.rule?
  label := id
  size := Matcher.sizes (g.rules.map (·.2))

end Stencil
