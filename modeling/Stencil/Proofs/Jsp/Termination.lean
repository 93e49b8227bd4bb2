import Stencil.Jsp.Lexicon
import Stencil.Proofs.Matcher.Termination

/-!
# The page grammar comes to an end

Only the braces of an expression lead back to themselves, and they have taken a brace by then. All
other rules refer to rules of a lower rank, so that every rule settles, and the bound that the
engine works under is large enough for that.
-/

set_option autoImplicit false

namespace Stencil.Jsp

/-- How many levels deep a rule nests before it has read a fixed text. -/
def rank : Rule → Nat
  | .elBraces | .doubleQuotedValue | .singleQuotedValue | .includeDirective
  | .actionAttributeName => 3
  | .elExpressionStart | .elString | .runtimeValue | .pageAttributeName | .pageDirective
  | .taglibAttributeName | .taglibDirective | .templateChunk => 4
  | .qName | .isElIgnoredValue => 5
  | .eq | .comment | .declaration | .expression | .scriptlet => 6
  | .elBodyChar | .attributeValue | .templateText => 7
  | .directive | .actionEnd => 8
  | .actionName => 9
  | .elBody | .taglibAttribute | .actionAttribute => 10
  | .pageAttribute => 11
  | .actionAttributes => 13
  | .elExpression => 14
  | .quotedChar => 17
  | .actionStart => 18
  | _ => 2

/-- How many levels deep every rule nests. -/
def depthOfRules : Nat := 21

/-- A rule nests no deeper than its rank before a fixed text is read, and than all rules do behind
one. -/
theorem levels_rule (r : Rule) :
    (rule r).levels rank false ≤ rank r ∧ (rule r).levels rank true ≤ depthOfRules := by
  cases r <;> decide

/-- Before a fixed text is read, rules refer to rules of lower rank alone. -/
theorem ranked_rules : Matcher.Ranked rules rank depthOfRules :=
  ⟨fun r => ⟨rule r, rfl, levels_rule r⟩⟩

/-- The matcher of an end tag nests less deep than the rules. -/
theorem levels_closer (name : Text) (nonempty : name ≠ []) :
    (closer name nonempty (rule .space)).levels rank true ≤ depthOfRules := by
  simp [closer, rule, production, text, Matcher.levels, Matcher.levelsInTurn, depthOfRules]

variable {m : Production} {c : Cursor}

/-- The bound that the engine works under is large enough. -/
theorem exists_verdict (view : View) (hm : m.levels rank true ≤ depthOfRules) (hpast : c.past = 0)
    {length : Nat} (hlength : c.rest.length ≤ length) :
    ∃ verdict, m.parse rules (m.bound rules length) view c = .ok verdict := by
  apply Matcher.settles_parse ranked_rules _ view hpast hm
  have hrules : depthOfRules ≤ rules.size := by decide
  have hlevels := Matcher.levels_le rank m
  have hmul : (c.rest.length + 1) * depthOfRules + depthOfRules ≤
      (length + 2) * (rules.size + m.size + 2) :=
    calc (c.rest.length + 1) * depthOfRules + depthOfRules
        = (c.rest.length + 2) * depthOfRules := (Nat.succ_mul _ _).symm
      _ ≤ (length + 2) * (rules.size + m.size + 2) := Nat.mul_le_mul (by omega) (by omega)
  unfold Matcher.bound
  omega

end Stencil.Jsp
