import Stencil.Proofs.Matcher.Stability
import Stencil.Proofs.Matcher.Trials
import Stencil.Proofs.Token.Completeness

/-!
# Matching and cutting come to an end

A bound of so many levels for each character that is left, and the grammar says how many, is enough
for every rule in every state, and what a rule comes to is the same under every larger bound. The
reason is that no rule comes back to itself before it has taken a character. A token takes a
character too, so a page has no more tokens than characters, and only a fault of the page keeps it
from being cut to its end.
-/

set_option autoImplicit false

namespace Stencil

namespace Jsp

/-- A bound that is enough in front of so many characters, whatever is tried there. -/
def depthFor (length : Nat) : Nat := (length + 2) * rules.size

variable {m : Production} {c : Cursor}

/-- Trying a matcher comes to the same under every bound that is large enough. -/
theorem exists_outcome (hregular : m.Regular) (hm : m.levels rank true ≤ depthOfRules)
    (a : Attempt) (hpast : c.past = 0) :
    ∃ outcome, ∀ depth ≥ depthFor c.rest.length, m.step rules depth a c = .ok outcome := by
  have hsize : depthOfRules ≤ rules.size := by decide
  have hfor : (c.rest.length + 1) * depthOfRules + depthOfRules ≤ depthFor c.rest.length := by
    rw [← Nat.succ_mul]
    exact Nat.mul_le_mul_left _ hsize
  -- it is enough to come to an end under the least of these bounds
  suffices hend : ∃ outcome, m.step rules (depthFor c.rest.length) a c = .ok outcome by
    obtain ⟨outcome, hend⟩ := hend
    exact ⟨outcome, fun depth hdepth => Matcher.step_mono hdepth hend⟩
  cases hfatal : a.fatal with
  | some f =>
      obtain ⟨depth, hdepth⟩ : ∃ depth, depthFor c.rest.length = depth + 1 :=
        Nat.exists_eq_succ_of_ne_zero (by
          have : 0 < depthOfRules := by decide
          omega)
      rw [hdepth]
      unfold Matcher.step
      exact ⟨_, Step.guarded_of_fatal hfatal c⟩
  | none =>
      have hlevels := Matcher.levels_le rank m
      obtain ⟨verdict, hverdict⟩ := Matcher.settles_parse ranked_rules (depthFor c.rest.length)
        a.store.view hpast hm (by omega)
      have hagrees := Matcher.agrees_step regular_rules hregular hfatal
        (depthFor c.rest.length) c
      rw [hverdict] at hagrees
      generalize m.step rules (depthFor c.rest.length) a c = outcome at hagrees ⊢
      cases hagrees with
      | ends | fails | faults => exact ⟨_, rfl⟩

/-- The engine works under a bound that is large enough. -/
theorem depthFor_le_bound (m : Production) (length : Nat) :
    depthFor length ≤ m.bound rules length := by
  have hmul : depthFor length ≤ (length + 2) * (rules.size + m.size + 2) :=
    Nat.mul_le_mul_left _ (by omega)
  unfold Matcher.bound
  omega

end Jsp

namespace Page

variable {source : Text} {file : Option String} {n : Int} {q q' : Progress} {ts : List Token}

/-- There are no more tokens than characters. -/
theorem Cuts.length_le (h : (standard source file n).Cuts q ts q') (hq : q.Steady source) :
    ts.length + q'.rest.length ≤ q.rest.length := by
  induction h with
  | nil => simp
  | cons hrest hnext _ ih =>
      obtain ⟨s, -, hcuts⟩ := next_cutsOff hq hrest hnext
      have hlater := ih hcuts.steady
      have hshorter := hcuts.length_rest_lt
      rw [List.length_cons]
      omega

/-- With more steps than characters all are cut off, however many steps there are. -/
theorem cut_eq_of_lt (hq : q.Steady source) {count count' : Nat} (hcount : q.rest.length < count)
    (hcount' : q.rest.length < count') :
    (standard source file n).cut count q = (standard source file n).cut count' q := by
  induction count generalizing q count' with
  | zero => omega
  | succ count ih =>
      obtain ⟨count', rfl⟩ : ∃ k, count' = k + 1 := ⟨count' - 1, by omega⟩
      unfold cut
      by_cases hrest : q.rest = []
      · rw [if_pos (List.isEmpty_iff.2 hrest), if_pos (List.isEmpty_iff.2 hrest)]
      · rw [if_neg (mt List.isEmpty_iff.1 hrest), if_neg (mt List.isEmpty_iff.1 hrest)]
        cases hnext : (standard source file n).next q with
        | error failure => rfl
        | ok answer =>
            obtain ⟨t, q₁⟩ := answer
            obtain ⟨s, -, hcuts⟩ := next_cutsOff hq hrest hnext
            have hshorter := hcuts.length_rest_lt
            dsimp only
            rw [ih hcuts.steady (show q₁.rest.length < count by omega)
              (show q₁.rest.length < count' by omega)]

end Page

open Jsp (Production Rule rule rules)

/-- Matching with the page grammar comes to an end. Every rule comes to the same outcome, in every
state and at every position of a source, under every bound from one on that the number of characters
left and the size of the grammar give, and that is what the engine comes to. Where trying a matcher
leads back to trying the same matcher, a character has been taken in between. Cutting comes to an
end too: a page has no more tokens than characters, only a fault of the page is a reason to stop
early, and a step for each character and one more is enough. -/
theorem matching_ends :
    (∀ (r : Rule) (source : Text) (position : Nat) (a : Attempt), position ≤ source.length →
      ∃ outcome,
        (∀ depth ≥ Jsp.depthFor (source.length - position),
          (rule r).step rules depth a (Cursor.ofPosition source position) = .ok outcome) ∧
        (rule r).run rules a (Cursor.ofPosition source position) = .ok outcome) ∧
    (∀ (m : Production) (a a' : Attempt) (c c' : Cursor), c.past = 0 →
      Relation.TransGen (Matcher.Tries rules) ⟨m, a, c⟩ ⟨m, a', c'⟩ → c.position < c'.position) ∧
    ∀ (source : Text) (settings : Settings) (file : Option String) (elEnabled : Option Bool),
      let stream := TokenStream.ofSource source settings file elEnabled
      stream.tokens.length ≤ source.length ∧
      (∀ failure, stream.failure = some failure → ∃ e, failure = .error e) ∧
      ∀ count > source.length,
        (Page.standard source file settings.excerptLength).cut count
          (TokenStream.start source (elEnabled.getD settings.elEnabled)) =
            (stream.tokens, stream.failure) := by
  refine ⟨fun r source position a hposition => ?_, fun m a a' c c' hpast hcycle => ?_,
    fun source settings file elEnabled => ?_⟩
  · have hpast : (Cursor.ofPosition source position).past = 0 := Nat.sub_eq_zero_of_le hposition
    have hlength : (Cursor.ofPosition source position).rest.length = source.length - position :=
      List.length_drop
    obtain ⟨outcome, houtcome⟩ := Jsp.exists_outcome (Jsp.regular_rule r) (Jsp.levels_rule r).2 a
      hpast
    refine ⟨outcome, hlength ▸ houtcome, ?_⟩
    exact houtcome _ (Jsp.depthFor_le_bound _ _)
  · exact Matcher.advances_of_transGen Jsp.ranked_rules hpast hcycle
  · intro stream
    obtain ⟨q, hcuts, -⟩ := TokenStream.exists_cuts source settings file elEnabled
    have hstart := TokenStream.steady_start source (elEnabled.getD settings.elEnabled)
    have hlength := hcuts.length_le hstart
    refine ⟨(Nat.le_add_right _ _).trans hlength, fun _ => TokenStream.exists_error,
      fun count hcount => ?_⟩
    obtain ⟨count', hcount', hcut⟩ := TokenStream.exists_steps source settings file elEnabled
    rw [← hcut]
    exact Page.cut_eq_of_lt hstart hcount hcount'

/-- Braces in braces: the rule for them comes back to itself behind the first brace. -/
theorem matching_ends_of_braces :
    let source := "\x7b\x7b\x7d\x7d".toList
    let c : Cursor := ⟨[], source, 0⟩
    let c' : Cursor := ⟨['{'], "\x7b\x7d\x7d".toList, 0⟩
    let a' : Attempt := { store := (({} : Store).begin.begin.begin) }
    0 ≤ source.length ∧ c.past = 0 ∧
      Relation.TransGen (Matcher.Tries rules) ⟨.ref .elBraces, {}, c⟩ ⟨.ref .elBraces, a', c'⟩ ∧
      c.position < c'.position ∧
      ∃ outcome, (rule .elBraces).run rules {} (Cursor.ofPosition source 0) = .ok outcome := by
  intro source c c' a'
  obtain ⟨hrules, hcycles, -⟩ := matching_ends
  have hbody : Relation.TransGen (Matcher.Tries rules) ⟨.ref .elBraces, {}, c⟩
      ⟨Jsp.production .elBraces, {}, c⟩ := .tail (.single (.ref rfl)) .labelled
  have hbraces : Relation.TransGen (Matcher.Tries rules) ⟨.ref .elBraces, {}, c⟩
      ⟨.upTo (.ref .elBodyChar) (Jsp.text "\x7d"), ({} : Attempt).begin, c'⟩ :=
    hbody.tail (.sequence [Jsp.text "\x7b"] [] 1 rfl)
  have hchar : Relation.TransGen (Matcher.Tries rules) ⟨.ref .elBraces, {}, c⟩
      ⟨Jsp.production .elBodyChar, ({} : Attempt).begin.begin, c'⟩ :=
    ((hbraces.tail (.upTo 1 .refl rfl)).tail (.ref rfl)).tail .labelled
  have hcycle : Relation.TransGen (Matcher.Tries rules) ⟨.ref .elBraces, {}, c⟩
      ⟨.ref .elBraces, a', c'⟩ :=
    hchar.tail (.oneOf [.ref Rule.elString] _ 10 rfl)
  obtain ⟨outcome, -, houtcome⟩ := hrules .elBraces source 0 {} (Nat.zero_le _)
  exact ⟨Nat.zero_le _, rfl, hcycle, hcycles _ _ _ _ _ rfl hcycle, outcome, houtcome⟩

end Stencil
