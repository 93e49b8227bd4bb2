import Stencil.Proofs.Jsp.Progress
import Stencil.Proofs.Matcher.Parsing

/-!
# Matches that take no character

A match never leads back and never past the end of the source. It takes no character only if the
matcher is nullable, and that is seen from the way the matcher is built. Labels and hooks do not
count for it, so that a fixed text, a pattern or a repetition takes a character wherever it matches,
whatever it carries and whatever it contains. The same holds of every rule of the page grammar.
-/

set_option autoImplicit false

namespace Stencil

namespace Matcher

variable {ν : Type} {rules : Rules ν}

/-- Labels and hooks do not make a matcher nullable. -/
theorem nullable_bare_iff : ∀ m : Matcher ν, m.bare.Nullable rules ↔ m.Nullable rules
  | labelled _ body => by rw [bare, nullable_labelled_iff, nullable_bare_iff body]
  | hooked _ _ body => by rw [bare, nullable_hooked_iff, nullable_bare_iff body]
  | literal _ _ | pattern _ | sequence _ | oneOf _ | maybe _ | many _ | upTo _ _ | when _ _
  | whenElse _ _ _ | ref _ => Iff.rfl

/-- A fixed text, a pattern or a repetition, whatever labels and hooks it carries. -/
def IsTaking (m : Matcher ν) : Prop :=
  (∃ text nonempty, m.bare = literal text nonempty) ∨ (∃ p, m.bare = pattern p) ∨
    ∃ body, m.bare = many body

/-- Fixed texts, patterns and repetitions are not nullable. -/
theorem IsTaking.not_nullable {m : Matcher ν} (h : m.IsTaking) : ¬m.Nullable rules := by
  rw [← nullable_bare_iff]
  rcases h with ⟨text, nonempty, h⟩ | ⟨p, h⟩ | ⟨body, h⟩ <;> simp [h]

variable (rules) in
/-- A matcher that takes a character wherever it matches inside a source. -/
def TakesCharacters (m : Matcher ν) : Prop :=
  ∀ ⦃source position depth a stop a'⦄, position ≤ source.length →
    m.step rules depth a (.ofPosition source position) = .ok (some stop, a') →
      position < stop.position

/-- A match that starts inside a source ends at a place of the source that is not before its start,
and at its start only if the matcher is nullable. -/
theorem within_of_step {m : Matcher ν} {source : Text} {position depth : Nat} {a a' : Attempt}
    {stop : Cursor} (hposition : position ≤ source.length)
    (h : m.step rules depth a (.ofPosition source position) = .ok (some stop, a')) :
    stop.Within source ∧ position ≤ stop.position ∧
      (stop.position = position → m.Nullable rules) := by
  have hwithin := within_of_step_some (Cursor.within_ofPosition hposition) h
  rw [Cursor.offset_ofPosition hposition] at hwithin
  obtain ⟨hstop, hle, hstay⟩ := hwithin
  rw [hstop.position_eq]
  exact ⟨hstop, hle, hstay⟩

/-- A matcher that is not nullable takes a character wherever it matches inside a source. -/
theorem takesCharacters_of_not_nullable {m : Matcher ν} (h : ¬m.Nullable rules) :
    m.TakesCharacters rules := by
  intro source position depth a stop a' hposition hstep
  obtain ⟨-, hle, hstay⟩ := within_of_step hposition hstep
  exact lt_of_le_of_ne hle fun heq => h (hstay heq.symm)

/-- A match that starts inside a source ends at a place of the source that is not before its start,
and behind its start unless the matcher is nullable. Hence a fixed text, a pattern or a repetition
takes a character wherever it matches, whatever it contains, and so does every rule of the page
grammar. -/
theorem match_leads_ahead (rules : Rules ν) :
    (∀ (m : Matcher ν) (source : Text) (position depth : Nat) (a a' : Attempt) (stop : Cursor),
      position ≤ source.length →
      m.step rules depth a (.ofPosition source position) = .ok (some stop, a') →
        stop.Within source ∧ position ≤ stop.position ∧ stop.position ≤ source.length ∧
          (¬m.Nullable rules → position < stop.position)) ∧
    (∀ m : Matcher ν, m.IsTaking → m.TakesCharacters rules) ∧
    ∀ r, (Jsp.rule r).TakesCharacters Jsp.rules := by
  refine ⟨?_, ?_, ?_⟩
  · intro m source position depth a a' stop hposition h
    obtain ⟨hwithin, hle, -⟩ := within_of_step hposition h
    refine ⟨hwithin, hle, ?_, fun hnot => takesCharacters_of_not_nullable hnot hposition h⟩
    rw [hwithin.position_eq]
    exact hwithin.offset_le
  · exact fun m hm => takesCharacters_of_not_nullable hm.not_nullable
  · exact fun r => takesCharacters_of_not_nullable (Jsp.not_nullable_rule r)

/-- A rule for nested parentheses, which may be nothing at all, is nullable: in front of a letter it
takes no character. Repeated up to a semicolon it takes some. -/
theorem match_leads_ahead_of_recursive :
    let nest : Matcher Unit := .maybe (.sequence [.literal ['('], .ref (), .literal [')']])
    let rules : Rules Unit := ⟨fun _ => some nest, fun _ => "nest", nest.size⟩
    let source := "x();".toList
    let m := Matcher.upTo (.ref ()) (.literal [';'])
    ∃ a stop, 1 ≤ source.length ∧
      m.step rules 9 {} (.ofPosition source 1) = .ok (some stop, a) ∧ stop.position = 4 ∧
      ¬m.Nullable rules ∧ 1 < stop.position ∧
      nest.Nullable rules ∧
        nest.step rules 3 {} (.ofPosition source 0) = .ok (some ⟨[], source, 0⟩, {}) := by
  intro nest rules source m
  have hstart : 1 ≤ source.length := by decide
  have hnot : ¬m.Nullable rules := by simp [m]
  have hrun : m.step rules 9 {} (.ofPosition source 1) = .ok (some ⟨source.reverse, [], 0⟩, {}) :=
    rfl
  obtain ⟨-, -, -, hahead⟩ := (match_leads_ahead rules).1 m source 1 9 {} {} _ hstart hrun
  exact ⟨{}, _, hstart, hrun, rfl, hnot, hahead hnot, .maybe _, rfl⟩

end Matcher

end Stencil
