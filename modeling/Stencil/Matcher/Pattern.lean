import Stencil.Matcher.Cursor

/-!
# Patterns

A pattern says how many characters it takes at a place of a text. It may look at what follows
without taking it, and it may look back at the text in front of the place. The patterns of this
library are one character, a run of characters of a class, a character of one class and a run of
another, and fixed texts; none of them looks back.
-/

set_option autoImplicit false

namespace Stencil

/-- A recogniser at a place of a text. -/
structure Pattern where
  /-- How the pattern is shown in a description. -/
  label : String
  /-- How many characters the pattern takes behind some text, whose nearest character comes first,
  and in front of another, if it matches there. -/
  width : Text → Text → Option Nat
  /-- A pattern takes no more characters than follow. -/
  width_le : ∀ front t n, width front t = some n → n ≤ t.length

namespace Pattern

/-- A pattern that does not look back. -/
def LooksAhead (p : Pattern) : Prop := ∀ front front' t, p.width front t = p.width front' t

/-- The place behind a pattern, if it matches here. A match that takes no character is refused, but
past the end of the text it leads back to the end. -/
def after? (p : Pattern) (c : Cursor) : Option Cursor :=
  match p.width c.front c.rest with
  | none => none
  | some 0 => if c.past = 0 then none else some { c with past := 0 }
  | some (n + 1) => some (c.advance (n + 1))

/-- One character that is admitted in front of what follows it. -/
def charBefore (label : String) (admits : Char → Text → Bool) : Pattern where
  label
  width
    | _, [] => none
    | _, c :: t => if admits c t then some 1 else none
  width_le := by
    rintro front (_ | ⟨c, t⟩) n h
    · simp at h
    · simp only [Option.ite_none_right_eq_some, Option.some.injEq] at h
      simp [← h.2]

/-- One character of a class. -/
def char (label : String) (isMember : Char → Bool) : Pattern :=
  charBefore label fun c _ => isMember c

/-- As many characters of a class as there are, possibly none. -/
def run (label : String) (isMember : Char → Bool) : Pattern where
  label
  width _ t := some (t.takeWhile isMember).length
  width_le := by
    intro _ t n h
    simp only [Option.some.injEq] at h
    exact h ▸ (List.takeWhile_sublist isMember).length_le

/-- A character of one class and as many of another as follow. -/
def word (label : String) (isFirst isLater : Char → Bool) : Pattern where
  label
  width
    | _, [] => none
    | _, c :: t => if isFirst c then some ((t.takeWhile isLater).length + 1) else none
  width_le := by
    rintro front (_ | ⟨c, t⟩) n h
    · simp at h
    · simp only [Option.ite_none_right_eq_some, Option.some.injEq] at h
      simpa [← h.2] using (List.takeWhile_sublist isLater).length_le

/-- One or more characters of a class. -/
def run1 (label : String) (isMember : Char → Bool) : Pattern := word label isMember isMember

/-- A fixed text, in front of a text that meets a condition. -/
def textBefore (label : String) (text : Text) (ahead : Text → Bool) : Pattern where
  label
  width _ t :=
    match Text.after? text t with
    | none => none
    | some rest => if ahead rest then some text.length else none
  width_le := by
    intro _ t n h
    split at h
    · simp at h
    · rename_i rest hr
      simp only [Option.ite_none_right_eq_some, Option.some.injEq] at h
      rw [Text.after?_eq_some_iff] at hr
      simp [hr, ← h.2]

/-- A fixed text, as many characters of a class as follow, and another fixed text behind them. -/
def around (label : String) (first : Text) (isMember : Char → Bool) (last : Text) : Pattern where
  label
  width _ t :=
    match Text.after? first t with
    | none => none
    | some rest =>
      match Text.after? last (rest.dropWhile isMember) with
      | none => none
      | some _ => some (first.length + (rest.takeWhile isMember).length + last.length)
  width_le := by
    intro _ t n h
    split at h
    · simp at h
    · rename_i rest hr
      split at h
      · simp at h
      · rename_i rest' hr'
        rw [Text.after?_eq_some_iff] at hr hr'
        have split := congrArg List.length (@List.takeWhile_append_dropWhile _ isMember rest)
        simp only [Option.some.injEq] at h
        simp only [hr', List.length_append] at split
        simp only [hr, List.length_append, ← h]
        omega

end Pattern

end Stencil
