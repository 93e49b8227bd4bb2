import Stencil.Proofs.Matcher.Moving

/-!
# Readings come to an end

Under a bound that is large enough a reading comes to a verdict. How large it must be is seen from
the way the rules are built. A matcher nests so many levels deep, a reference to a rule counting as
the rank of the rule and one more (`Matcher.levels`). Where a reading has taken a character it may
nest as deep again, so that between two characters only the levels count that are reached before a
fixed text is read. Rules that refer to rules of a lower rank there, and whose matchers all nest at
most `K` levels deep, settle `n` characters in `(n + 1) * K` levels and those of the matcher itself
(`Matcher.settles_parse`).
-/

set_option autoImplicit false

namespace Stencil.Matcher

variable {ν : Type}

/-- A fixed text, behind which the text is shorter for sure. -/
def isLiteral : Matcher ν → Bool
  | literal _ _ => true
  | _ => false

mutual

/-- How many levels deep a matcher nests, given the ranks of the rules: all of them, or those only
that it reaches before it has read a fixed text. -/
def levels (rank : ν → Nat) (all : Bool) : Matcher ν → Nat
  | literal _ _ => 1
  | pattern _ => 1
  | sequence parts => levelsInTurn rank all parts + 1
  | oneOf choices => levelsOfAll rank all choices + 1
  | maybe body => body.levels rank all + 1
  | many body => body.levels rank all + 1
  | upTo body terminator => max (body.levels rank all) (terminator.levels rank all) + 1
  | when _ body => body.levels rank all + 1
  | whenElse _ body otherwise => max (body.levels rank all) (otherwise.levels rank all) + 1
  | ref name => rank name + 1
  | labelled _ body => body.levels rank all + 1
  | hooked _ _ body => body.levels rank all + 1

/-- The levels of parts one behind the other. -/
def levelsInTurn (rank : ν → Nat) (all : Bool) : List (Matcher ν) → Nat
  | [] => 0
  | m :: ms =>
    max (m.levels rank all) (if all || !m.isLiteral then levelsInTurn rank all ms else 0)

/-- The levels of choices. -/
def levelsOfAll (rank : ν → Nat) (all : Bool) : List (Matcher ν) → Nat
  | [] => 0
  | m :: ms => max (m.levels rank all) (levelsOfAll rank all ms)

end

variable {K depth : Nat} {rules : Rules ν} (rank : ν → Nat)

mutual

/-- What is reached before a fixed text is read is among all that is reached. -/
theorem levels_le (m : Matcher ν) : m.levels rank false ≤ m.levels rank true := by
  match m with
  | literal _ _ | pattern _ | ref _ => simp [levels]
  | sequence parts => simpa [levels] using levelsInTurn_le parts
  | oneOf choices => simpa [levels] using levelsOfAll_le choices
  | maybe body | many body | when _ body | labelled _ body | hooked _ _ body =>
      simpa [levels] using levels_le body
  | upTo body terminator =>
      have := levels_le body
      have := levels_le terminator
      simp only [levels]
      omega
  | whenElse _ body otherwise =>
      have := levels_le body
      have := levels_le otherwise
      simp only [levels]
      omega

/-- The same of parts one behind the other. -/
theorem levelsInTurn_le (ms : List (Matcher ν)) :
    levelsInTurn rank false ms ≤ levelsInTurn rank true ms := by
  match ms with
  | [] => simp [levelsInTurn]
  | m :: ms =>
      have := levels_le m
      have := levelsInTurn_le ms
      simp only [levelsInTurn, Bool.true_or, if_true]
      split <;> omega

/-- The same of choices. -/
theorem levelsOfAll_le (ms : List (Matcher ν)) :
    levelsOfAll rank false ms ≤ levelsOfAll rank true ms := by
  match ms with
  | [] => simp [levelsOfAll]
  | m :: ms =>
      have := levels_le m
      have := levelsOfAll_le ms
      simp only [levelsOfAll]
      omega

end

/-- Every matcher is a level of its own. -/
theorem one_le_levels (all : Bool) (m : Matcher ν) : 1 ≤ m.levels rank all := by
  cases m <;> simp [levels]

/-- Under a bound every matcher of at most `K` levels comes to a verdict, as far as the bound has
room for its levels and for `K` levels more for each of the characters. -/
def Settles (rules : Rules ν) (rank : ν → Nat) (K depth : Nat) : Prop :=
  ∀ ⦃m : Matcher ν⦄ (view : View) ⦃c : Cursor⦄, c.past = 0 → m.levels rank true ≤ K →
    (c.rest.length + 1) * K + m.levels rank false ≤ depth →
      ∃ verdict, m.parse rules depth view c = .ok verdict

variable {rank}

/-- What is left behind a match is not longer than what was there. -/
theorem length_rest_le {m : Matcher ν} {view view' : View} {c stop : Cursor} (hpast : c.past = 0)
    (h : m.parse rules depth view c = .ok (.ends stop view')) :
    stop.past = 0 ∧ stop.rest.length ≤ c.rest.length ∧
      (stop.position ≠ c.position → stop.rest.length < c.rest.length) := by
  obtain ⟨t, hleads⟩ := Parses.moves ⟨depth, h⟩
  have hlength := congrArg List.length hleads.rest_eq
  have hoffset := hleads.offset_eq
  have hpast' := hleads.past_eq hpast
  rw [List.length_append] at hlength
  refine ⟨hpast', by omega, fun hmoves => ?_⟩
  simp only [Cursor.position, hpast, hpast'] at hmoves
  omega

section Settles

variable {view : View} {c : Cursor}

/-- A smaller number of characters leaves room for `K` levels. -/
theorem mul_add_le {n n' l : Nat} (hlt : n' < n) (hl : l ≤ K) (hdepth : (n + 1) * K ≤ depth) :
    (n' + 1) * K + l ≤ depth := by
  have hmul : (n' + 1) * K ≤ n * K := Nat.mul_le_mul_right K hlt
  rw [Nat.succ_mul] at hdepth
  omega

/-- A bound with room for more characters and levels has room for fewer. -/
theorem mul_add_le_of_le {n n' l l' : Nat} (hle : n' ≤ n) (hl : l' ≤ l)
    (hdepth : (n + 1) * K + l ≤ depth) : (n' + 1) * K + l' ≤ depth := by
  have hmul : (n' + 1) * K ≤ (n + 1) * K := Nat.mul_le_mul_right K (by omega)
  omega

/-- A sequence comes to a verdict under a bound with room for its parts. -/
theorem Settles.sequence (h : Settles rules rank K depth) {parts : List (Matcher ν)}
    (hpast : c.past = 0) (hK : levelsInTurn rank true parts ≤ K)
    (hdepth : (c.rest.length + 1) * K + levelsInTurn rank false parts ≤ depth) :
    ∃ verdict, Parse.sequence (parts.map (parse rules depth)) view c = .ok verdict := by
  induction parts generalizing view c with
  | nil => exact ⟨_, rfl⟩
  | cons m ms ih =>
      simp only [levelsInTurn, Bool.true_or, if_true, Bool.false_or] at hK hdepth
      obtain ⟨verdict, hfirst⟩ := h view hpast (show m.levels rank true ≤ K by omega)
        (mul_add_le_of_le le_rfl (Nat.le_max_left _ _) hdepth)
      rw [List.map_cons, Parse.sequence]
      dsimp only
      rw [hfirst]
      cases verdict with
      | fails => exact ⟨_, rfl⟩
      | faults f => exact ⟨_, rfl⟩
      | ends stop view' =>
          obtain ⟨hpast', hle, -⟩ := length_rest_le hpast hfirst
          have hms : levelsInTurn rank true ms ≤ K := by omega
          refine ih hpast' hms ?_
          cases m with
          | literal text nonempty =>
              -- a fixed text makes room for the levels of all that follows
              have hleads := leads_of_parses_literal ⟨depth, hfirst⟩
              have hlength := congrArg List.length hleads.rest_eq
              have hpos : 0 < text.length := List.length_pos_iff.2 nonempty
              rw [List.length_append] at hlength
              exact mul_add_le (show stop.rest.length < c.rest.length by omega)
                ((levelsInTurn_le rank ms).trans hms) ((Nat.le_add_right _ _).trans hdepth)
          | _ => exact mul_add_le_of_le hle (Nat.le_max_right _ _) hdepth

/-- A choice comes to a verdict under a bound with room for its alternatives. -/
theorem Settles.oneOf (h : Settles rules rank K depth) {choices : List (Matcher ν)}
    (hpast : c.past = 0) (hK : levelsOfAll rank true choices ≤ K)
    (hdepth : (c.rest.length + 1) * K + levelsOfAll rank false choices ≤ depth) :
    ∃ verdict, Parse.oneOf (choices.map (parse rules depth)) view c = .ok verdict := by
  induction choices with
  | nil => exact ⟨_, rfl⟩
  | cons m ms ih =>
      simp only [levelsOfAll] at hK hdepth
      obtain ⟨verdict, hfirst⟩ := h view hpast (show m.levels rank true ≤ K by omega)
        (mul_add_le_of_le le_rfl (Nat.le_max_left _ _) hdepth)
      have hothers := ih (show levelsOfAll rank true ms ≤ K by omega)
        (mul_add_le_of_le le_rfl (Nat.le_max_right _ _) hdepth)
      rw [List.map_cons, Parse.oneOf]
      dsimp only
      rw [hfirst]
      cases verdict with
      | fails => exact hothers
      | ends stop view' => exact ⟨_, rfl⟩
      | faults f => exact ⟨_, rfl⟩

/-- Rounds of a repetition settle if there are more of them than characters. -/
theorem Settles.more (h : Settles rules rank K depth) {body : Matcher ν} (hpast : c.past = 0)
    (hK : body.levels rank true ≤ K)
    (hdepth : (c.rest.length + 1) * K + body.levels rank false ≤ depth) {count : Nat}
    (hcount : c.rest.length < count) :
    ∃ verdict, Parse.more (body.parse rules depth) count view c = .ok verdict := by
  induction count generalizing view c with
  | zero => omega
  | succ count ih =>
      obtain ⟨verdict, hfirst⟩ := h view hpast hK hdepth
      unfold Parse.more
      rw [hfirst]
      cases verdict with
      | fails => exact ⟨_, rfl⟩
      | faults f => exact ⟨_, rfl⟩
      | ends stop view' =>
          obtain ⟨hpast', hle, hlt⟩ := length_rest_le hpast hfirst
          dsimp only
          split
          · exact ⟨_, rfl⟩
          · rename_i hmoves
            have hlt := hlt hmoves
            exact ih hpast' (mul_add_le_of_le hle le_rfl hdepth) (by omega)

/-- A repetition up to a terminator comes to a verdict under a bound with room for its body and the
terminator, and with more rounds than characters. -/
theorem Settles.upTo (h : Settles rules rank K depth) {body terminator : Matcher ν}
    (hpast : c.past = 0) (hbody : body.levels rank true ≤ K)
    (hterminator : terminator.levels rank true ≤ K)
    (hdepth : (c.rest.length + 1) * K +
      max (body.levels rank false) (terminator.levels rank false) ≤ depth)
    {count : Nat} (hcount : c.rest.length < count) :
    ∃ verdict, Parse.upTo (body.parse rules depth) (terminator.parse rules depth) count view c =
      .ok verdict := by
  induction count generalizing view c with
  | zero => omega
  | succ count ih =>
      obtain ⟨ending, hending⟩ := h view hpast hterminator
        (mul_add_le_of_le le_rfl (Nat.le_max_right _ _) hdepth)
      obtain ⟨verdict, hfirst⟩ := h view hpast hbody
        (mul_add_le_of_le le_rfl (Nat.le_max_left _ _) hdepth)
      unfold Parse.upTo
      rw [hending]
      cases ending with
      | ends stop view' => exact ⟨_, rfl⟩
      | faults f => exact ⟨_, rfl⟩
      | fails =>
          dsimp only
          split
          · exact ⟨_, rfl⟩
          rw [hfirst]
          cases verdict with
          | fails => exact ⟨_, rfl⟩
          | faults f => exact ⟨_, rfl⟩
          | ends stop view' =>
              obtain ⟨hpast', hle, hlt⟩ := length_rest_le hpast hfirst
              dsimp only
              split
              · exact ⟨_, rfl⟩
              · rename_i hmoves
                have hlt := hlt hmoves
                exact ih hpast' (mul_add_le_of_le hle le_rfl hdepth) (by omega)

end Settles

/-- The rules have matchers of at most `K` levels, and refer to rules of a lower rank before they
have read a fixed text. -/
structure Ranked (rules : Rules ν) (rank : ν → Nat) (K : Nat) : Prop where
  body : ∀ r, ∃ m, rules.body r = some m ∧ m.levels rank false ≤ rank r ∧ m.levels rank true ≤ K

/-- Where every reading settles under a bound, it does under the next one. -/
theorem Settles.succ (hrules : Ranked rules rank K) (h : Settles rules rank K depth) :
    Settles rules rank K (depth + 1) := by
  intro m view c hpast hK hdepth
  -- a repetition may go as many rounds as it has levels left, which are more than characters
  have hrounds : ∀ l, l + 1 ≤ K → (c.rest.length + 1) * K + (l + 1) ≤ depth + 1 →
      c.rest.length < depth := by
    intro l hl hle
    have hmul : (c.rest.length + 1) * 1 ≤ (c.rest.length + 1) * K :=
      Nat.mul_le_mul_left _ (by omega)
    omega
  unfold parse
  cases m with
  | literal text nonempty => exact ⟨_, rfl⟩
  | pattern p => exact ⟨_, rfl⟩
  | sequence parts =>
      simp only [levels] at hK hdepth
      exact h.sequence hpast (by omega) (by omega)
  | oneOf choices =>
      simp only [levels] at hK hdepth
      exact h.oneOf hpast (by omega) (by omega)
  | maybe body =>
      simp only [levels] at hK hdepth
      obtain ⟨verdict, hbody⟩ := h view hpast (show body.levels rank true ≤ K by omega)
        (by omega)
      cases verdict <;> simp [Parse.maybe, hbody]
  | many body =>
      simp only [levels] at hK hdepth
      have hlevels := one_le_levels rank false body
      obtain ⟨verdict, hbody⟩ := h view hpast (show body.levels rank true ≤ K by omega)
        (by omega)
      cases verdict with
      | fails => exact ⟨.fails, by simp [Parse.many, hbody]⟩
      | faults f => exact ⟨.faults f, by simp [Parse.many, hbody]⟩
      | ends stop view' =>
          obtain ⟨hpast', hle, -⟩ := length_rest_le hpast hbody
          have hcount := hrounds (body.levels rank false)
            (by have := levels_le rank body; omega) hdepth
          simp only [Parse.many, hbody]
          split
          · exact ⟨_, rfl⟩
          · exact h.more hpast' (show body.levels rank true ≤ K by omega)
              (mul_add_le_of_le hle le_rfl (Nat.le_of_succ_le_succ hdepth)) (by omega)
  | upTo body terminator =>
      simp only [levels] at hK hdepth
      have hcount := hrounds _
        (by have := levels_le rank body
            have := levels_le rank terminator
            omega) hdepth
      exact h.upTo hpast (by omega) (by omega) (by omega) hcount
  | when test body =>
      simp only [levels] at hK hdepth
      dsimp only
      split
      · exact h (view.ask test) hpast (by omega) (by omega)
      · exact ⟨_, rfl⟩
  | whenElse test body otherwise =>
      simp only [levels] at hK hdepth
      dsimp only
      split
      · exact h (view.ask test) hpast (by omega) (by omega)
      · exact h (view.ask test) hpast (by omega) (by omega)
  | ref name =>
      simp only [levels] at hK hdepth
      obtain ⟨body, hbody, hrank, hlevels⟩ := hrules.body name
      simp only [hbody]
      exact h view hpast hlevels (by omega)
  | labelled label body =>
      simp only [levels] at hK hdepth
      exact h view hpast (by omega) (by omega)
  | hooked onEntry onMatch body =>
      simp only [levels] at hK hdepth
      obtain ⟨verdict, hbody⟩ := h (view.enter onEntry) hpast
        (show body.levels rank true ≤ K by omega) (by omega)
      cases verdict with
      | fails => exact ⟨.fails, by simp [Parse.hooked, hbody]⟩
      | faults f => exact ⟨.faults f, by simp [Parse.hooked, hbody]⟩
      | ends stop view' =>
          simp only [Parse.hooked, hbody]
          split <;> exact ⟨_, rfl⟩

/-- Under a bound with room for its levels, and for `K` levels more for each of the characters and
once more, a reading comes to a verdict. -/
theorem settles_parse (hrules : Ranked rules rank K) (depth : Nat) :
    Settles rules rank K depth := by
  induction depth with
  | zero =>
      intro m view c hpast hK hdepth
      have := one_le_levels rank false m
      omega
  | succ depth ih => exact ih.succ hrules

end Stencil.Matcher
