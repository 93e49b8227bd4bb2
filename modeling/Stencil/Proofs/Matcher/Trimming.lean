import Stencil.Proofs.Matcher.Unfolding

/-!
# Cutting a text off

What matchers make of a text whose end is cut off. A match that ends in front of the cut is not
always found again: a repetition takes what it can get, and what an earlier alternative took behind
the cut a later one may now take in front of it. Three properties tell the matchers apart.

* A matcher `Survives` if its matches in front of the cut are found again. What is asked of the text
  between the match and the cut is a parameter, since a repetition has to stop there.
* A matcher `Perishes` if it fails in front of the cut where it failed before or ended behind it.
  An alternative has to, or the ones after it would not be tried any more.
* A matcher is `Tame` if it never comes as far as the cut, so that nothing changes at all. Such are
  the matchers of texts without the characters that may stand in front of the cut.

Rules may be recursive, so the first two carry a bound on the length of the text that is left, which
gets smaller behind a match. This module says which of the properties fixed texts and patterns have;
those of other matchers follow from their parts.
-/

set_option autoImplicit false

namespace Stencil

/-- How a text is cut off. -/
structure Trim (ν : Type) where
  /-- The rules that read the text. -/
  rules : Rules ν
  /-- What is cut off. -/
  behind : Text
  /-- The characters that may stand in front of the cut. -/
  closes : Char → Bool
  /-- The maps that the rules do not tell apart. -/
  Alike : View → View → Prop

/-- A place of a text, and the same place of what is left of the text. -/
structure Trim.At {ν : Type} (K : Trim ν) (c c' : Cursor) : Prop where
  rest_eq : c.rest = c'.rest ++ K.behind
  past_eq : c.past = 0
  past_eq' : c'.past = 0
  closed : ∀ x ∈ c'.rest.getLast?, K.closes x = true

namespace Trim

open Matcher

variable {ν : Type} {K : Trim ν} {c c' d d' stop : Cursor} {t t' r : Text}

/-! ## Places -/

namespace At

/-- What leads to a place in front of the cut leads there too when the rest is cut off. -/
theorem leads (h : K.At c c') (hleads : c.Leads t d) (hd : d.rest = r ++ K.behind) :
    ∃ d', d'.rest = r ∧ c'.Leads t d' ∧ K.At d d' := by
  have hsplit : c'.rest = t ++ r := by
    apply (List.append_left_inj K.behind).1
    rw [← h.rest_eq, hleads.rest_eq, hd, List.append_assoc]
  refine ⟨⟨t.reverse ++ c'.front, r, 0⟩, rfl, ⟨hsplit, rfl, fun _ => rfl⟩, hd, ?_, rfl, ?_⟩
  · exact hleads.past_eq h.past_eq
  · intro x hx
    have hne : r ≠ [] := by
      rintro rfl
      cases hx
    exact h.closed x (by rwa [hsplit, List.getLast?_append_of_ne_nil _ hne])

/-- A place behind another one lies in front of the cut or behind it. -/
theorem within_or_beyond (h : K.At c c') (hleads : c.Leads t d) :
    (∃ r, d.rest = r ++ K.behind) ∨ d.rest.length < K.behind.length := by
  have hsplit : t ++ d.rest = c'.rest ++ K.behind := by rw [← hleads.rest_eq, h.rest_eq]
  rcases List.append_eq_append_iff.1 hsplit with ⟨r, -, hr⟩ | ⟨v, -, hv⟩
  · exact .inl ⟨r, hr⟩
  · cases v with
    | nil => exact .inl ⟨[], hv.symm⟩
    | cons x v =>
        refine .inr ?_
        rw [hv]
        simp

/-- A match that ends in front of the cut does not end behind it. -/
theorem not_beyond (hd : d.rest = r ++ K.behind) : ¬d.rest.length < K.behind.length := by
  rw [hd, List.length_append]
  omega

/-- The same text lies in front of two places and in front of what is left of them. -/
theorem text_eq (h : K.At c c') (hd : K.At d d') (hleads : c.Leads t d) (hleads' : c'.Leads t' d') :
    t = t' := by
  apply (List.append_left_inj d.rest).1
  rw [← hleads.rest_eq, h.rest_eq, hleads'.rest_eq, hd.rest_eq, List.append_assoc]

/-- A place and the same place in front of the cut have the same character, if the cut is not there.
-/
theorem head?_eq (h : K.At c c') (hne : c'.rest ≠ []) : c.rest.head? = c'.rest.head? := by
  obtain ⟨x, t, heq⟩ := List.exists_cons_of_ne_nil hne
  rw [h.rest_eq, heq]
  rfl

/-- A text whose last character alone may stand in front of the cut does not lie across it. -/
theorem rest_eq_nil (h : K.At c c') (hleads : c.Leads t d)
    (hbeyond : d.rest.length < K.behind.length) (ht : ∀ x ∈ t.dropLast, K.closes x = false) :
    c'.rest = [] := by
  by_contra hne
  have hsplit : t ++ d.rest = c'.rest ++ K.behind := by rw [← hleads.rest_eq, h.rest_eq]
  rcases List.append_eq_append_iff.1 hsplit with ⟨r, -, hr⟩ | ⟨v, hv, hbehind⟩
  · exact not_beyond hr hbeyond
  · -- what is left ends inside of the text
    have hlast := List.getLast?_eq_some_getLast hne
    have hv' : v ≠ [] := by
      rintro rfl
      rw [hbehind] at hbeyond
      exact absurd hbeyond (lt_irrefl _)
    have hmem : c'.rest.getLast hne ∈ t.dropLast := by
      rw [hv, List.dropLast_append_of_ne_nil hv']
      exact List.mem_append_left _ (List.getLast_mem hne)
    have hcloses := h.closed _ hlast
    rw [ht _ hmem] at hcloses
    cases hcloses

/-- A text without the characters that may stand in front of the cut ends in front of them. -/
theorem rest_ne_nil (h : K.At c c') (hne : c'.rest ≠ []) (hleads : c.Leads t d)
    (ht : ∀ x ∈ t, K.closes x = false) : ∃ r, r ≠ [] ∧ d.rest = r ++ K.behind := by
  rcases h.within_or_beyond hleads with ⟨r, hr⟩ | hbeyond
  · refine ⟨r, ?_, hr⟩
    rintro rfl
    obtain ⟨d', hd', hleads', -⟩ := h.leads hleads hr
    have hsplit : c'.rest = t := by rw [hleads'.rest_eq, hd', List.append_nil]
    have hlast := List.getLast?_eq_some_getLast hne
    have hcloses := h.closed _ hlast
    rw [ht _ (hsplit ▸ List.getLast_mem hne)] at hcloses
    cases hcloses
  · exact absurd (h.rest_eq_nil hleads hbeyond fun x hx => ht x (List.mem_of_mem_dropLast hx)) hne

/-- Passing characters in front of the cut leads to the same place with and without it. -/
theorem advance {k : Nat} (h : K.At c c') (hle : k ≤ c'.rest.length) :
    K.At (c.advance k) (c'.advance k) := by
  have hleads : c.Leads (c'.rest.take k) (c.advance k) := by
    have hadvance := Cursor.leads_advance c k
    rwa [h.rest_eq, List.take_append_of_le_length hle] at hadvance
  have hdrop : (c.advance k).rest = (c'.advance k).rest ++ K.behind := by
    simp only [Cursor.advance]
    rw [h.rest_eq, List.drop_append_of_le_length hle]
  obtain ⟨d', hd', -, hat⟩ := h.leads hleads hdrop
  exact ⟨hdrop, hat.past_eq, h.past_eq', hd' ▸ hat.closed⟩

end At

end Trim

/-! ## The first character -/

namespace Matcher

variable {ν : Type} {rules : Rules ν} {m body terminator : Matcher ν} {p q : Char → Bool}

/-- A matcher that fails where the text does not start with a character of a class. -/
def Misses (rules : Rules ν) (p : Char → Bool) (m : Matcher ν) : Prop :=
  ∀ ⦃view c⦄, c.past = 0 → (∀ x ∈ c.rest.head?, p x = false) → m.Parses rules view c .fails

/-- What needs a first character of a class needs one of every larger class. -/
theorem Misses.mono (h : Misses rules p m) (hle : ∀ x, p x = true → q x = true) :
    Misses rules q m := by
  intro view c hpast hhead
  refine h hpast fun x hx => ?_
  rw [← Bool.not_eq_true]
  intro hp
  have hq := hhead x hx
  rw [hle x hp] at hq
  cases hq

/-- A fixed text fails where its first character does not stand. -/
theorem misses_literal {text : Text} {nonempty : text ≠ []} (h : text.head?.any p = true) :
    Misses rules p (literal text nonempty) := by
  intro view c hpast hhead
  rw [parses_literal_iff]
  cases hafter : c.after? text with
  | none => rfl
  | some stop =>
      obtain ⟨x, t, rfl⟩ := List.exists_cons_of_ne_nil nonempty
      have hrest := (Cursor.leads_after? hafter).rest_eq
      have hp := hhead x (by rw [hrest]; rfl)
      rw [show p x = true from h] at hp
      cases hp

/-- A pattern for one character fails where no such character stands. -/
theorem misses_charBefore {label : String} {admits : Char → Text → Bool}
    (h : ∀ x t, admits x t = true → p x = true) :
    Misses rules p (pattern (.charBefore label admits)) := by
  intro view c hpast hhead
  rw [parses_pattern_iff]
  cases hrest : c.rest with
  | nil => simp [Pattern.ahead?, Pattern.charBefore, hrest, Verdict.ofStop]
  | cons x t =>
      have hadmits : admits x t = false := by
        rw [← Bool.not_eq_true]
        intro hadmits
        have hp := hhead x (by rw [hrest]; rfl)
        rw [h x t hadmits] at hp
        cases hp
      simp [Pattern.ahead?, Pattern.charBefore, hrest, hadmits, Verdict.ofStop]

/-- A word fails where no first character of a word stands. -/
theorem misses_word {label : String} {isLater : Char → Bool} :
    Misses rules p (pattern (.word label p isLater)) := by
  intro view c hpast hhead
  rw [parses_pattern_iff]
  cases hrest : c.rest with
  | nil => simp [Pattern.ahead?, Pattern.word, hrest, Verdict.ofStop]
  | cons x t =>
      have hp := hhead x (by rw [hrest]; rfl)
      simp [Pattern.ahead?, Pattern.word, hrest, hp, Verdict.ofStop]

/-- A sequence fails where its first part does. -/
theorem Misses.sequence_cons (h : Misses rules p m) (ms : List (Matcher ν)) :
    Misses rules p (sequence (m :: ms)) :=
  fun _ _ hpast hhead => parses_sequence_cons_iff.2 (.inr ⟨h hpast hhead, nofun⟩)

/-- An empty choice fails everywhere. -/
theorem misses_oneOf_nil : Misses rules p (oneOf []) :=
  fun _ _ _ _ => parses_oneOf_nil_iff.2 rfl

/-- A choice fails where all its alternatives do. -/
theorem Misses.oneOf_cons {ms : List (Matcher ν)} (h : Misses rules p m)
    (hothers : Misses rules p (oneOf ms)) : Misses rules p (oneOf (m :: ms)) :=
  fun _ _ hpast hhead => parses_oneOf_cons_iff.2 (.inl ⟨h hpast hhead, hothers hpast hhead⟩)

/-- A labelled matcher fails where the matcher does. -/
theorem Misses.labelled (h : Misses rules p m) (label : String) :
    Misses rules p (labelled label m) :=
  fun _ _ hpast hhead => parses_labelled_iff.2 (h hpast hhead)

/-- A reference fails where its rule does. -/
theorem Misses.ref {name : ν} (h : Misses rules p m) (hbody : rules.body name = some m) :
    Misses rules p (ref name) :=
  fun _ _ hpast hhead => (parses_ref_iff hbody).2 (h hpast hhead)

/-- A matcher with hooks fails where the matcher does. -/
theorem Misses.hooked (h : Misses rules p m) (onEntry : List EntryHook)
    (onMatch : List MatchHook) : Misses rules p (hooked onEntry onMatch m) :=
  fun _ _ hpast hhead => parses_hooked_fails_iff.2 (h hpast hhead)

/-- What needs a first character fails at the end of the text. -/
theorem Misses.fails_of_nil (h : Misses rules p m) {view : View} {c : Cursor} (hpast : c.past = 0)
    (hrest : c.rest = []) : m.Parses rules view c .fails :=
  h hpast (by simp [hrest])

end Matcher

/-! ## The properties -/

namespace Trim

open Matcher

variable {ν : Type}

/-- The matches of a matcher in front of the cut are found again, if what stands between the match
and the cut meets a condition. -/
def Survives (K : Trim ν) (P : Text → Prop) (n : Nat) (m : Matcher ν) : Prop :=
  ∀ ⦃view view' c c' stop left r⦄, K.Alike view view' → K.At c c' → c'.rest.length ≤ n →
    m.Parses K.rules view c (.ends stop left) → stop.rest = r ++ K.behind → P r →
      ∃ stop' left', stop'.rest = r ∧ K.At stop stop' ∧ K.Alike left left' ∧
        m.Parses K.rules view' c' (.ends stop' left')

/-- A verdict that says nothing of what lies in front of the cut. -/
inductive Lost (K : Trim ν) : Verdict → Prop
  | fails : Lost K .fails
  | beyond {stop : Cursor} {view : View} (h : stop.rest.length < K.behind.length) :
      Lost K (.ends stop view)

/-- A matcher fails in front of the cut where it failed before or ended behind the cut. -/
def Perishes (K : Trim ν) (n : Nat) (m : Matcher ν) : Prop :=
  ∀ ⦃view view' c c' verdict⦄, K.Alike view view' → K.At c c' → c'.rest.length ≤ n →
    m.Parses K.rules view c verdict → K.Lost verdict → m.Parses K.rules view' c' .fails

/-- A matcher whose matches are found again in front of the cut, and no others. -/
structure Rigid (K : Trim ν) (n : Nat) (m : Matcher ν) : Prop where
  survives : K.Survives (fun _ => True) n m
  perishes : K.Perishes n m

/-- A verdict that stays the same in front of the cut, and does not come as far as the cut. -/
inductive Echoes (K : Trim ν) (m : Matcher ν) (view' : View) (c' : Cursor) : Verdict → Prop
  | ends {stop stop' : Cursor} {left left' : View} (hrest : stop'.rest ≠ [])
      (hstop : K.At stop stop') (hleft : K.Alike left left')
      (h : m.Parses K.rules view' c' (.ends stop' left')) : Echoes K m view' c' (.ends stop left)
  | fails (h : m.Parses K.rules view' c' .fails) : Echoes K m view' c' .fails
  | faults (f : Fault) : Echoes K m view' c' (.faults f)

/-- A matcher that never comes as far as the cut. -/
def Tame (K : Trim ν) (m : Matcher ν) : Prop :=
  ∀ ⦃view view' c c' verdict⦄, K.Alike view view' → K.At c c' → c'.rest ≠ [] →
    m.Parses K.rules view c verdict → K.Echoes m view' c' verdict

variable {K : Trim ν} {P Q : Text → Prop} {n k : Nat} {m body : Matcher ν} {ms : List (Matcher ν)}

/-- What survives with so many characters left in front of the cut survives with fewer. -/
theorem Survives.anti (h : K.Survives P n m) (hle : k ≤ n) : K.Survives P k m :=
  fun _ _ _ _ _ _ _ halike hat hlength => h halike hat (hlength.trans hle)

/-- What survives under a condition survives under a stricter one. -/
theorem Survives.weaken (h : K.Survives Q n m) (hPQ : ∀ r, P r → Q r) : K.Survives P n m :=
  fun _ _ _ _ _ _ r halike hat hlength hends hrest hr =>
    h halike hat hlength hends hrest (hPQ r hr)

/-- What perishes with so many characters left in front of the cut perishes with fewer. -/
theorem Perishes.anti (h : K.Perishes n m) (hle : k ≤ n) : K.Perishes k m :=
  fun _ _ _ _ _ halike hat hlength => h halike hat (hlength.trans hle)

/-- What is rigid with so many characters left in front of the cut is rigid with fewer. -/
theorem Rigid.anti (h : K.Rigid n m) (hle : k ≤ n) : K.Rigid k m :=
  ⟨h.survives.anti hle, h.perishes.anti hle⟩

/-- Behind a match that ends in front of the cut and takes a character less is left. -/
theorem length_lt_of_takes {view left : View} {c c' stop : Cursor} {r : Text}
    (ht : Takes K.rules m) (hat : K.At c c')
    (hends : m.Parses K.rules view c (.ends stop left)) (hrest : stop.rest = r ++ K.behind) :
    r.length < c'.rest.length := by
  obtain ⟨x, t, hleads⟩ := ht hat.past_eq hends
  obtain ⟨stop', rfl, hleads', -⟩ := hat.leads hleads hrest
  rw [hleads'.rest_eq]
  simp

namespace Tame

/-- What never comes as far as the cut survives it. -/
theorem survives (h : K.Tame m) (ht : Takes K.rules m) (P : Text → Prop) (n : Nat) :
    K.Survives P n m := by
  intro view view' c c' stop left r halike hat hlength hends hrest hr
  have hlt := length_lt_of_takes ht hat hends hrest
  have hne : c'.rest ≠ [] := by
    intro hnil
    rw [hnil] at hlt
    exact absurd hlt (Nat.not_lt_zero _)
  cases h halike hat hne hends with
  | @ends _ stop' _ left' hrest' hstop hleft hparses =>
      refine ⟨stop', left', ?_, hstop, hleft, hparses⟩
      exact List.append_cancel_right (hstop.rest_eq.symm.trans hrest)

/-- What never comes as far as the cut fails in front of it where it failed before. -/
theorem perishes {p : Char → Bool} (h : K.Tame m) (hmisses : Misses K.rules p m) (n : Nat) :
    K.Perishes n m := by
  intro view view' c c' verdict halike hat hlength hparses hlost
  by_cases hnil : c'.rest = []
  · exact hmisses.fails_of_nil hat.past_eq' hnil
  have hechoes := h halike hat hnil hparses
  cases hlost with
  | fails =>
      cases hechoes with
      | fails h => exact h
  | beyond hbeyond =>
      cases hechoes with
      | ends _ hstop => exact absurd hbeyond (At.not_beyond hstop.rest_eq)

/-- What never comes as far as the cut is rigid, if it takes a character and needs a first one. -/
theorem rigid {p : Char → Bool} (h : K.Tame m) (ht : Takes K.rules m)
    (hmisses : Misses K.rules p m) (n : Nat) : K.Rigid n m :=
  ⟨h.survives ht _ n, h.perishes hmisses n⟩

end Tame

/-! ## References and labels -/

section Names

variable {label : String} {name : ν}

/-- A label changes nothing of what survives the cut. -/
theorem Survives.labelled (h : K.Survives P n m) : K.Survives P n (labelled label m) := by
  intro view view' c c' stop left r halike hat hlength hends hrest hr
  simp only [parses_labelled_iff] at hends ⊢
  exact h halike hat hlength hends hrest hr

/-- A label changes nothing of what fails in front of the cut. -/
theorem Perishes.labelled (h : K.Perishes n m) : K.Perishes n (labelled label m) := by
  intro view view' c c' verdict halike hat hlength hparses hlost
  rw [parses_labelled_iff] at hparses ⊢
  exact h halike hat hlength hparses hlost

/-- A reference survives the cut if its rule does. -/
theorem Survives.ref (h : K.Survives P n m) (hbody : K.rules.body name = some m) :
    K.Survives P n (ref name) := by
  intro view view' c c' stop left r halike hat hlength hends hrest hr
  simp only [parses_ref_iff hbody] at hends ⊢
  exact h halike hat hlength hends hrest hr

/-- A reference fails in front of the cut where its rule does. -/
theorem Perishes.ref (h : K.Perishes n m) (hbody : K.rules.body name = some m) :
    K.Perishes n (ref name) := by
  intro view view' c c' verdict halike hat hlength hparses hlost
  rw [parses_ref_iff hbody] at hparses ⊢
  exact h halike hat hlength hparses hlost

/-- A label leaves a matcher tame. -/
theorem Tame.labelled (h : K.Tame m) : K.Tame (labelled label m) := by
  intro view view' c c' verdict halike hat hne hparses
  rw [parses_labelled_iff] at hparses
  cases h halike hat hne hparses with
  | ends hrest hstop hleft h => exact .ends hrest hstop hleft (parses_labelled_iff.2 h)
  | fails h => exact .fails (parses_labelled_iff.2 h)
  | faults f => exact .faults f

/-- A reference is tame if its rule is. -/
theorem Tame.ref (h : K.Tame m) (hbody : K.rules.body name = some m) : K.Tame (ref name) := by
  intro view view' c c' verdict halike hat hne hparses
  rw [parses_ref_iff hbody] at hparses
  cases h halike hat hne hparses with
  | ends hrest hstop hleft h => exact .ends hrest hstop hleft ((parses_ref_iff hbody).2 h)
  | fails h => exact .fails ((parses_ref_iff hbody).2 h)
  | faults f => exact .faults f

end Names

/-! ## Texts and characters -/

section Leaves

variable {text : Text} {nonempty : text ≠ []} {c c' : Cursor}

/-- A fixed text in front of the cut is found again. -/
theorem survives_literal (P : Text → Prop) (n : Nat) : K.Survives P n (literal text nonempty) := by
  intro view view' c c' stop left r halike hat hlength hends hrest hr
  rw [parses_literal_iff, ofStop_eq_ends_iff] at hends
  obtain ⟨hafter, rfl⟩ := hends
  obtain ⟨stop', hstop', hleads, hat'⟩ := hat.leads (Cursor.leads_after? hafter) hrest
  refine ⟨stop', view', hstop', hat', halike, ?_⟩
  rw [parses_literal_iff, Cursor.after?_of_leads hat.past_eq' hleads]
  rfl

/-- A fixed text that reaches behind the cut is not found in front of it. -/
theorem perishes_literal (n : Nat) : K.Perishes n (literal text nonempty) := by
  intro view view' c c' verdict halike hat hlength hparses hlost
  rw [parses_literal_iff] at hparses ⊢
  cases hafter : c'.after? text with
  | none => rfl
  | some stop' =>
      -- in front of the cut the text stands in the whole too
      have hrest := (Cursor.leads_after? hafter).rest_eq
      have hfull : c.after? text =
          some ⟨text.reverse ++ c.front, stop'.rest ++ K.behind, c.past⟩ := by
        refine Cursor.after?_eq_some_iff.2 ⟨_, ?_, rfl⟩
        rw [hat.rest_eq, hrest, List.append_assoc]
      rw [hparses, hfull] at hlost
      cases hlost with
      | beyond h => exact absurd h (At.not_beyond rfl)

/-- A fixed text is rigid. -/
theorem rigid_literal (n : Nat) : K.Rigid n (literal text nonempty) :=
  ⟨survives_literal _ n, perishes_literal n⟩

/-- A fixed text without a character that may stand in front of the cut never comes as far. -/
theorem tame_literal (h : ∀ x ∈ text, K.closes x = false) : K.Tame (literal text nonempty) := by
  intro view view' c c' verdict halike hat hne hparses
  cases verdict with
  | ends stop left =>
      obtain ⟨r, hr, hrest⟩ := hat.rest_ne_nil hne (leads_of_parses_literal hparses) h
      obtain ⟨stop', left', hstop', hat', hleft, hends⟩ :=
        survives_literal (fun _ => True) _ halike hat (Nat.le_refl _) hparses hrest trivial
      exact .ends (hstop' ▸ hr) hat' hleft hends
  | fails => exact .fails (perishes_literal _ halike hat (Nat.le_refl _) hparses .fails)
  | faults f => exact .faults f

section Patterns

variable {p : Pattern}

/-- A pattern survives if it takes what it takes whatever follows and whatever lies in front. -/
theorem survives_pattern (P : Text → Prop) (n : Nat)
    (h : ∀ front front' t u v, p.width front (t ++ (u ++ v)) = some t.length →
      p.width front' (t ++ u) = some t.length) :
    K.Survives P n (pattern p) := by
  intro view view' c c' stop left r halike hat hlength hends hrest hr
  rw [parses_pattern_iff, ofStop_eq_ends_iff] at hends
  obtain ⟨hahead, rfl⟩ := hends
  obtain ⟨k, hwidth, rfl⟩ := Pattern.ahead?_eq_some_iff.1 hahead
  have hleads := Cursor.leads_advance c (k + 1)
  obtain ⟨stop', hstop', hleads', hat'⟩ := hat.leads hleads hrest
  have hlen : (c.rest.take (k + 1)).length = k + 1 :=
    List.length_take_of_le (p.width_le _ _ _ hwidth)
  -- the same characters are taken of what is left
  have hcut : c'.rest = c.rest.take (k + 1) ++ stop'.rest := hleads'.rest_eq
  have hwidth' : p.width c'.front c'.rest = some (k + 1) := by
    rw [hcut, h c.front _ _ _ K.behind (by rw [hstop', ← hrest, ← hleads.rest_eq, hlen, hwidth]),
      hlen]
  refine ⟨stop', view', hstop', hat', halike, parses_pattern_iff.2 ?_⟩
  have hadvance := Cursor.leads_advance c' (k + 1)
  rw [hcut, List.take_left' hlen] at hadvance
  have hahead' : p.ahead? c' = some (c'.advance (k + 1)) :=
    Pattern.ahead?_eq_some_iff.2 ⟨k, hwidth', rfl⟩
  rw [hahead', hadvance.stop_eq hleads' hat.past_eq']
  rfl

/-- A pattern that takes the same of a text and of what is left of it, whatever lies in front. -/
structure Steady (K : Trim ν) (p : Pattern) : Prop where
  consumes : p.Consumes
  width_eq : ∀ front front' t, t ≠ [] → (∀ x ∈ t.getLast?, K.closes x = true) →
    p.width front (t ++ K.behind) = p.width front' t

/-- A steady pattern fails in front of the cut and in the whole, or it leads equally far. -/
theorem Steady.ahead? (hp : K.Steady p) (hat : K.At c c') (hne : c'.rest ≠ []) :
    (p.ahead? c = none ∧ p.ahead? c' = none) ∨
      ∃ k, p.width c'.front c'.rest = some (k + 1) ∧ k + 1 ≤ c'.rest.length ∧
        p.ahead? c = some (c.advance (k + 1)) ∧ p.ahead? c' = some (c'.advance (k + 1)) := by
  have hwidth : p.width c.front c.rest = p.width c'.front c'.rest := by
    rw [hat.rest_eq, hp.width_eq _ c'.front _ hne hat.closed]
  simp only [Pattern.ahead?, hwidth]
  cases hw : p.width c'.front c'.rest with
  | none => exact .inl ⟨rfl, rfl⟩
  | some k =>
      cases k with
      | zero => exact absurd hw (hp.consumes _ _)
      | succ k => exact .inr ⟨k, rfl, p.width_le _ _ _ hw, rfl, rfl⟩

/-- A pattern that matches takes a character. -/
theorem takes_pattern : Takes K.rules (pattern p) := by
  intro view c stop view' hpast hends
  rw [parses_pattern_iff, ofStop_eq_ends_iff] at hends
  obtain ⟨k, hwidth, rfl⟩ := Pattern.ahead?_eq_some_iff.1 hends.1
  have hle := p.width_le _ _ _ hwidth
  have hleads := Cursor.leads_advance c (k + 1)
  cases hrest : c.rest with
  | nil =>
      rw [hrest] at hle
      exact absurd hle (Nat.not_succ_le_zero k)
  | cons x t =>
      rw [hrest, List.take_succ_cons] at hleads
      exact ⟨x, _, hleads⟩

/-- A steady pattern is rigid. -/
theorem Steady.rigid (hp : K.Steady p) (n : Nat) : K.Rigid n (pattern p) := by
  constructor
  · intro view view' c c' stop left r halike hat hlength hends hrest hr
    have hne : c'.rest ≠ [] := by
      have hlt := length_lt_of_takes takes_pattern hat hends hrest
      exact fun hnil => absurd hlt (by simp [hnil])
    rw [parses_pattern_iff, ofStop_eq_ends_iff] at hends
    obtain ⟨hahead, rfl⟩ := hends
    rcases hp.ahead? hat hne with ⟨hnone, -⟩ | ⟨k, -, hle, hsome, hsome'⟩
    · rw [hnone] at hahead
      cases hahead
    · rw [hsome] at hahead
      cases hahead
      have hat' := hat.advance hle
      refine ⟨_, view', ?_, hat', halike, parses_pattern_iff.2 (by rw [hsome']; rfl)⟩
      exact List.append_cancel_right (hat'.rest_eq.symm.trans hrest)
  · intro view view' c c' verdict halike hat hlength hparses hlost
    rw [parses_pattern_iff] at hparses ⊢
    by_cases hnil : c'.rest = []
    · cases hahead : p.ahead? c' with
      | none => rfl
      | some stop' =>
          obtain ⟨k, hwidth, -⟩ := Pattern.ahead?_eq_some_iff.1 hahead
          have hle := p.width_le _ _ _ hwidth
          rw [hnil] at hle
          exact absurd hle (Nat.not_succ_le_zero k)
    · rcases hp.ahead? hat hnil with ⟨-, hnone⟩ | ⟨k, -, hle, hsome, -⟩
      · rw [hnone]
        rfl
      · rw [hparses, hsome] at hlost
        cases hlost with
        | beyond h => exact absurd h (At.not_beyond (hat.advance hle).rest_eq)

/-- Patterns that do not take what may stand in front of the cut do not come as far as that. -/
theorem Steady.tame (hp : K.Steady p)
    (h : ∀ front t k, p.width front t = some k → ∀ x ∈ t.take k, K.closes x = false) :
    K.Tame (pattern p) := by
  intro view view' c c' verdict halike hat hne hparses
  rw [parses_pattern_iff] at hparses
  rcases hp.ahead? hat hne with ⟨hnone, hnone'⟩ | ⟨k, hwidth, hle, hsome, hsome'⟩
  · rw [hparses, hnone]
    exact .fails (parses_pattern_iff.2 (by rw [hnone']; rfl))
  · rw [hparses, hsome]
    refine .ends ?_ (hat.advance hle) halike (parses_pattern_iff.2 (by rw [hsome']; rfl))
    intro hnil
    have htake : c'.rest.take (k + 1) = c'.rest :=
      List.take_of_length_le (List.drop_eq_nil_iff.1 hnil)
    have hcloses := hat.closed _ (List.getLast?_eq_some_getLast hne)
    rw [h _ _ _ hwidth _ (htake.symm ▸ List.getLast_mem hne)] at hcloses
    cases hcloses

/-- A character that is admitted in front of the cut exactly if it is in the whole. -/
theorem steady_charBefore {label : String} {admits : Char → Text → Bool}
    (h : ∀ x t, (∀ y ∈ (x :: t).getLast?, K.closes y = true) →
      admits x (t ++ K.behind) = admits x t) : K.Steady (.charBefore label admits) := by
  constructor
  · exact Pattern.consumes_charBefore label admits
  · rintro front front' (_ | ⟨x, t⟩) hne hclosed
    · exact absurd rfl hne
    · simp only [Pattern.charBefore, List.cons_append, h x t hclosed]

/-- A run of characters that may not stand in front of the cut. -/
theorem steady_word {label : String} {isFirst isLater : Char → Bool}
    (hlater : ∀ x, isLater x = true → K.closes x = false)
    (hfirst : ∀ x, isFirst x = true → K.closes x = false) :
    K.Steady (.word label isFirst isLater) := by
  constructor
  · exact Pattern.consumes_word label isFirst isLater
  · rintro front front' (_ | ⟨x, t⟩) hne hclosed
    · exact absurd rfl hne
    · simp only [Pattern.word, List.cons_append]
      split
      · rename_i hx
        -- not all of the text is such a run, since its last character is not
        rw [List.takeWhile_append]
        split
        · rename_i hlength
          have hall := (List.takeWhile_prefix isLater (l := t)).eq_of_length hlength
          have hcloses := hclosed _ (List.getLast?_eq_some_getLast hne)
          have hnot : K.closes ((x :: t).getLast hne) = false := by
            rcases List.mem_cons.1 (List.getLast_mem hne) with heq | hmem
            · rw [heq]
              exact hfirst x hx
            · exact hlater _ (List.takeWhile_eq_self_iff.1 hall _ hmem)
          rw [hnot] at hcloses
          cases hcloses
        · rfl
      · rfl

/-- A word without characters that may stand in front of the cut never comes as far. -/
theorem tame_word {label : String} {isFirst isLater : Char → Bool}
    (hlater : ∀ x, isLater x = true → K.closes x = false)
    (hfirst : ∀ x, isFirst x = true → K.closes x = false) :
    K.Tame (pattern (.word label isFirst isLater)) := by
  refine (steady_word hlater hfirst).tame ?_
  rintro front (_ | ⟨x, t⟩) k hwidth y hy
  · simp at hy
  · simp only [Pattern.word, Option.ite_none_right_eq_some, Option.some.injEq] at hwidth
    obtain ⟨hx, rfl⟩ := hwidth
    rw [List.take_succ_cons, List.mem_cons] at hy
    rcases hy with rfl | hy
    · exact hfirst y hx
    · rw [← List.prefix_iff_eq_take.1 (List.takeWhile_prefix isLater)] at hy
      exact hlater y (List.mem_takeWhile_imp hy)

end Patterns

end Leaves

end Trim

end Stencil
