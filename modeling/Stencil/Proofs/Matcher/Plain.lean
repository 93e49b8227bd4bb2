import Stencil.Proofs.Matcher.Unfolding

/-!
# Matchers without hooks

A matcher without hooks, whose conditions change nothing, finds nothing wrong and leaves the map as
it is. All that it asks of the map is what its conditions say, and if its patterns do not look back
all that it asks of the text is what follows. So it reads the same wherever the same text stands, as
long as its conditions are answered alike: two readings of it keep abreast (`Matcher.plain_parse`).
What it reads in a page can therefore be found again in a text of its own
(`Matcher.Plain.elsewhere`).
-/

set_option autoImplicit false

namespace Stencil

namespace Pattern

/-- A pattern for one character does not look back. -/
theorem looksAhead_charBefore (label : String) (admits : Char → Text → Bool) :
    (charBefore label admits).LooksAhead := by
  rintro front front' (_ | ⟨x, t⟩) <;> rfl

/-- A pattern for a word does not look back. -/
theorem looksAhead_word (label : String) (isFirst isLater : Char → Bool) :
    (word label isFirst isLater).LooksAhead := by
  rintro front front' (_ | ⟨x, t⟩) <;> rfl

/-- A pattern for a fixed text does not look back. -/
theorem looksAhead_textBefore (label : String) (text : Text) (ahead : Text → Bool) :
    (textBefore label text ahead).LooksAhead := fun _ _ _ => rfl

/-- A pattern for two fixed texts does not look back. -/
theorem looksAhead_around (label : String) (first : Text) (isMember : Char → Bool)
    (last : Text) : (around label first isMember last).LooksAhead := fun _ _ _ => rfl

end Pattern

/-- Two places inside of texts behind which the same stands. -/
structure Cursor.Level (c c' : Cursor) : Prop where
  rest_eq : c'.rest = c.rest
  past_eq : c.past = 0
  past_eq' : c'.past = 0

namespace Cursor

variable {c c' d d' : Cursor} {t : Text}

/-- The same text leads from level places to level places. -/
theorem Level.of_leads (h : c.Level c') (hleads : c.Leads t d) (hleads' : c'.Leads t d') :
    d.Level d' := by
  refine ⟨?_, hleads.past_eq h.past_eq, hleads'.past_eq h.past_eq'⟩
  have hrest := h.rest_eq
  rw [hleads.rest_eq, hleads'.rest_eq] at hrest
  exact List.append_cancel_left hrest

/-- A text leads nowhere just when it is empty. -/
theorem Leads.position_eq_iff (h : c.Leads t d) (hpast : c.past = 0) :
    d.position = c.position ↔ t = [] := by
  have hoffset := h.offset_eq
  rw [position, position, h.past_eq hpast, hpast, ← List.length_eq_zero_iff]
  omega

end Cursor

/-- What two readings come to that keep abreast: both are cut short for the same reason, both fail,
or the same text leads to the ends of both and they leave their maps as they are. -/
inductive Abreast (view view' : View) (c c' : Cursor) :
    Except Halt Verdict → Except Halt Verdict → Prop
  | halts (halt : Halt) : Abreast view view' c c' (.error halt) (.error halt)
  | fails : Abreast view view' c c' (.ok .fails) (.ok .fails)
  | ends {t : Text} {d d' : Cursor} (hleads : c.Leads t d) (hleads' : c'.Leads t d') :
      Abreast view view' c c' (.ok (.ends d view)) (.ok (.ends d' view'))

section Abreast

variable {view view' : View} {c c' : Cursor} {r r' : Except Halt Verdict}

/-- Readings that keep abreast further on keep abreast. -/
theorem Abreast.of_leads {t : Text} {d d' : Cursor} (hleads : c.Leads t d)
    (hleads' : c'.Leads t d') (h : Abreast view view' d d' r r') :
    Abreast view view' c c' r r' := by
  cases h with
  | halts halt => exact .halts halt
  | fails => exact .fails
  | ends hmore hmore' => exact .ends (hleads.trans hmore) (hleads'.trans hmore')

/-- Readings that end where they started keep abreast. -/
theorem Abreast.stays : Abreast view view' c c' (.ok (.ends c view)) (.ok (.ends c' view')) :=
  .ends (.refl c) (.refl c')

end Abreast

/-! ## Readings -/

namespace Parse

/-- A reading that keeps abreast with itself at all places with the same text behind them, for all
maps of a sort. -/
def Plain (sort : View → Prop) (parse : Parse) : Prop :=
  ∀ ⦃view view' c c'⦄, sort view → sort view' → c.Level c' →
    Abreast view view' c c' (parse view c) (parse view' c')

section Plain

variable {ν : Type} {sort : View → Prop} {parse ending : Parse} {read : Matcher ν → Parse}

/-- Giving up is plain. -/
theorem plain_halts (halt : Halt) : Plain sort fun _ _ => .error halt :=
  fun _ _ _ _ _ _ _ => .halts halt

/-- Failing everywhere is plain. -/
theorem plain_fails : Plain sort (pure fun _ => none) :=
  fun _ _ _ _ _ _ _ => .fails

/-- A fixed text looks at what stands behind a place alone. -/
theorem plain_literal (text : Text) : Plain sort (pure fun c => c.after? text) := by
  intro view view' c c' _ _ hlevel
  simp only [pure, Cursor.after?, hlevel.rest_eq]
  cases hafter : Text.after? text c.rest with
  | none => exact .fails
  | some rest =>
      have hrest := Text.after?_eq_some_iff.1 hafter
      exact .ends ⟨hrest, rfl, id⟩ ⟨hlevel.rest_eq.trans hrest, rfl, id⟩

/-- A pattern that does not look back is plain. -/
theorem plain_pattern {p : Pattern} (h : p.LooksAhead) : Plain sort (pure p.ahead?) := by
  intro view view' c c' _ _ hlevel
  simp only [pure, Pattern.ahead?, hlevel.rest_eq, h c'.front c.front]
  rcases p.width c.front c.rest with _ | _ | n
  · exact .fails
  · exact .fails
  · have hleads' := Cursor.leads_advance c' (n + 1)
    rw [hlevel.rest_eq] at hleads'
    exact .ends (Cursor.leads_advance c (n + 1)) hleads'

/-- A sequence is plain if its parts are. -/
theorem plain_sequence {parts : List (Matcher ν)} (h : ∀ m ∈ parts, Plain sort (read m)) :
    Plain sort (sequence (parts.map read)) := by
  induction parts with
  | nil => exact fun _ _ _ _ _ _ _ => .stays
  | cons m ms ih =>
      intro view view' c c' hview hview' hlevel
      have hfirst := h m (List.mem_cons_self ..) hview hview' hlevel
      have hothers := ih fun m' hmem => h m' (List.mem_cons_of_mem _ hmem)
      rw [List.map_cons, sequence]
      dsimp only
      generalize read m view c = r, read m view' c' = r' at hfirst ⊢
      cases hfirst with
      | halts halt => exact .halts halt
      | fails => exact .fails
      | ends hleads hleads' =>
          exact (hothers hview hview' (hlevel.of_leads hleads hleads')).of_leads hleads hleads'

/-- A choice is plain if its alternatives are. -/
theorem plain_oneOf {choices : List (Matcher ν)} (h : ∀ m ∈ choices, Plain sort (read m)) :
    Plain sort (oneOf (choices.map read)) := by
  induction choices with
  | nil => exact fun _ _ _ _ _ _ _ => .fails
  | cons m ms ih =>
      intro view view' c c' hview hview' hlevel
      have hfirst := h m (List.mem_cons_self ..) hview hview' hlevel
      have hothers := ih fun m' hmem => h m' (List.mem_cons_of_mem _ hmem)
      rw [List.map_cons, oneOf]
      dsimp only
      generalize read m view c = r, read m view' c' = r' at hfirst ⊢
      cases hfirst with
      | halts halt => exact .halts halt
      | fails => exact hothers hview hview' hlevel
      | ends hleads hleads' => exact .ends hleads hleads'

/-- An option is plain if its body is. -/
theorem Plain.maybe (h : Plain sort parse) : Plain sort (maybe parse) := by
  intro view view' c c' hview hview' hlevel
  have hbody := h hview hview' hlevel
  unfold Parse.maybe
  generalize parse view c = r, parse view' c' = r' at hbody ⊢
  cases hbody with
  | halts halt => exact .halts halt
  | fails => exact .stays
  | ends hleads hleads' => exact .ends hleads hleads'

/-- Rounds of a repetition are plain if the body is. -/
theorem Plain.more (h : Plain sort parse) (count : Nat) : Plain sort (more parse count) := by
  induction count with
  | zero => exact plain_halts _
  | succ count ih =>
      intro view view' c c' hview hview' hlevel
      have hbody := h hview hview' hlevel
      unfold Parse.more
      generalize parse view c = r, parse view' c' = r' at hbody ⊢
      cases hbody with
      | halts halt => exact .halts halt
      | fails => exact .stays
      | ends hleads hleads' =>
          simp only [hleads.position_eq_iff hlevel.past_eq, hleads'.position_eq_iff hlevel.past_eq']
          split
          · exact .stays
          · exact (ih hview hview' (hlevel.of_leads hleads hleads')).of_leads hleads hleads'

/-- A repetition is plain if its body is. -/
theorem Plain.many (h : Plain sort parse) (count : Nat) : Plain sort (many parse count) := by
  intro view view' c c' hview hview' hlevel
  have hbody := h hview hview' hlevel
  unfold Parse.many
  generalize parse view c = r, parse view' c' = r' at hbody ⊢
  cases hbody with
  | halts halt => exact .halts halt
  | fails => exact .fails
  | ends hleads hleads' =>
      simp only [hleads.position_eq_iff hlevel.past_eq, hleads'.position_eq_iff hlevel.past_eq']
      split
      · exact .fails
      · have hlevel' := hlevel.of_leads hleads hleads'
        exact (h.more count hview hview' hlevel').of_leads hleads hleads'

/-- A repetition up to a terminator is plain if its body and the terminator are. -/
theorem Plain.upTo (h : Plain sort parse) (hending : Plain sort ending) (count : Nat) :
    Plain sort (upTo parse ending count) := by
  induction count with
  | zero => exact plain_halts _
  | succ count ih =>
      intro view view' c c' hview hview' hlevel
      have hends := hending hview hview' hlevel
      have hbody := h hview hview' hlevel
      unfold Parse.upTo
      generalize ending view c = r, ending view' c' = r' at hends ⊢
      cases hends with
      | halts halt => exact .halts halt
      | ends hleads hleads' => exact .ends hleads hleads'
      | fails =>
          have hatEnd : c'.atEnd = c.atEnd := congrArg List.isEmpty hlevel.rest_eq
          dsimp only
          rw [hatEnd]
          generalize parse view c = r, parse view' c' = r' at hbody ⊢
          cases c.atEnd with
          | true => exact .fails
          | false =>
              cases hbody with
              | halts halt => exact .halts halt
              | fails => exact .fails
              | ends hleads hleads' =>
                  simp only [Bool.false_eq_true, if_false, hleads.position_eq_iff hlevel.past_eq,
                    hleads'.position_eq_iff hlevel.past_eq']
                  split
                  · exact .fails
                  · have hlevel' := hlevel.of_leads hleads hleads'
                    exact (ih hview hview' hlevel').of_leads hleads hleads'

end Plain

end Parse

/-! ## Whole matchers -/

/-- A condition that changes nothing when it is asked, and is answered alike by all maps of a
sort. -/
structure Condition.Plain (sort : View → Prop) (test : Condition) : Prop where
  onlyAsks : test.OnlyAsks
  holds_eq : ∀ view view', sort view → sort view' → test.holds view' = test.holds view

/-- A choice by a plain condition is plain if both branches are. -/
theorem Parse.Plain.asking {sort : View → Prop} {test : Condition} {parse other : Parse}
    (h : Parse.Plain sort parse) (hother : Parse.Plain sort other) (htest : test.Plain sort) :
    Parse.Plain sort fun view c =>
      if test.holds view then parse (view.ask test) c else other (view.ask test) c := by
  intro view view' c c' hview hview' hlevel
  dsimp only
  rw [htest.holds_eq view view' hview hview', htest.onlyAsks.view_ask, htest.onlyAsks.view_ask]
  split
  · exact h hview hview' hlevel
  · exact hother hview hview' hlevel

namespace Matcher

variable {ν : Type} (sort : View → Prop) (isRef : ν → Prop)

mutual

/-- A matcher without hooks whose patterns do not look back, whose conditions change nothing and are
answered alike by all maps of a sort, and which refers to rules of some sort alone. -/
def Plain : Matcher ν → Prop
  | literal _ _ => True
  | pattern p => p.LooksAhead
  | sequence parts => AllPlain parts
  | oneOf choices => AllPlain choices
  | maybe body => body.Plain
  | many body => body.Plain
  | upTo body terminator => body.Plain ∧ terminator.Plain
  | when test body => test.Plain sort ∧ body.Plain
  | whenElse test body otherwise => test.Plain sort ∧ body.Plain ∧ otherwise.Plain
  | ref name => isRef name
  | labelled _ body => body.Plain
  | hooked _ _ _ => False

/-- Matchers that are all of this sort. -/
def AllPlain : List (Matcher ν) → Prop
  | [] => True
  | m :: ms => m.Plain ∧ AllPlain ms

end

variable {sort isRef}

/-- Matchers are plain together if each of them is. -/
theorem allPlain_iff {ms : List (Matcher ν)} :
    AllPlain sort isRef ms ↔ ∀ m ∈ ms, m.Plain sort isRef := by
  induction ms with
  | nil => simp [AllPlain]
  | cons m ms ih => rw [AllPlain, ih, List.forall_mem_cons]

variable {rules : Rules ν}

/-- Readings of a matcher without hooks keep abreast if those of the rules that it may reach do. -/
theorem plain_parse
    (hrules : ∀ name body, isRef name → rules.body name = some body → body.Plain sort isRef)
    (depth : Nat) {m : Matcher ν} (hm : m.Plain sort isRef) : (m.parse rules depth).Plain sort := by
  induction depth generalizing m with
  | zero => exact Parse.plain_halts _
  | succ depth ih =>
      unfold parse
      cases m with
      | literal text nonempty => exact Parse.plain_literal text
      | pattern p =>
          rw [Plain] at hm
          exact Parse.plain_pattern hm
      | sequence parts =>
          rw [Plain] at hm
          exact Parse.plain_sequence fun m hmem => ih (allPlain_iff.1 hm m hmem)
      | oneOf choices =>
          rw [Plain] at hm
          exact Parse.plain_oneOf fun m hmem => ih (allPlain_iff.1 hm m hmem)
      | maybe body =>
          rw [Plain] at hm
          exact (ih hm).maybe
      | many body =>
          rw [Plain] at hm
          exact (ih hm).many depth
      | upTo body terminator =>
          rw [Plain] at hm
          exact (ih hm.1).upTo (ih hm.2) depth
      | when test body =>
          rw [Plain] at hm
          exact (ih hm.2).asking Parse.plain_fails hm.1
      | whenElse test body otherwise =>
          rw [Plain] at hm
          obtain ⟨htest, hbody, hotherwise⟩ := hm
          exact (ih hbody).asking (ih hotherwise) htest
      | ref name =>
          rw [Plain] at hm
          cases hbody : rules.body name with
          | none =>
              simp only [hbody]
              exact Parse.plain_halts _
          | some body =>
              simp only [hbody]
              exact ih (hrules name body hm hbody)
      | labelled label body =>
          rw [Plain] at hm
          exact ih hm
      | hooked onEntry onMatch body =>
          rw [Plain] at hm
          exact hm.elim

section Parses

variable {m : Matcher ν} {view view' left : View} {c c' d : Cursor} {t : Text}

/-- A reading of a matcher without hooks finds nothing wrong. -/
theorem Plain.not_faults
    (hrules : ∀ name body, isRef name → rules.body name = some body → body.Plain sort isRef)
    (hm : m.Plain sort isRef) (hview : sort view) (hpast : c.past = 0) (f : Fault) :
    ¬m.Parses rules view c (.faults f) := by
  rintro ⟨depth, h⟩
  have habreast := plain_parse hrules depth hm hview hview ⟨rfl, hpast, hpast⟩
  rw [h] at habreast
  cases habreast

/-- What a matcher without hooks reads it reads wherever the same text stands. -/
theorem Plain.elsewhere
    (hrules : ∀ name body, isRef name → rules.body name = some body → body.Plain sort isRef)
    (hm : m.Plain sort isRef) (hview : sort view) (hview' : sort view') (hlevel : c.Level c')
    (h : m.Parses rules view c (.ends d left)) (hleads : c.Leads t d) :
    left = view ∧ ∃ d', c'.Leads t d' ∧ m.Parses rules view' c' (.ends d' view') := by
  obtain ⟨depth, h⟩ := h
  have habreast := plain_parse hrules depth hm hview hview' hlevel
  rw [h] at habreast
  generalize hresult : m.parse rules depth view' c' = result at habreast
  cases habreast with
  | ends hends hends' =>
      rw [hleads.unique hends]
      exact ⟨rfl, _, hends', depth, hresult⟩

end Parses

end Matcher

end Stencil
