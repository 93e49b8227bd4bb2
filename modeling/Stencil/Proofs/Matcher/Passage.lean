import Stencil.Proofs.Matcher.Reading

/-!
# Relations that readings carry along

A relation between the place and the map at which a reading starts and those at which it ends is a
`Passage` if it holds for the reading of fixed texts and patterns and carries over readings one
behind the other. A passage holds for a whole matcher if the hooks and the conditions of the matcher
respect it, and those of the rules that may be reached from it (`Matcher.carries_parse`). So what no
hook and no condition changes stays as it is, however rules refer to each other.
-/

set_option autoImplicit false

namespace Stencil

/-- A relation between the start and the end of readings. -/
structure Passage (R : View → Cursor → View → Cursor → Prop) : Prop where
  refl : ∀ view c, R view c view c
  trans : ∀ {view c view' c' view'' c''}, R view c view' c' → R view' c' view'' c'' →
    R view c view'' c''
  /-- A reading that ends where it started may be taken back as far as the place goes. -/
  stay : ∀ {view c view' c'}, R view c view' c' → c'.position = c.position → R view c view' c
  literal : ∀ view {c stop : Cursor} {text : Text}, c.after? text = some stop → R view c view stop
  pattern : ∀ view {c stop : Cursor} {p : Pattern}, p.ahead? c = some stop → R view c view stop

namespace Parse

/-- A reading that is in a relation wherever it matches. -/
def Carries (R : View → Cursor → View → Cursor → Prop) (parse : Parse) : Prop :=
  ∀ ⦃view c stop view'⦄, parse view c = .ok (.ends stop view') → R view c view' stop

variable {R : View → Cursor → View → Cursor → Prop} {parse ending other : Parse}

/-- A look at the text carries a passage that holds between its start and its end. -/
theorem carries_pure {stop? : Cursor → Option Cursor}
    (h : ∀ view {c stop}, stop? c = some stop → R view c view stop) :
    Carries R (pure stop?) := by
  intro view c stop view' hrun
  unfold Parse.pure at hrun
  cases hstop : stop? c with
  | none =>
      rw [hstop] at hrun
      cases hrun
  | some stop' =>
      rw [hstop] at hrun
      cases hrun
      exact h view hstop

section Combinations

variable {ν : Type} {read : Matcher ν → Parse} (hR : Passage R)

include hR in
/-- A sequence carries a passage if its parts do. -/
theorem carries_sequence {parts : List (Matcher ν)} (h : ∀ m ∈ parts, Carries R (read m)) :
    Carries R (sequence (parts.map read)) := by
  induction parts with
  | nil =>
      intro view c stop view' hrun
      cases hrun
      exact hR.refl view c
  | cons m ms ih =>
      intro view c stop view' hrun
      have hfirst := h m (List.mem_cons_self ..)
      have hothers := ih fun m' hmem => h m' (List.mem_cons_of_mem _ hmem)
      rw [List.map_cons, sequence] at hrun
      dsimp only at hrun
      split at hrun
      · rename_i stop' view'' hstep
        exact hR.trans (hfirst hstep) (hothers hrun)
      · exact hfirst hrun

/-- A choice carries a passage if its alternatives do. -/
theorem carries_oneOf {choices : List (Matcher ν)} (h : ∀ m ∈ choices, Carries R (read m)) :
    Carries R (oneOf (choices.map read)) := by
  induction choices with
  | nil =>
      intro view c stop view' hrun
      cases hrun
  | cons m ms ih =>
      intro view c stop view' hrun
      have hothers := ih fun m' hmem => h m' (List.mem_cons_of_mem _ hmem)
      rw [List.map_cons, oneOf] at hrun
      dsimp only at hrun
      split at hrun
      · exact hothers hrun
      · exact h m (List.mem_cons_self ..) hrun

include hR in
/-- An option carries a passage if its body does. -/
theorem Carries.maybe (h : Carries R parse) : Carries R (maybe parse) := by
  intro view c stop view' hrun
  unfold Parse.maybe at hrun
  split at hrun
  · cases hrun
    exact hR.refl view c
  · exact h hrun

include hR in
/-- Rounds of a repetition carry a passage if the body does. -/
theorem Carries.more (h : Carries R parse) (count : Nat) : Carries R (more parse count) := by
  induction count with
  | zero =>
      intro view c stop view' hrun
      cases hrun
  | succ count ih =>
      intro view c stop view' hrun
      unfold Parse.more at hrun
      split at hrun
      · rename_i stop' view'' hstep
        split at hrun
        · rename_i hstays
          cases hrun
          exact hR.stay (h hstep) hstays
        · exact hR.trans (h hstep) (ih hrun)
      · cases hrun
        exact hR.refl view c
      · exact h hrun

include hR in
/-- A repetition carries a passage if its body does. -/
theorem Carries.many (h : Carries R parse) (count : Nat) : Carries R (many parse count) := by
  intro view c stop view' hrun
  unfold Parse.many at hrun
  split at hrun
  · rename_i stop' view'' hstep
    split at hrun
    · cases hrun
    · exact hR.trans (h hstep) (h.more hR count hrun)
  · exact h hrun

include hR in
/-- A repetition up to a terminator carries a passage if its body and the terminator do. -/
theorem Carries.upTo (h : Carries R parse) (hending : Carries R ending) (count : Nat) :
    Carries R (upTo parse ending count) := by
  induction count with
  | zero =>
      intro view c stop view' hrun
      cases hrun
  | succ count ih =>
      intro view c stop view' hrun
      unfold Parse.upTo at hrun
      split at hrun
      · split at hrun
        · cases hrun
        split at hrun
        · rename_i stop' view'' hstep
          split at hrun
          · cases hrun
          · exact hR.trans (h hstep) (ih hrun)
        · exact h hrun
      · exact hending hrun

end Combinations

/-! ## Conditions and hooks -/

/-- A condition that respects a relation when it is asked. -/
def AskRespects (R : View → Cursor → View → Cursor → Prop) (test : Condition) : Prop :=
  ∀ view c, R view c (view.ask test) c

/-- Hooks on entry that respect a relation. -/
def EntryRespects (R : View → Cursor → View → Cursor → Prop) (hooks : List EntryHook) : Prop :=
  ∀ hook ∈ hooks, ∀ view c, R view c (view.edits (hook view)) c

/-- Hooks on a match that respect a relation. -/
def MatchRespects (R : View → Cursor → View → Cursor → Prop) (hooks : List MatchHook) : Prop :=
  ∀ hook ∈ hooks, ∀ text view c, R view c (view.edits (hook text view).1) c

variable (hR : Passage R)

include hR in
/-- A condition that changes nothing respects every passage. -/
theorem askRespects_of_onlyAsks {test : Condition} (h : test.OnlyAsks) : AskRespects R test := by
  intro view c
  rw [h.view_ask]
  exact hR.refl view c

include hR in
/-- Hooks on entry that respect a passage do so one after the other. -/
theorem EntryRespects.enter {hooks : List EntryHook} (h : EntryRespects R hooks) (view : View)
    (c : Cursor) : R view c (view.enter hooks) c := by
  induction hooks generalizing view with
  | nil => exact hR.refl view c
  | cons hook hooks ih =>
      have hfirst := h hook (List.mem_cons_self ..) view c
      have hothers := ih (fun hook' hmem => h hook' (List.mem_cons_of_mem _ hmem))
        (view.edits (hook view))
      exact hR.trans hfirst hothers

include hR in
/-- Hooks on a match that respect a passage do so one after the other. -/
theorem MatchRespects.leave {hooks : List MatchHook} (h : MatchRespects R hooks) {text : Text}
    {position : Nat} {view view' : View} (c : Cursor)
    (hrun : view.leave text position hooks = .ok view') : R view c view' c := by
  induction hooks generalizing view with
  | nil =>
      cases hrun
      exact hR.refl _ c
  | cons hook hooks ih =>
      have hfirst := h hook (List.mem_cons_self ..) text view c
      unfold View.leave at hrun
      split at hrun
      · rename_i es hanswer
        rw [hanswer] at hfirst
        exact hR.trans hfirst (ih (fun hook' hmem => h hook' (List.mem_cons_of_mem _ hmem)) hrun)
      · cases hrun

include hR in
/-- A choice by a condition that respects a passage carries it if both branches do. -/
theorem Carries.asking (h : Carries R parse) (hother : Carries R other) {test : Condition}
    (htest : AskRespects R test) :
    Carries R fun view c =>
      if test.holds view then parse (view.ask test) c else other (view.ask test) c := by
  intro view c stop view' hrun
  dsimp only at hrun
  split at hrun
  · exact hR.trans (htest view c) (h hrun)
  · exact hR.trans (htest view c) (hother hrun)

/-- Where nothing matches, every passage is carried. -/
theorem carries_fails : Carries R (pure fun _ => none) :=
  carries_pure nofun

include hR in
/-- A reading with hooks carries a passage if the reading does and the hooks respect it. -/
theorem Carries.hooked (h : Carries R parse) {onEntry : List EntryHook} {onMatch : List MatchHook}
    (hentry : EntryRespects R onEntry) (hmatch : MatchRespects R onMatch) :
    Carries R (hooked onEntry onMatch parse) := by
  intro view c stop view' hrun
  unfold Parse.hooked at hrun
  split at hrun
  · rename_i stop' view'' hbody
    split at hrun
    · rename_i left hleave
      cases hrun
      have hread := hR.trans (hentry.enter hR view c) (h hbody)
      exact hR.trans hread (hmatch.leave hR _ hleave)
    · cases hrun
  · rename_i hstays
    exact absurd hrun (hstays stop view')

end Parse

/-! ## Whole matchers -/

namespace Matcher

variable {ν : Type} (R : View → Cursor → View → Cursor → Prop) (isRef : ν → Prop)

mutual

/-- A matcher whose hooks and conditions respect a relation, and which refers to rules of some sort
alone. -/
def Respects : Matcher ν → Prop
  | literal _ _ => True
  | pattern _ => True
  | sequence parts => AllRespect parts
  | oneOf choices => AllRespect choices
  | maybe body => body.Respects
  | many body => body.Respects
  | upTo body terminator => body.Respects ∧ terminator.Respects
  | when test body => Parse.AskRespects R test ∧ body.Respects
  | whenElse test body otherwise =>
    Parse.AskRespects R test ∧ body.Respects ∧ otherwise.Respects
  | ref name => isRef name
  | labelled _ body => body.Respects
  | hooked onEntry onMatch body =>
    Parse.EntryRespects R onEntry ∧ Parse.MatchRespects R onMatch ∧ body.Respects

/-- Matchers whose hooks and conditions respect a relation, and which refer to rules of some sort
alone. -/
def AllRespect : List (Matcher ν) → Prop
  | [] => True
  | m :: ms => m.Respects ∧ AllRespect ms

end

variable {R isRef}

/-- Each of several matchers that respect a passage does so. -/
theorem AllRespect.respects {ms : List (Matcher ν)} (h : AllRespect R isRef ms) {m : Matcher ν}
    (hmem : m ∈ ms) : m.Respects R isRef := by
  induction ms with
  | nil => cases hmem
  | cons m' ms ih =>
      obtain ⟨hfirst, hothers⟩ := h
      rcases List.mem_cons.1 hmem with rfl | hmem
      · exact hfirst
      · exact ih hothers hmem

/-- A passage that the hooks and conditions of a matcher respect, and those of the rules that it may
reach, holds between the start and the end of every match. -/
theorem carries_parse {rules : Rules ν} (hR : Passage R)
    (hrules : ∀ name body, isRef name → rules.body name = some body → body.Respects R isRef)
    (depth : Nat) {m : Matcher ν} (hm : m.Respects R isRef) :
    (m.parse rules depth).Carries R := by
  induction depth generalizing m with
  | zero =>
      intro view c stop view' hrun
      cases hrun
  | succ depth ih =>
      unfold parse
      cases m with
      | literal text nonempty => exact Parse.carries_pure fun view _ _ => hR.literal view
      | pattern p => exact Parse.carries_pure fun view _ _ => hR.pattern view
      | sequence parts =>
          rw [Respects] at hm
          exact Parse.carries_sequence hR fun m hmem => ih (hm.respects hmem)
      | oneOf choices =>
          rw [Respects] at hm
          exact Parse.carries_oneOf fun m hmem => ih (hm.respects hmem)
      | maybe body =>
          rw [Respects] at hm
          exact (ih hm).maybe hR
      | many body =>
          rw [Respects] at hm
          exact (ih hm).many hR depth
      | upTo body terminator =>
          rw [Respects] at hm
          exact (ih hm.1).upTo hR (ih hm.2) depth
      | when test body =>
          rw [Respects] at hm
          exact (ih hm.2).asking hR Parse.carries_fails hm.1
      | whenElse test body otherwise =>
          rw [Respects] at hm
          exact (ih hm.2.1).asking hR (ih hm.2.2) hm.1
      | ref name =>
          rw [Respects] at hm
          cases hbody : rules.body name with
          | none =>
              intro view c stop view' hrun
              simp only [hbody] at hrun
              cases hrun
          | some body =>
              simp only [hbody]
              exact ih (hrules name body hm hbody)
      | labelled label body =>
          rw [Respects] at hm
          exact ih hm
      | hooked onEntry onMatch body =>
          rw [Respects] at hm
          obtain ⟨hentry, hmatch, hbody⟩ := hm
          exact (ih hbody).hooked hR hentry hmatch

end Matcher

end Stencil
