import Stencil.Token.Stream
import Stencil.Proofs.Jsp.Progress

/-!
# Cutting off one token

What stands at a place of a page under the page grammar: a token that takes at least one character,
or a failure at that place or behind it. `Page.sight_spec` puts together what the several tries at
a place lead to, and tells what becomes of the open custom tags.
-/

set_option autoImplicit false

namespace Stencil

open Jsp (Construct Lexicon Production Rule)

/-- A failure that, if the page is at fault, is no missing end tag and points between an offset and
the end of the source. -/
def LexFailure.PointsFrom (source : Text) (offset : Nat) : LexFailure → Prop
  | .error e =>
    e.cause.IsNotMissing ∧ ∃ o : Nat, e.offset = some (o : Int) ∧ offset ≤ o ∧ o ≤ source.length
  | _ => True

/-- A failure that points behind a place points behind every earlier one. -/
theorem LexFailure.PointsFrom.mono {source : Text} {offset offset' : Nat} {failure : LexFailure}
    (h : failure.PointsFrom source offset) (hle : offset' ≤ offset) :
    failure.PointsFrom source offset' := by
  cases failure with
  | error e =>
      obtain ⟨hcause, o, ho, hfrom, hend⟩ := h
      exact ⟨hcause, o, ho, by omega, hend⟩
  | _ => trivial

/-- An open tag that waits for the end tag of its own name. -/
def OpenTag.IsStandard (tag : OpenTag) : Prop :=
  ∃ nonempty : tag.name ≠ [], tag.closer = Jsp.closer tag.name nonempty (Jsp.rule .space)

/-- The offsets of the open start tags behind a token of some kind at an offset. -/
def Kind.openOffsets (kind : Kind) (offset : Nat) (before : List Nat) : List Nat :=
  match kind with
  | .startTag => offset :: before
  | .endTag => before.tail
  | _ => before

/-- A token that takes at least one character, and what the page is like behind it. -/
structure Sighting.Ahead (source : Text) (openTags : List OpenTag) (c : Cursor) (s : Sighting) :
    Prop where
  within : s.stop.Within source
  lt : c.offset < s.stop.offset
  /-- What was reported belongs to the rest of the source. -/
  faults : s.attempt.FaultsFrom source Cause.IsNotMissing s.stop.offset
  /-- Start tags are opened and end tags close the innermost of them. -/
  offsets : s.openTags.map (·.offset) = s.kind.openOffsets c.offset (openTags.map (·.offset))
  /-- The open tags still wait for the end tags of their own names. -/
  standard : ∀ tag ∈ s.openTags, tag.IsStandard

namespace Page

/-- A page under the page grammar. -/
def standard (source : Text) (file : Option String) (excerptLength : Int) : Page where
  source
  length := source.length
  file
  excerptLength
  lexicon := .standard
  constructs := Jsp.constructs.map fun e => ⟨e.kind, Jsp.rule e.delimiter, Jsp.rule e.whole⟩

/-- Under the standard grammar a page is a standard page. -/
theorem ofSource_standard (source : Text) (file : Option String) (excerptLength : Int) :
    ofSource source file excerptLength .standard = .ok (standard source file excerptLength) := rfl

variable {source : Text} (file : Option String) (n : Int)

/-- A failure at an offset of the page points there. -/
theorem fault_pointsFrom {cause : Cause} {from' offset : Nat} (hcause : cause.IsNotMissing)
    (hle : from' ≤ offset) (hend : offset ≤ source.length) :
    ((standard source file n).fault cause offset).PointsFrom source from' := by
  refine ⟨hcause, offset, ?_, hle, hend⟩
  simp only [standard, LexError.located]
  rw [Location.offset_ofOffset hend]

/-- The reason why a match failed points at the place of the match or behind it. -/
theorem failure_pointsFrom {a : Attempt} {expected : String} {from' offset : Nat}
    (ha : a.FaultsFrom source Cause.IsNotMissing from') (hle : from' ≤ offset)
    (hend : offset ≤ source.length) :
    ((standard source file n).failure a expected offset).PointsFrom source from' := by
  unfold failure
  split
  · rename_i f hf
    obtain ⟨h₁, h₂, h₃⟩ := ha f hf
    exact fault_pointsFrom file n h₃ h₁ h₂
  · exact fault_pointsFrom file n (by simp [Cause.IsNotMissing]) hle hend
  · exact fault_pointsFrom file n (by simp [Cause.IsNotMissing]) hle hend

/-- Trying a matcher that is not nullable: it does not come to an end, it fails, or it matches and
takes at least one character. -/
theorem attempt_cases {m : Production} (hm : m.ReportsOnly Cause.IsNotMissing)
    (hn : ¬m.Nullable Jsp.rules) {a : Attempt} {c : Cursor} (hc : c.Within source)
    (ha : a.FaultsFrom source Cause.IsNotMissing c.offset) :
    (∃ halt, (standard source file n).attempt m a c = .error (.halted halt)) ∨
    (∃ a', (standard source file n).attempt m a c = .ok (none, a') ∧
      a'.FaultsFrom source Cause.IsNotMissing c.offset) ∨
    ∃ d a', (standard source file n).attempt m a c = .ok (some d, a') ∧ d.Within source ∧
      c.offset < d.offset ∧ a'.fatal = none := by
  have hforward := Matcher.forward_step Jsp.rules_reportsOnly
    (m.bound Jsp.rules (standard source file n).length) hm hc ha
  unfold attempt
  generalize m.step Jsp.rules (m.bound Jsp.rules (standard source file n).length) a c = outcome
    at hforward ⊢
  cases hforward with
  | halts halt => exact Or.inl ⟨halt, rfl⟩
  | fails hfaults => exact Or.inr (Or.inl ⟨_, rfl, hfaults⟩)
  | stops hd hle hstay hclean =>
      have hlt : c.offset < _ := lt_of_le_of_ne hle fun heq => hn (hstay heq.symm)
      exact Or.inr (Or.inr ⟨_, _, rfl, hd, hlt, hclean⟩)

/-- Trying a rule halts, fails with what was reported, or ends further on without a report. -/
theorem attempt_rule_cases (r : Rule) {a : Attempt} {c : Cursor} (hc : c.Within source)
    (ha : a.FaultsFrom source Cause.IsNotMissing c.offset) :
    (∃ halt, (standard source file n).attempt (Jsp.rule r) a c = .error (.halted halt)) ∨
    (∃ a', (standard source file n).attempt (Jsp.rule r) a c = .ok (none, a') ∧
      a'.FaultsFrom source Cause.IsNotMissing c.offset) ∨
    ∃ d a', (standard source file n).attempt (Jsp.rule r) a c = .ok (some d, a') ∧
      d.Within source ∧ c.offset < d.offset ∧ a'.fatal = none :=
  attempt_cases file n (Jsp.rules_reportsOnly r _ rfl) (Jsp.not_nullable_rule r) hc ha

/-- Every rule of the page grammar is there to be looked up. -/
theorem lookUp_standard (r : Rule) :
    (standard source file n).lookUp r = .ok (Jsp.rule r) := rfl

/-- The matcher of an end tag repeats the name that was remembered, unless that is empty. -/
theorem closer_cases (source : Text) (file : Option String) (n : Int)
    (remembered : Option Value) :
    (∃ e, (standard source file n).closer remembered = .error (.definition e)) ∨
    ∃ name, ∃ nonempty : name ≠ [], (standard source file n).closer remembered =
      .ok (name, Jsp.closer name nonempty (Jsp.rule .space)) := by
  unfold closer
  dsimp only
  split
  · split
    · rename_i nonempty
      exact Or.inr ⟨_, nonempty, rfl⟩
    · exact Or.inl ⟨.emptyLiteral, rfl⟩
  · exact Or.inl ⟨.emptyLiteral, rfl⟩

/-- What a try at a place may lead to. -/
def TrySpec (source : Text) (openTags : List OpenTag) (c : Cursor) :
    Except LexFailure Try → Prop
  | .error failure => failure.PointsFrom source c.offset
  | .ok (.miss a) => a.FaultsFrom source Cause.IsNotMissing c.offset
  | .ok (.hit s) => s.Ahead source openTags c

variable {openTags : List OpenTag} {a : Attempt} {c : Cursor}

/-- Trying the constructs that are told by their delimiters. -/
theorem construct_spec (hc : c.Within source) (ha : a.FaultsFrom source Cause.IsNotMissing c.offset)
    (hopen : ∀ tag ∈ openTags, tag.IsStandard) (entries : List (Construct Rule))
    (kinds : ∀ e ∈ entries, e.kind ≠ .startTag ∧ e.kind ≠ .endTag) :
    TrySpec source openTags c
      ((standard source file n).construct openTags c
        (entries.map fun e => ⟨e.kind, Jsp.rule e.delimiter, Jsp.rule e.whole⟩) a) := by
  induction entries generalizing a with
  | nil => exact ha
  | cons e entries ih =>
      have hkind := kinds e (List.mem_cons_self ..)
      have hkinds : ∀ e' ∈ entries, e'.kind ≠ .startTag ∧ e'.kind ≠ .endTag :=
        fun e' hmem => kinds e' (List.mem_cons_of_mem _ hmem)
      simp only [List.map_cons, construct]
      rcases attempt_rule_cases file n e.delimiter hc ha with
        ⟨halt, eq⟩ | ⟨a₁, eq, ha₁⟩ | ⟨d, a₁, eq, -, -, hclean₁⟩ <;>
        simp only [eq, bind, Except.bind]
      · trivial
      · split
        · exact failure_pointsFrom file n ha₁ le_rfl hc.offset_le
        · exact ih ha₁ hkinds
      · have ha₁ : a₁.FaultsFrom source Cause.IsNotMissing c.offset :=
          Attempt.faultsFrom_of_clean hclean₁ _
        rcases attempt_rule_cases file n e.whole hc ha₁ with
          ⟨halt, eq'⟩ | ⟨a₂, eq', ha₂⟩ | ⟨stop, a₂, eq', hstop, hlt, hclean₂⟩ <;>
          simp only [eq']
        · trivial
        · exact failure_pointsFrom file n ha₂ le_rfl hc.offset_le
        · refine ⟨hstop, hlt, Attempt.faultsFrom_of_clean hclean₂ _, ?_, hopen⟩
          simp only [Kind.openOffsets]
          split
          · rename_i heq
            exact absurd heq hkind.1
          · rename_i heq
            exact absurd heq hkind.2
          · rfl

/-- A try of a stray end tag leads to what a try may lead to. -/
theorem strayEndTag_spec (hc : c.Within source)
    (ha : a.FaultsFrom source Cause.IsNotMissing c.offset) :
    TrySpec source openTags c ((standard source file n).strayEndTag openTags c a) := by
  unfold strayEndTag
  simp only [lookUp_standard, bind, Except.bind]
  rcases attempt_rule_cases file n .actionEndDelimiter hc ha with
    ⟨halt, eq⟩ | ⟨a₁, eq, ha₁⟩ | ⟨d, a₁, eq, -, -, hclean₁⟩ <;> simp only [eq]
  · trivial
  · exact ha₁
  · have ha₁ : a₁.FaultsFrom source Cause.IsNotMissing c.offset :=
      Attempt.faultsFrom_of_clean hclean₁ _
    rcases attempt_rule_cases file n .actionEnd hc ha₁ with
      ⟨halt, eq'⟩ | ⟨a₂, eq', ha₂⟩ | ⟨stop, a₂, eq', -, -, -⟩ <;> simp only [eq']
    · trivial
    · exact failure_pointsFrom file n ha₂ le_rfl hc.offset_le
    · -- reading the name may not come to an end, but it cannot report anything
      split
      · rename_i failure hname
        unfold attempt at hname
        split at hname
        · cases hname
        · cases hname
          trivial
      · refine fault_pointsFrom file n ?_ le_rfl hc.offset_le
        cases openTags <;> simp [misplacedEndTag, Cause.IsNotMissing]

/-- A try of an end tag leads to what a try may lead to. -/
theorem endTag_spec (hc : c.Within source) (ha : a.FaultsFrom source Cause.IsNotMissing c.offset)
    (hopen : ∀ tag ∈ openTags, tag.IsStandard) :
    TrySpec source openTags c ((standard source file n).endTag openTags c a) := by
  cases openTags with
  | nil => exact strayEndTag_spec file n hc ha
  | cons tag below =>
      obtain ⟨nonempty, hcloser⟩ := hopen tag (List.mem_cons_self ..)
      have hrule := Jsp.closer_rule tag.name nonempty
      simp only [endTag, hcloser]
      rcases attempt_cases file n (hrule.1 _) hrule.2 hc ha with
        ⟨halt, eq⟩ | ⟨a₁, eq, ha₁⟩ | ⟨stop, a₁, eq, hstop, hlt, hclean⟩ <;>
        simp only [eq, bind, Except.bind]
      · trivial
      · exact strayEndTag_spec file n hc ha₁
      · exact ⟨hstop, hlt, Attempt.faultsFrom_of_clean hclean _, rfl,
          fun tag' hmem => hopen tag' (List.mem_cons_of_mem _ hmem)⟩

/-- A try of a start tag leads to what a try may lead to. -/
theorem startTag_spec (hc : c.Within source) (ha : a.FaultsFrom source Cause.IsNotMissing c.offset)
    (hopen : ∀ tag ∈ openTags, tag.IsStandard) :
    TrySpec source openTags c ((standard source file n).startTag openTags c a) := by
  unfold startTag
  simp only [lookUp_standard, bind, Except.bind]
  rcases attempt_rule_cases file n .actionStartDelimiter hc ha with
    ⟨halt, eq⟩ | ⟨a₁, eq, ha₁⟩ | ⟨d, a₁, eq, -, -, hclean₁⟩ <;> simp only [eq]
  · trivial
  · exact ha₁
  have ha₁ : a₁.FaultsFrom source Cause.IsNotMissing c.offset :=
    Attempt.faultsFrom_of_clean hclean₁ _
  rcases attempt_rule_cases file n .actionStart hc ha₁ with
    ⟨halt, eq₂⟩ | ⟨a₂, eq₂, ha₂⟩ | ⟨named, a₂, eq₂, hnamed, hlt₂, hclean₂⟩ <;> simp only [eq₂]
  · trivial
  · exact failure_pointsFrom file n ha₂ le_rfl hc.offset_le
  -- forgetting the name of the tag reports nothing
  generalize hforgot : ({ a₂ with store := a₂.store.delete Jsp.tagNameKey } : Attempt) = a₃
  have ha₃ : a₃.FaultsFrom source Cause.IsNotMissing named.offset :=
    Attempt.faultsFrom_of_clean (by rw [← hforgot, ← hclean₂]) _
  rcases attempt_rule_cases file n .actionEmptyEnd hnamed ha₃ with
    ⟨halt, eq₄⟩ | ⟨a₄, eq₄, ha₄⟩ | ⟨stop, a₄, eq₄, hstop, hlt₄, hclean₄⟩ <;> simp only [eq₄]
  · trivial
  · rcases attempt_rule_cases file n .actionTagEnd hnamed ha₄ with
      ⟨halt, eq₅⟩ | ⟨a₅, eq₅, ha₅⟩ | ⟨body, a₅, eq₅, hbody, hlt₅, hclean₅⟩ <;> simp only [eq₅]
    · trivial
    · exact (failure_pointsFrom file n ha₅ le_rfl hnamed.offset_le).mono (by omega)
    · rcases closer_cases source file n (a₂.store.view Jsp.tagNameKey) with
        ⟨e, hcloser⟩ | ⟨name, nonempty, hcloser⟩ <;> simp only [hcloser]
      · trivial
      have hrule := Jsp.closer_rule name nonempty
      have ha₅ : a₅.FaultsFrom source Cause.IsNotMissing body.offset :=
        Attempt.faultsFrom_of_clean hclean₅ _
      rcases attempt_cases file n (hrule.1 _) hrule.2 hbody ha₅ with
        ⟨halt, eq₆⟩ | ⟨a₆, eq₆, ha₆⟩ | ⟨stop, a₆, eq₆, hstop, hlt₆, hclean₆⟩ <;> simp only [eq₆]
      · trivial
      · refine ⟨hbody, by simp only; omega, ha₆, rfl, ?_⟩
        intro tag hmem
        rcases List.mem_cons.1 hmem with rfl | hmem
        · exact ⟨nonempty, rfl⟩
        · exact hopen tag hmem
      · exact ⟨hstop, by simp only; omega, Attempt.faultsFrom_of_clean hclean₆ _, rfl, hopen⟩
  · exact ⟨hstop, by simp only; omega, Attempt.faultsFrom_of_clean hclean₄ _, rfl, hopen⟩

/-- Template text leads on, or to a failure that points behind the place. -/
theorem templateText_spec (hc : c.Within source)
    (ha : a.FaultsFrom source Cause.IsNotMissing c.offset)
    (hopen : ∀ tag ∈ openTags, tag.IsStandard) :
    match (standard source file n).templateText openTags c a with
    | .error failure => failure.PointsFrom source c.offset
    | .ok sighting => sighting.Ahead source openTags c := by
  unfold templateText
  simp only [lookUp_standard, bind, Except.bind]
  rcases attempt_rule_cases file n .templateText hc ha with
    ⟨halt, eq⟩ | ⟨a₁, eq, ha₁⟩ | ⟨stop, a₁, eq, hstop, hlt, hclean⟩ <;> simp only [eq]
  · trivial
  · exact failure_pointsFrom file n ha₁ le_rfl hc.offset_le
  · exact ⟨hstop, hlt, Attempt.faultsFrom_of_clean hclean _, rfl, hopen⟩

/-- What stands at a place of a page. -/
theorem sight_spec {s : Progress} (hc : s.place.Within source)
    (hfaults : Attempt.FaultsFrom source Cause.IsNotMissing s.offset
      { store := s.store, fatal := s.fatal })
    (hopen : ∀ tag ∈ s.openTags, tag.IsStandard) :
    match (standard source file n).sight s with
    | .error failure => failure.PointsFrom source s.offset
    | .ok sighting => sighting.Ahead source s.openTags s.place := by
  unfold sight
  simp only [bind, Except.bind]
  have hconstruct := construct_spec file n hc hfaults hopen Jsp.constructs
    (by decide)
  change TrySpec source s.openTags s.place ((standard source file n).construct
    s.openTags s.place (standard source file n).constructs _) at hconstruct
  generalize (standard source file n).construct s.openTags s.place
    (standard source file n).constructs { store := s.store, fatal := s.fatal } = first
    at hconstruct ⊢
  rcases first with failure | ⟨a⟩ | sighting
  · exact hconstruct
  · have hend := endTag_spec file n hc hconstruct hopen
    dsimp only
    generalize (standard source file n).endTag s.openTags s.place a = second
      at hend ⊢
    rcases second with failure | ⟨a⟩ | sighting
    · exact hend
    · have hstart := startTag_spec file n hc hend hopen
      dsimp only
      generalize (standard source file n).startTag s.openTags s.place a = third
        at hstart ⊢
      rcases third with failure | ⟨a⟩ | sighting
      · exact hstart
      · exact templateText_spec file n hc hstart hopen
      · exact hstart
    · exact hend
  · exact hconstruct

end Page

end Stencil
