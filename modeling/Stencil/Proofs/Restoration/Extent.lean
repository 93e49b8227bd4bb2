import Stencil.Proofs.Restoration.Weave
import Stencil.Proofs.Substitution.Placing
import Stencil.Restoration

/-!
# How far placeholders reach

What a placeholder was found to take of the text around it is given back when its record is put in
its place. This holds of placeholders as they were put there (`Placed`) and as they are with white
space put in or taken out (`Spaced`): the placeholder that restoration builds anew from a record
tells only the form of the one that stands in the text. `Spaced.extent` has one case for each form,
and `Restoration.restoreFrom_woven` lifts it to a whole text.
-/

set_option autoImplicit false

namespace Stencil

open Placeholder

namespace Text

/-- What is recognised behind some text is found in it, there or earlier. -/
theorem isSome_firstMatch? {α : Type} {recognise : Text → Option α} (before : Text) {t : Text}
    (h : (recognise t).isSome = true) : (firstMatch? recognise (before ++ t)).isSome = true := by
  induction before with
  | nil =>
      obtain ⟨a, ha⟩ := Option.isSome_iff_exists.1 h
      cases t with
      | nil => simp [firstMatch?, ha]
      | cons c t => simp [firstMatch?, ha]
  | cons c before ih =>
      obtain ⟨answer, hanswer⟩ := Option.isSome_iff_exists.1 ih
      rw [List.cons_append, firstMatch?]
      split
      · rfl
      · rw [hanswer]
        rfl

end Text

namespace Placeholder

/-- What opens is of the family of openings. -/
theorem Opens.family {form : OpeningForm} {f : Found} (h : Opens form f) :
    f.family = .opening := by
  cases h <;> rfl

/-- A comment starts where it stands. -/
theorem after?_isSome_of_isComment {filler : Char} {t : Text} (h : IsComment filler t)
    (rest : Text) :
    (Text.after? "/*".toList (t ++ rest)).isSome = true := by
  obtain ⟨body, -, rfl⟩ := h
  rw [List.append_assoc, List.append_assoc, Text.after?_eq_some_iff.2 rfl]
  rfl

/-- No comment starts where no slash stands. -/
theorem after?_eq_none_of_head {t : Text} (h : t.head? ≠ some '/') :
    Text.after? "/*".toList t = none := by
  cases hafter : Text.after? "/*".toList t with
  | none => rfl
  | some rest =>
      rw [Text.after?_eq_some_iff.1 hafter] at h
      exact absurd rfl h

/-- An opening opens a block unless it is a comment alone. -/
theorem Opens.opensBlock {form : OpeningForm} {f : Found} (h : Opens form f) :
    opensBlock f.text = (form != .bare) := by
  unfold Placeholder.opensBlock
  cases h with
  | @condition core hcore =>
      rw [after?_eq_none_of_head (by simp [Found.text, hcore.head])]
      rfl
  | @trailed core trail hcore htrail =>
      have hhead : (core ++ trail).head? = some 'i' := by
        rw [List.head?_append, hcore.head]
        rfl
      rw [after?_eq_none_of_head (by simp [Found.text, hcore.head])]
      rfl
  | braced hcore =>
      rw [after?_eq_none_of_head (by simp [Found.text])]
      rfl
  | @bare core hcore =>
      obtain ⟨rest, hrest⟩ := Option.isSome_iff_exists.1 (after?_isSome_of_isComment hcore [])
      simp only [Found.text, List.nil_append, List.append_nil] at hrest ⊢
      rw [hrest]
      rfl

/-- A condition holds no slash. -/
theorem IsCondition.not_mem_slash {t : Text} (h : IsCondition t) : '/' ∉ t := by
  obtain ⟨space, n, space', hspace, hspace', rfl⟩ := h
  have hblank : ∀ {s : Text}, Text.Blanks s → '/' ∉ s := fun hs hmem =>
    absurd (hs _ hmem) (by decide)
  simp [hblank hspace, hblank hspace', Sentinel.opening]

/-- An opening has a comment in it unless it is a condition alone. -/
theorem Opens.hasComment {form : OpeningForm} {f : Found} (h : Opens form f) :
    (Text.firstMatch? (Text.after? "/*".toList) f.text).isSome = (form != .condition) := by
  cases h with
  | @condition core hcore =>
      have hnone : Text.firstMatch? (Text.after? "/*".toList) core = none := by
        refine Text.firstMatch?_eq_none fun x y hxy => after?_eq_none_of_head fun hhead => ?_
        have hmem : '/' ∈ y := List.mem_of_mem_head? hhead
        refine hcore.not_mem_slash ?_
        rw [hxy]
        exact List.mem_append_right _ hmem
      rw [Found.text_core, hnone]
      rfl
  | @trailed core trail hcore htrail =>
      have hsome := after?_isSome_of_isComment htrail []
      rw [List.append_nil] at hsome
      exact Text.isSome_firstMatch? ([] ++ core) hsome
  | @braced core hcore =>
      have hsome := after?_isSome_of_isComment hcore []
      exact Text.isSome_firstMatch? ['{'] hsome
  | @bare core hcore =>
      have hsome := after?_isSome_of_isComment hcore []
      exact Text.isSome_firstMatch? [] hsome

end Placeholder

namespace Restoration

/-- How far an opening reaches depends on the form that the placeholder of its record has. -/
theorem openingExtent_of_opens {form : OpeningForm} {g : Found} (h : Opens form g) (f : Found)
    (braced : List Bool) :
    openingExtent f g.text braced =
      match form with
      | .bare => ⟨f.lead, [], false :: braced⟩
      | .condition => ⟨[], f.trail, true :: braced⟩
      | _ => ⟨[], [], true :: braced⟩ := by
  unfold openingExtent
  rw [h.opensBlock, h.hasComment]
  cases form <;> rfl

end Restoration

/-- What a placeholder takes in front is part of the text and of its lead, and nothing gets lost. -/
theorem Takes.join {gap before lead : Text} {g : Found} (h : Takes gap g before lead) :
    before ++ lead = gap ++ g.lead := by
  cases h with
  | own => rfl
  | brace hlead hcore hmark htaken hgap => rw [hlead, hgap, List.append_nil]

/-- Only a comment with no brace of its own takes one. -/
theorem Takes.eq_own {gap before lead : Text} {g : Found} (h : Takes gap g before lead)
    (hown : g.lead = [] → IsComment g.family.filler g.core → g.family.mark? = none) :
    before = gap ∧ lead = g.lead := by
  cases h with
  | own => exact ⟨rfl, rfl⟩
  | brace hlead hcore hmark =>
      rw [hown hlead hcore] at hmark
      cases hmark

/-- Only a condition with no comment of its own takes one. -/
theorem Leaves.eq_own {g : Found} {items : List Item} {last trail after : Text}
    (h : Leaves g items last trail after) (hown : g.trail = [] → ¬ IsCondition g.core) :
    trail = g.trail ∧ after = woven items last := by
  cases h with
  | own => exact ⟨rfl, rfl⟩
  | comment htrail hcore => exact absurd hcore (hown htrail)

namespace Placeholder

/-- An opening as it may stand in a text, with white space in it that was not built. -/
inductive Stands : OpeningForm → Found → Prop
  | condition {core : Text} (hcore : IsCondition core) : Stands .condition ⟨.opening, [], core, []⟩
  | trailed {core trail : Text} (hcore : IsCondition core)
      (htrail : IsTrail Sentinel.opening trail) : Stands .trailed ⟨.opening, [], core, trail⟩
  | braced {lead core : Text} (hlead : IsLead '{' lead) (hcore : IsComment Sentinel.opening core) :
      Stands .braced ⟨.opening, lead, core, []⟩
  | bare {core : Text} (hcore : IsComment Sentinel.opening core) :
      Stands .bare ⟨.opening, [], core, []⟩

/-- A comment is a trail without white space. -/
theorem IsComment.isTrail {filler : Char} {t : Text} (h : IsComment filler t) : IsTrail filler t :=
  ⟨[], t, Text.blanks_of_all rfl, h, rfl⟩

/-- A trail is not empty. -/
theorem IsTrail.ne_nil {filler : Char} {t : Text} (h : IsTrail filler t) : t ≠ [] := by
  obtain ⟨space, core, -, hcore, rfl⟩ := h
  intro hnil
  exact hcore.ne_nil (List.append_eq_nil_iff.1 hnil).2

/-- A mark alone is a lead. -/
theorem isLead_singleton (mark : Char) : IsLead mark [mark] :=
  ⟨[], Text.blanks_of_all rfl, rfl⟩

/-- A lead is not empty. -/
theorem IsLead.ne_nil {mark : Char} {t : Text} (h : IsLead mark t) : t ≠ [] := by
  obtain ⟨space, -, rfl⟩ := h
  exact List.cons_ne_nil _ _

/-- An opening as it is built can stand in a text. -/
theorem Opens.stands {form : OpeningForm} {f : Found} (h : Opens form f) : Stands form f := by
  cases h with
  | condition hcore => exact .condition hcore
  | trailed hcore htrail => exact .trailed hcore htrail.isTrail
  | braced hcore => exact .braced (isLead_singleton '{') hcore
  | bare hcore => exact .bare hcore

namespace Stands

variable {form : OpeningForm} {g : Found}

/-- An opening that stands in a text is of the family of openings. -/
theorem family (h : Stands form g) : g.family = .opening := by
  cases h <;> rfl

/-- An opening that stands in a text is proper. -/
theorem proper (h : Stands form g) : g.Proper := by
  cases h with
  | condition hcore => exact .condition hcore (Or.inl rfl)
  | trailed hcore htrail => exact .condition hcore (Or.inr htrail)
  | braced hlead hcore => exact .comment (by decide) (Or.inr ⟨'{', rfl, hlead⟩) hcore
  | bare hcore => exact .comment (by decide) (Or.inl rfl) hcore

/-- What the placeholder of a start tag takes of the text around it is given back, if the
placeholder that is built anew has its form. -/
theorem extent (h : Stands form g) {f : Found} (hbuilt : Opens form f) {gap before lead : Text}
    (htakes : Takes gap g before lead) {items : List Item} {last trail after : Text}
    (hleaves : Leaves g items last trail after) (braced : List Bool) :
    ∃ e, Restoration.openingExtent ⟨g.family, lead, g.core, trail⟩ f.text braced = e ∧
      before ++ e.before = gap ∧ e.after ++ after = woven items last ∧
      e.braced = opensBlock f.text :: braced := by
  rw [Restoration.openingExtent_of_opens hbuilt, hbuilt.opensBlock]
  have hjoin := htakes.join
  have htext := hleaves.text_eq
  cases h with
  | condition hcore =>
      obtain ⟨rfl, -⟩ := htakes.eq_own fun _ hcomment => absurd hcore hcomment.not_isCondition
      exact ⟨_, rfl, List.append_nil _, htext, rfl⟩
  | trailed hcore htrail =>
      obtain ⟨rfl, -⟩ := htakes.eq_own fun _ hcomment => absurd hcore hcomment.not_isCondition
      obtain ⟨-, rfl⟩ := hleaves.eq_own fun hnil => absurd hnil htrail.ne_nil
      exact ⟨_, rfl, List.append_nil _, rfl, rfl⟩
  | braced hlead hcore =>
      obtain ⟨rfl, -⟩ := htakes.eq_own fun hnil => absurd hnil hlead.ne_nil
      obtain ⟨-, rfl⟩ := hleaves.eq_own fun _ hcondition => hcore.not_isCondition hcondition
      exact ⟨_, rfl, List.append_nil _, rfl, rfl⟩
  | bare hcore =>
      obtain ⟨-, rfl⟩ := hleaves.eq_own fun _ hcondition => hcore.not_isCondition hcondition
      exact ⟨_, rfl, by simpa using hjoin, rfl, rfl⟩

end Stands

/-- An opening as it is built is proper. -/
theorem Opens.proper {form : OpeningForm} {f : Found} (h : Opens form f) : f.Proper :=
  h.stands.proper

end Placeholder

/-- The placeholder of a record as it may stand in a text, with white space in it that was not
built. An opening has the form of the one that is built for its record. -/
inductive Spaced (number : Nat) : Record → List Bool → Found → List Bool → Prop
  | comment {r : Record} {braced : List Bool} {core : Text}
      (hkind : r.kind.family? = some .comment)
      (hcore : IsComment Sentinel.comment core ∨ IsLineComment core) :
      Spaced number r braced ⟨.comment, [], core, []⟩ braced
  | identifier {r : Record} {braced : List Bool} {core trail : Text}
      (hkind : r.kind.family? = some .identifier) (hcore : IsName core)
      (htrail : trail = [] ∨ IsTrail Sentinel.identifierEnd trail)
      (hnumber : IsNumbered (core ++ trail) number) :
      Spaced number r braced ⟨.identifier, [], core, trail⟩ braced
  | opening {r : Record} {braced : List Bool} {form : OpeningForm} {f g : Found}
      (hkind : r.kind.family? = some .opening) (hform : Opens form f)
      (hbuilt : Placeholder.opening (Layout.of r.construct) = some f.text)
      (hstands : Stands form g) : Spaced number r braced g (opensBlock f.text :: braced)
  | closing {r : Record} {isBraced : Bool} {below : List Bool} {lead core : Text}
      (hkind : r.kind.family? = some .closing)
      (hlead : if isBraced then IsLead '}' lead else lead = [])
      (hcore : IsComment Sentinel.closing core) :
      Spaced number r (isBraced :: below) ⟨.closing, lead, core, []⟩ below

/-- A placeholder as it was put there can stand in a text. -/
theorem Placed.spaced {number : Nat} {r : Record} {braced braced' : List Bool} {g : Found}
    (h : Placed number r braced g braced') : Spaced number r braced g braced' := by
  cases h with
  | comment hkind hcore => exact .comment hkind hcore
  | identifier hkind hcore htrail hnumber =>
      exact .identifier hkind hcore (htrail.imp_right (·.isTrail)) hnumber
  | opening hkind hform hbuilt => exact .opening hkind hform hbuilt hform.stands
  | @closing isBraced _ _ hkind hcore =>
      refine .closing hkind ?_ hcore
      cases isBraced with
      | false => rfl
      | true => exact isLead_singleton '}'

namespace Spaced

variable {number : Nat} {r : Record} {braced braced' : List Bool} {g : Found}

/-- A placeholder with other white space is proper. -/
theorem proper (h : Spaced number r braced g braced') : g.Proper := by
  cases h with
  | comment hkind hcore =>
      rcases hcore with hcore | hcore
      · exact .comment (by decide) (Or.inl rfl) hcore
      · exact .lineComment hcore
  | identifier hkind hcore htrail => exact .name hcore htrail
  | opening hkind hform hbuilt hstands => exact hstands.proper
  | @closing isBraced below lead core hkind hlead hcore =>
      refine .comment (by decide) ?_ hcore
      cases isBraced with
      | false => exact Or.inl hlead
      | true => exact Or.inr ⟨'}', rfl, hlead⟩

/-- What the placeholder of a record takes of the text around it is given back. -/
theorem extent (h : Spaced number r braced g braced') {gap before lead : Text}
    (htakes : Takes gap g before lead) {items : List Item} {last trail after : Text}
    (hleaves : Leaves g items last trail after) :
    ∃ e, Restoration.extent ⟨g.family, lead, g.core, trail⟩ r number braced = .ok e ∧
      before ++ e.before = gap ∧ e.after ++ after = woven items last ∧ e.braced = braced' := by
  cases h with
  | @comment _ core hkind hcore =>
      obtain ⟨rfl, -⟩ := htakes.eq_own fun _ _ => rfl
      obtain ⟨-, rfl⟩ := hleaves.eq_own fun _ hcondition => by
        rcases hcore with hcore | hcore
        · exact hcore.not_isCondition hcondition
        · exact absurd (hcore.head.symm.trans hcondition.head) (by decide)
      refine ⟨⟨[], [], braced⟩, ?_, List.append_nil _, rfl, rfl⟩
      simp [Restoration.extent, hkind]
  | @identifier _ core _ hkind hcore htrail hnumber =>
      obtain ⟨rfl, rfl⟩ := htakes.eq_own fun _ _ => rfl
      obtain ⟨rfl, rfl⟩ := hleaves.eq_own fun _ hcondition =>
        absurd (hcore.head.symm.trans hcondition.head) (by decide)
      refine ⟨⟨[], [], braced⟩, ?_, List.append_nil _, rfl, rfl⟩
      cases hordinal : ordinal? (core ++ trail) with
      | none => simp [Restoration.extent, hkind, Found.text, hordinal]
      | some answer =>
          obtain ⟨taken, digits⟩ := answer
          have hvalue := hnumber taken digits hordinal
          simp [Restoration.extent, hkind, Found.text, hordinal, hvalue]
  | @opening _ form f g hkind hform hbuilt hstands =>
      have hextent : Restoration.extent ⟨g.family, lead, g.core, trail⟩ r number braced =
          .ok (Restoration.openingExtent ⟨g.family, lead, g.core, trail⟩ f.text braced) := by
        simp [Restoration.extent, hkind, hstands.family, hbuilt]
      obtain ⟨e, he, hrest⟩ := hstands.extent hform htakes hleaves braced
      rw [hextent, he]
      exact ⟨e, rfl, hrest⟩
  | @closing isBraced below own core hkind hlead hcore =>
      have hjoin := htakes.join
      obtain ⟨-, rfl⟩ := hleaves.eq_own fun _ hcondition => hcore.not_isCondition hcondition
      cases isBraced with
      | false =>
          obtain rfl : own = [] := hlead
          refine ⟨⟨lead, [], braced'⟩, ?_, by simpa using hjoin, rfl, rfl⟩
          simp [Restoration.extent, hkind, Restoration.closingExtent]
      | true =>
          obtain ⟨rfl, -⟩ := htakes.eq_own fun hnil => absurd hnil hlead.ne_nil
          refine ⟨⟨[], [], braced'⟩, ?_, List.append_nil _, rfl, rfl⟩
          simp [Restoration.extent, hkind, Restoration.closingExtent]

end Spaced

namespace Placed

variable {number : Nat} {r : Record} {braced braced' : List Bool} {g : Found}

/-- A placeholder as it is put in the place of a record is proper. -/
theorem proper (h : Placed number r braced g braced') : g.Proper := h.spaced.proper

/-- The extent of a placeholder gives back all that it took of the text around it. -/
theorem extent (h : Placed number r braced g braced') {gap before lead : Text}
    (htakes : Takes gap g before lead) {items : List Item} {last trail after : Text}
    (hleaves : Leaves g items last trail after) :
    ∃ e, Restoration.extent ⟨g.family, lead, g.core, trail⟩ r number braced = .ok e ∧
      before ++ e.before = gap ∧ e.after ++ after = woven items last ∧ e.braced = braced' :=
  h.spaced.extent htakes hleaves

end Placed

/-- The placeholders of records, one after the other. -/
inductive PlacedAll : Nat → List Bool → List Record → List Found → Prop
  | nil {number : Nat} {braced : List Bool} : PlacedAll number braced [] []
  | cons {number : Nat} {braced braced' : List Bool} {r : Record} {g : Found} {rs : List Record}
      {gs : List Found} (hplaced : Placed number r braced g braced')
      (hrest : PlacedAll (number + 1) braced' rs gs) :
      PlacedAll number braced (r :: rs) (g :: gs)

/-- The same, as they may stand in a text. -/
inductive SpacedAll : Nat → List Bool → List Record → List Found → Prop
  | nil {number : Nat} {braced : List Bool} : SpacedAll number braced [] []
  | cons {number : Nat} {braced braced' : List Bool} {r : Record} {g : Found} {rs : List Record}
      {gs : List Found} (hspaced : Spaced number r braced g braced')
      (hrest : SpacedAll (number + 1) braced' rs gs) :
      SpacedAll number braced (r :: rs) (g :: gs)

/-- Placeholders as they are built may stand in a text. -/
theorem PlacedAll.spaced {number : Nat} {braced : List Bool} {rs : List Record} {gs : List Found}
    (h : PlacedAll number braced rs gs) : SpacedAll number braced rs gs := by
  induction h with
  | nil => exact .nil
  | cons hplaced hrest ih => exact .cons hplaced.spaced ih

/-- There are as many placeholders as records. -/
theorem SpacedAll.length_eq {number : Nat} {braced : List Bool} {rs : List Record}
    {gs : List Found} (h : SpacedAll number braced rs gs) : gs.length = rs.length := by
  induction h with
  | nil => rfl
  | cons hspaced hrest ih => rw [List.length_cons, List.length_cons, ih]

/-- Placeholders with other white space are proper. -/
theorem SpacedAll.proper {number : Nat} {braced : List Bool} {rs : List Record}
    {gs : List Found} (h : SpacedAll number braced rs gs) : ∀ g ∈ gs, g.Proper := by
  induction h with
  | nil => exact fun g hg => absurd hg List.not_mem_nil
  | cons hspaced hrest ih =>
      intro g hg
      rcases List.mem_cons.1 hg with rfl | hg
      · exact hspaced.proper
      · exact ih g hg

/-- There are as many placeholders as records. -/
theorem PlacedAll.length_eq {number : Nat} {braced : List Bool} {rs : List Record}
    {gs : List Found} (h : PlacedAll number braced rs gs) : gs.length = rs.length :=
  h.spaced.length_eq

/-- Placeholders as they are put in the places of records are proper. -/
theorem PlacedAll.proper {number : Nat} {braced : List Bool} {rs : List Record}
    {gs : List Found} (h : PlacedAll number braced rs gs) : ∀ g ∈ gs, g.Proper :=
  h.spaced.proper

namespace Restoration

/-- Records go back to where their placeholders stand. -/
theorem restoreFrom_woven (count : Nat) {number : Nat} {braced : List Bool} {rs : List Record}
    {items : List Item} {last : Text} (hspaced : SpacedAll number braced rs (items.map (·.2)))
    (hgaps : ∀ item ∈ items, Text.Plain item.1) (hlast : Text.Plain last) :
    restoreFrom count rs number braced (woven items last) =
      .ok (Text.weave (items.map (·.1) ++ [last]) (rs.map (·.construct))) := by
  induction items generalizing number braced rs with
  | nil =>
      cases hspaced
      rw [restoreFrom, woven, next?_plain hlast]
      rfl
  | cons item items ih =>
      obtain ⟨gap, g⟩ := item
      have hproper : ProperItems ((gap, g) :: items) := fun item hitem =>
        ⟨hgaps item hitem, hspaced.proper _ (List.mem_map_of_mem hitem)⟩
      cases hspaced with
      | @cons _ _ braced' r _ rs _ hspaced hrest =>
          obtain ⟨before, lead, trail, after, hfound, htakes, hleaves⟩ := next?_woven hproper hlast
          obtain ⟨e, hextent, hbefore, hafter, hbraced⟩ := hspaced.extent htakes hleaves
          have hrun := ih hrest fun item hitem => hgaps item (List.mem_cons_of_mem _ hitem)
          rw [restoreFrom, hfound]
          dsimp only
          rw [hextent]
          simp only [bind, Except.bind, pure, Except.pure]
          rw [hafter, hbraced, hrun]
          simp only [hbefore, List.map_cons, List.cons_append, Text.weave]

end Restoration

end Stencil
