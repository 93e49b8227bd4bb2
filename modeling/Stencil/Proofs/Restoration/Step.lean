import Stencil.Proofs.Restoration.Roundtrip

/-!
# Restoring one record

What becomes of a text in which placeholders stand between plain texts when one record is put back
into it, whether or not the first placeholder is the one that the record has. The step ends in a
mismatch or goes on with the placeholders that are left, and `Decides` carries the outcome over.

With its own placeholder a record always goes on to the next placeholder. With another one of its
family it does so too, except for start tags: a condition may leave the comment of a placeholder
behind, and a comment may be lost with the condition in front of it.
-/

set_option autoImplicit false

namespace Stencil

open Placeholder

/-- Whether an error says that the placeholders of a text are not those of the records. -/
def RestorationError.isMismatch : RestorationError → Bool
  | .surplus .. | .wrongFamily .. | .displaced .. | .shortage .. => true
  | .underlength .. | .unclassified .. => false

/-- The outcome of restoring a text: there is a result if the placeholders fit, and otherwise an
error that says that they do not. -/
def Decides (fits : Bool) : Except RestorationError Text → Prop
  | .ok _ => fits = true
  | .error e => fits = false ∧ e.isMismatch = true

/-- A record with its placeholder and the text in front of it. -/
structure Slot where
  gap : Text
  record : Record
  found : Found

/-- The placeholder of a slot behind its text. -/
def Slot.item (s : Slot) : Item := (s.gap, s.found)

/-- Slots as masking makes them, with plain texts in front of the placeholders. -/
structure Lined (number : Nat) (braced : List Bool) (slots : List Slot) : Prop where
  placed : PlacedAll number braced (slots.map (·.record)) (slots.map (·.found))
  plain : ∀ s ∈ slots, Text.Plain s.gap

/-- A placeholder is of the family that belongs to the kind of its record. -/
theorem Placed.kind_family {number : Nat} {r : Record} {braced braced' : List Bool} {g : Found}
    (h : Placed number r braced g braced') : r.kind.family? = some g.family := by
  cases h with
  | comment hkind => exact hkind
  | identifier hkind => exact hkind
  | opening hkind hform =>
      rw [hform.family]
      exact hkind
  | closing hkind => exact hkind

/-- The first slot has the placeholder of its record behind plain text, and the others go on from
there. -/
theorem Lined.of_cons {number : Nat} {braced : List Bool} {s : Slot} {slots : List Slot}
    (h : Lined number braced (s :: slots)) :
    Text.Plain s.gap ∧ ∃ braced', Placed number s.record braced s.found braced' ∧
      Lined (number + 1) braced' slots := by
  have hplain : ∀ s' ∈ slots, Text.Plain s'.gap := fun s' hs' =>
    h.plain s' (List.mem_cons_of_mem _ hs')
  cases h.placed with
  | cons hplaced hrest =>
      exact ⟨h.plain s (List.mem_cons_self ..), _, hplaced, hrest, hplain⟩

/-- A slot with the placeholder of its record behind plain text may stand in front. -/
theorem Lined.cons {number : Nat} {braced braced' : List Bool} {s : Slot} {slots : List Slot}
    (hgap : Text.Plain s.gap) (hplaced : Placed number s.record braced s.found braced')
    (h : Lined (number + 1) braced' slots) : Lined number braced (s :: slots) := by
  refine ⟨.cons hplaced h.placed, fun s' hs' => ?_⟩
  rcases List.mem_cons.1 hs' with rfl | hs'
  · exact hgap
  · exact h.plain s' hs'

/-- Slots as masking makes them have proper placeholders behind plain texts. -/
theorem Lined.properItems {number : Nat} {braced : List Bool} {slots : List Slot}
    (h : Lined number braced slots) : ProperItems (slots.map Slot.item) := by
  intro item hitem
  obtain ⟨s, hs, rfl⟩ := List.mem_map.1 hitem
  exact ⟨h.plain s hs, h.placed.proper _ (List.mem_map_of_mem hs)⟩

/-- A proper placeholder behind plain text may stand in front. -/
theorem ProperItems.cons {gap : Text} {g : Found} {items : List Item} (hgap : Text.Plain gap)
    (hg : g.Proper) (h : ProperItems items) : ProperItems ((gap, g) :: items) := by
  intro item hitem
  rcases List.mem_cons.1 hitem with rfl | hitem
  · exact ⟨hgap, hg⟩
  · exact h item hitem

/-- Two rows of proper placeholders are one. -/
theorem ProperItems.append {items items' : List Item} (h : ProperItems items)
    (h' : ProperItems items') : ProperItems (items ++ items') := by
  intro item hitem
  rcases List.mem_append.1 hitem with hitem | hitem
  · exact h item hitem
  · exact h' item hitem

/-- Both parts of a row of proper placeholders are such rows. -/
theorem ProperItems.of_append {items items' : List Item} (h : ProperItems (items ++ items')) :
    ProperItems items ∧ ProperItems items' :=
  ⟨fun item hitem => h item (List.mem_append_left _ hitem),
    fun item hitem => h item (List.mem_append_right _ hitem)⟩

section Step

variable {count number : Nat} {r : Record} {rs : List Record} {braced : List Bool} {fits : Bool}

/-- Where a record can be put back, the rest of the records decide. -/
theorem decides_cons {t before after : Text} {f : Found} {e : Extent}
    (hfound : next? t = some (before, f, after))
    (hextent : Restoration.extent f r number braced = .ok e) :
    Decides fits (Restoration.restoreFrom count (r :: rs) number braced t) ↔
      Decides fits (Restoration.restoreFrom count rs (number + 1) e.braced (e.after ++ after)) := by
  rw [Restoration.restoreFrom, hfound]
  dsimp only
  rw [hextent]
  simp only [bind, Except.bind, pure, Except.pure]
  cases Restoration.restoreFrom count rs (number + 1) e.braced (e.after ++ after) <;> exact Iff.rfl

/-- Where the next record does not fit what is found, restoring fails. -/
theorem decides_error {t before after : Text} {f : Found} {e : RestorationError}
    (hfound : next? t = some (before, f, after))
    (hextent : Restoration.extent f r number braced = .error e) (he : e.isMismatch = true) :
    Decides false (Restoration.restoreFrom count (r :: rs) number braced t) := by
  rw [Restoration.restoreFrom, hfound]
  dsimp only
  rw [hextent]
  exact ⟨rfl, he⟩

variable {items : List Item} {last gap : Text} {g : Found}

/-- Where a record is left and no placeholder, restoring fails. -/
theorem decides_shortage (hlast : Text.Plain last) :
    Decides false (Restoration.restoreFrom count (r :: rs) number braced (woven [] last)) := by
  rw [Restoration.restoreFrom, woven, next?_plain hlast]
  exact ⟨rfl, rfl⟩

/-- Where a placeholder is left and no record, restoring fails. -/
theorem decides_surplus (hitems : ProperItems ((gap, g) :: items)) (hlast : Text.Plain last) :
    Decides false
      (Restoration.restoreFrom count [] number braced (woven ((gap, g) :: items) last)) := by
  obtain ⟨before, lead, trail, after, hfound, -, -⟩ := next?_woven hitems hlast
  rw [Restoration.restoreFrom, hfound]
  exact ⟨rfl, rfl⟩

/-- A placeholder of another family is noticed. -/
theorem decides_family_ne (hitems : ProperItems ((gap, g) :: items)) (hlast : Text.Plain last)
    {family : Family} (hkind : r.kind.family? = some family) (hne : g.family ≠ family) :
    Decides false
      (Restoration.restoreFrom count (r :: rs) number braced (woven ((gap, g) :: items) last)) := by
  obtain ⟨before, lead, trail, after, hfound, -, -⟩ := next?_woven hitems hlast
  refine decides_error hfound (e := .wrongFamily number g.family r.construct family) ?_ rfl
  simp [Restoration.extent, hkind, hne]

/-- With its own placeholder a record goes on to the next placeholder. -/
theorem decides_aligned (hitems : ProperItems ((gap, g) :: items)) (hlast : Text.Plain last)
    {braced' : List Bool} (hplaced : Placed number r braced g braced') :
    Decides fits
        (Restoration.restoreFrom count (r :: rs) number braced (woven ((gap, g) :: items) last)) ↔
      Decides fits
        (Restoration.restoreFrom count rs (number + 1) braced' (woven items last)) := by
  obtain ⟨before, lead, trail, after, hfound, htakes, hleaves⟩ := next?_woven hitems hlast
  obtain ⟨e, hextent, -, hafter, hbraced⟩ := hplaced.extent htakes hleaves
  rw [decides_cons hfound hextent, hafter, hbraced]

/-- A record that is no start tag leaves nothing of a placeholder of its family to the text behind
it, unless the number tells that the placeholder is that of another. -/
theorem extent_cases {f : Found} (hkind : r.kind.family? = some f.family)
    (hfamily : f.family ≠ .opening) :
    (∃ e, Restoration.extent f r number braced = .ok e ∧ e.after = []) ∨
      ∃ e, Restoration.extent f r number braced = .error e ∧ e.isMismatch = true := by
  have hsame : ¬ f.family ≠ f.family := not_not_intro rfl
  unfold Restoration.extent
  rw [hkind]
  dsimp only
  rw [if_neg hsame]
  cases hf : f.family with
  | comment => exact Or.inl ⟨_, rfl, rfl⟩
  | identifier =>
      dsimp only
      split
      · split
        · exact Or.inr ⟨_, rfl, rfl⟩
        · exact Or.inl ⟨_, rfl, rfl⟩
      · exact Or.inl ⟨_, rfl, rfl⟩
  | opening => exact absurd hf hfamily
  | closing =>
      refine Or.inl ⟨_, rfl, ?_⟩
      cases braced with
      | nil => rfl
      | cons isBraced below => cases isBraced <;> rfl

/-- With another placeholder of its family a record that is no start tag goes on to the next
placeholder, if its number does not tell. -/
theorem decides_other (hitems : ProperItems ((gap, g) :: items)) (hlast : Text.Plain last)
    (hkind : r.kind.family? = some g.family) (hfamily : g.family ≠ .opening)
    (hrest : ∀ braced', Decides false
      (Restoration.restoreFrom count rs (number + 1) braced' (woven items last))) :
    Decides false
      (Restoration.restoreFrom count (r :: rs) number braced (woven ((gap, g) :: items) last)) := by
  obtain ⟨before, lead, trail, after, hfound, -, hleaves⟩ := next?_woven hitems hlast
  obtain ⟨-, rfl⟩ := hleaves.eq_own fun _ hcondition =>
    hfamily (hitems.of_cons.1.2.family_of_isCondition hcondition)
  rcases extent_cases (f := ⟨g.family, lead, g.core, trail⟩) hkind hfamily with
    ⟨e, hextent, hafter⟩ | ⟨e, hextent, he⟩
  · rw [decides_cons hfound hextent, hafter]
    exact hrest e.braced
  · exact decides_error hfound hextent he

/-- With any opening the record of a start tag goes on, and its own form decides whether a comment
behind the placeholder is given back. -/
theorem decides_opening (hitems : ProperItems ((gap, g) :: items)) (hlast : Text.Plain last)
    (hfamily : g.family = .opening) {form : OpeningForm} {own : Found}
    (hkind : r.kind.family? = some .opening) (hform : Opens form own)
    (hbuilt : Placeholder.opening (Layout.of r.construct) = some own.text) :
    ∃ trail after, Leaves g items last trail after ∧
      ∀ (count number : Nat) (rs : List Record) (braced : List Bool) (fits : Bool),
        (Decides fits (Restoration.restoreFrom count (r :: rs) number braced
            (woven ((gap, g) :: items) last)) ↔
          Decides fits (Restoration.restoreFrom count rs (number + 1)
            (opensBlock own.text :: braced)
            (if form = .condition then trail ++ after else after))) := by
  obtain ⟨before, lead, trail, after, hfound, -, hleaves⟩ := next?_woven hitems hlast
  refine ⟨trail, after, hleaves, fun count number rs braced fits => ?_⟩
  have hextent : Restoration.extent ⟨g.family, lead, g.core, trail⟩ r number braced =
      .ok (Restoration.openingExtent ⟨g.family, lead, g.core, trail⟩ own.text braced) := by
    simp [Restoration.extent, hkind, hfamily, hbuilt]
  rw [decides_cons hfound hextent, Restoration.openingExtent_of_opens hform, hform.opensBlock]
  cases form <;> exact Iff.rfl

end Step

section Chain

variable {count : Nat} {family : Family} {slots : List Slot} {last : Text}

/-- A record too many is noticed in the end, if it is no start tag: as long as the families agree
each placeholder is one too late for its record. -/
theorem decides_loss (hne : family ≠ .opening) (hlast : Text.Plain last) {number : Nat}
    {r : Record} (hkind : r.kind.family? = some family) {braced : List Bool} {number' : Nat}
    {braced' : List Bool} (hlined : Lined number' braced' slots) :
    Decides false (Restoration.restoreFrom count (r :: slots.map (·.record)) number braced
      (woven (slots.map Slot.item) last)) := by
  induction slots generalizing number r braced number' braced' with
  | nil => exact decides_shortage hlast
  | cons s slots ih =>
      have hitems := hlined.properItems
      obtain ⟨-, braced'', hplaced, hrest⟩ := hlined.of_cons
      by_cases hfamily : s.found.family = family
      · have hkind' : s.record.kind.family? = some family := by
          rw [hplaced.kind_family, hfamily]
        refine decides_other hitems hlast ?_ ?_ fun _ => ih hkind' hrest
        · rw [hfamily]
          exact hkind
        · rw [hfamily]
          exact hne
      · exact decides_family_ne hitems hlast hkind hfamily

/-- A placeholder too many is noticed in the end, if it is not that of a start tag. -/
theorem decides_doubling {g : Found} (hg : g.Proper) (hfamily : g.family ≠ .opening)
    (hlast : Text.Plain last) {gap : Text} (hgap : Text.Plain gap) {number : Nat}
    {braced : List Bool} {number' : Nat} {braced' : List Bool}
    (hlined : Lined number' braced' slots) :
    Decides false (Restoration.restoreFrom count (slots.map (·.record)) number braced
      (woven ((gap, g) :: slots.map Slot.item) last)) := by
  induction slots generalizing number braced number' braced' g gap with
  | nil => exact decides_surplus (ProperItems.cons hgap hg hlined.properItems) hlast
  | cons s slots ih =>
      have hitems := ProperItems.cons hgap hg hlined.properItems
      obtain ⟨hgap', braced'', hplaced, hrest⟩ := hlined.of_cons
      by_cases hsame : g.family = s.found.family
      · refine decides_other hitems hlast ?_ hfamily fun _ =>
          ih hplaced.proper ?_ hgap' hrest
        · rw [hplaced.kind_family, hsame]
        · rw [← hsame]
          exact hfamily
      · exact decides_family_ne hitems hlast hplaced.kind_family hsame

/-- The records in front keep to their own placeholders, whatever follows. -/
theorem decides_prefix {before after : List Slot} {number : Nat} {braced : List Bool}
    (hlined : Lined number braced (before ++ after)) :
    ∃ braced', Lined (number + before.length) braced' after ∧
      ∀ (count : Nat) (fits : Bool) (rs : List Record) (items : List Item) (last : Text),
        ProperItems items → Text.Plain last →
        (Decides fits (Restoration.restoreFrom count (before.map (·.record) ++ rs) number braced
            (woven (before.map Slot.item ++ items) last)) ↔
          Decides fits (Restoration.restoreFrom count rs (number + before.length) braced'
            (woven items last))) := by
  induction before generalizing number braced with
  | nil => exact ⟨braced, hlined, fun _ _ _ _ _ _ _ => Iff.rfl⟩
  | cons s before ih =>
      rw [List.cons_append] at hlined
      obtain ⟨hgap, braced', hplaced, hrest⟩ := hlined.of_cons
      obtain ⟨braced'', hlined', hdecides⟩ := ih hrest
      have hlength : number + (s :: before).length = number + 1 + before.length := by
        rw [List.length_cons]
        omega
      rw [hlength]
      refine ⟨braced'', hlined', fun count fits rs items last hitems hlast => ?_⟩
      have hproper := hrest.properItems
      rw [List.map_append] at hproper
      have hall : ProperItems ((s.gap, s.found) :: (before.map Slot.item ++ items)) :=
        ProperItems.cons hgap hplaced.proper (hproper.of_append.1.append hitems)
      exact (decides_aligned hall hlast hplaced).trans
        (hdecides count fits rs items last hitems hlast)

end Chain

end Stencil
