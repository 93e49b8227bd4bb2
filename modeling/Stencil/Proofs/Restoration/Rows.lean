import Stencil.Proofs.Restoration.Step

/-!
# Rows of start tags

A formatter that loses a placeholder, or writes it twice, shifts the placeholders behind it against
the records. Rows of start tags do not always notice. The record of a start tag on one line gives a
comment behind the condition back to the text, where it is found as a placeholder of its own; any
other record of a start tag keeps it, and then the comment may have been a placeholder. So the
number of placeholders changes with the records that they are held against, and records and
placeholders may come out even. `StartTag.realigns` decides when they do.
-/

set_option autoImplicit false

namespace Stencil

open Placeholder

/-- The form of the placeholder of a start tag. -/
def Placeholder.formOf (placeholder : Text) : OpeningForm :=
  if !opensBlock placeholder then .bare
  else if (Text.firstMatch? (Text.after? "/*".toList) placeholder).isNone then .condition
  else if placeholder.head? = some '{' then .braced
  else .trailed

/-- The placeholder of a start tag in a text. -/
structure StartTag where
  /-- The form of the placeholder. -/
  form : OpeningForm
  /-- Whether nothing but white space stands between the placeholder before it and this one. -/
  isAdjacent : Bool
  deriving DecidableEq, Repr

namespace StartTag

/-- The placeholders that are left of a row when a record, whose own placeholder has a form, was put
in the place of the first. A condition alone gives back the comment behind the placeholder; other
forms take a comment that follows a condition. -/
def left (form : OpeningForm) (tag : StartTag) (tags : List StartTag) : List StartTag :=
  match form, tag.form with
  | .condition, .trailed => ⟨.bare, true⟩ :: tags
  | .condition, _ => tags
  | _, .condition =>
    match tags with
    | ⟨.bare, true⟩ :: tags => tags
    | tags => tags
  | _, _ => tags

/-- Whether records and placeholders come out even, one record after the other. -/
def realigns : List OpeningForm → List StartTag → Bool
  | [], tags => tags.isEmpty
  | _ :: _, [] => false
  | form :: forms, tag :: tags => realigns forms (left form tag tags)

section Left

variable {form : OpeningForm} {tag : StartTag}

/-- A condition in the place of one with a comment leaves the comment as an opening of its own. -/
theorem left_trailed (h : tag.form = .trailed) (tags : List StartTag) :
    left .condition tag tags = ⟨.bare, true⟩ :: tags := by
  unfold left
  rw [h]

/-- A condition in the place of an opening without a comment behind it takes the whole. -/
theorem left_condition (h : tag.form ≠ .trailed) (tags : List StartTag) :
    left .condition tag tags = tags := by
  unfold left
  cases hform : tag.form with
  | trailed => exact absurd hform h
  | condition => rfl
  | braced => rfl
  | bare => rfl

/-- An opening with a comment in the place of a condition takes the comment behind it. -/
theorem left_bare (hform : form ≠ .condition) (h : tag.form = .condition) (tags : List StartTag) :
    left form tag (⟨.bare, true⟩ :: tags) = tags := by
  unfold left
  rw [h]
  cases form with
  | condition => exact absurd rfl hform
  | trailed => rfl
  | braced => rfl
  | bare => rfl

/-- Only a condition takes the comment of the next placeholder. -/
theorem left_eq (hform : form ≠ .condition) {tags : List StartTag}
    (h : tag.form = .condition → tags.head? ≠ some ⟨.bare, true⟩) : left form tag tags = tags := by
  unfold left
  split
  · exact absurd rfl hform
  · exact absurd rfl hform
  · rename_i htag
    split
    · exact absurd rfl (h htag)
    · rfl
  · rfl

end Left

/-- What stands in front of the first placeholder does not matter. -/
theorem realigns_head (forms : List OpeningForm) (form : OpeningForm)
    (isAdjacent isAdjacent' : Bool) (tags : List StartTag) :
    realigns forms (⟨form, isAdjacent⟩ :: tags) = realigns forms (⟨form, isAdjacent'⟩ :: tags) := by
  cases forms with
  | nil => rfl
  | cons form' forms => rfl

/-- Rows in which each record takes one placeholder: no form is a condition alone, or none has a
comment that a condition alone could leave behind or take. -/
def Uniform (forms : List OpeningForm) (tags : List StartTag) : Prop :=
  ((∀ form ∈ forms, form ≠ .condition) ∧ ∀ tag ∈ tags, tag.form ≠ .condition) ∨
    ∀ tag ∈ tags, tag.form = .condition ∨ tag.form = .braced

/-- In a uniform row a record takes one placeholder. -/
theorem Uniform.left_eq {form : OpeningForm} {forms : List OpeningForm} {tag : StartTag}
    {tags : List StartTag} (h : Uniform (form :: forms) (tag :: tags)) :
    left form tag tags = tags := by
  rcases h with ⟨hforms, htags⟩ | htags
  · have htag : tag.form ≠ .condition := htags tag (List.mem_cons_self ..)
    exact StartTag.left_eq (hforms form (List.mem_cons_self ..)) fun hcondition =>
      absurd hcondition htag
  · by_cases hform : form = .condition
    · subst hform
      refine left_condition (fun htrailed => ?_) tags
      rcases htags tag (List.mem_cons_self ..) with htag | htag
      · rw [htrailed] at htag
        cases htag
      · rw [htrailed] at htag
        cases htag
    · refine StartTag.left_eq hform fun _ hhead => ?_
      have hmem : (⟨.bare, true⟩ : StartTag) ∈ tags := List.mem_of_mem_head? hhead
      rcases htags _ (List.mem_cons_of_mem _ hmem) with htag | htag
      · cases htag
      · cases htag

/-- Behind its first placeholder a uniform row is uniform. -/
theorem Uniform.of_cons {form : OpeningForm} {forms : List OpeningForm} {tag : StartTag}
    {tags : List StartTag} (h : Uniform (form :: forms) (tag :: tags)) : Uniform forms tags := by
  rcases h with ⟨hforms, htags⟩ | htags
  · exact Or.inl ⟨fun f hf => hforms f (List.mem_cons_of_mem _ hf),
      fun t ht => htags t (List.mem_cons_of_mem _ ht)⟩
  · exact Or.inr fun t ht => htags t (List.mem_cons_of_mem _ ht)

/-- In a uniform row the numbers of records and placeholders decide. -/
theorem Uniform.realigns_eq {forms : List OpeningForm} {tags : List StartTag}
    (h : Uniform forms tags) : realigns forms tags = (forms.length == tags.length) := by
  induction forms generalizing tags with
  | nil => cases tags <;> rfl
  | cons form forms ih =>
      cases tags with
      | nil => rfl
      | cons tag tags =>
          rw [realigns, h.left_eq, ih h.of_cons, List.length_cons, List.length_cons,
            Bool.eq_iff_iff, beq_iff_eq, beq_iff_eq]
          omega

end StartTag

/-- The form of an opening can be read off its text. -/
theorem Placeholder.Opens.formOf_text {form : OpeningForm} {f : Found} (h : Opens form f) :
    formOf f.text = form := by
  have hhead : form = .braced ∨ form = .trailed → (f.text.head? = some '{' ↔ form = .braced) := by
    cases h with
    | condition => simp
    | trailed hcore =>
        intro _
        simp [Found.text, hcore.head]
    | braced => simp [Found.text]
    | bare => simp
  unfold formOf
  rw [h.opensBlock, ← Option.not_isSome, h.hasComment]
  cases form with
  | condition => rfl
  | trailed => simp [hhead (Or.inr rfl)]
  | braced => simp [hhead (Or.inl rfl)]
  | bare => rfl

/-- The placeholder of a start tag as an item of a woven text. -/
def Item.tag (item : Item) : StartTag := ⟨formOf item.2.text, item.1.all Text.isBlank⟩

/-- Placeholders of start tags behind plain texts. -/
def OpeningItems (items : List Item) : Prop :=
  ∀ item ∈ items, Text.Plain item.1 ∧ ∃ form, Opens form item.2

/-- Placeholders of start tags are proper. -/
theorem OpeningItems.proper {items : List Item} (h : OpeningItems items) : ProperItems items := by
  intro item hitem
  obtain ⟨hgap, form, hform⟩ := h item hitem
  exact ⟨hgap, hform.proper⟩

/-- The first placeholder of a row is that of a start tag, and so are the others. -/
theorem OpeningItems.of_cons {item : Item} {items : List Item}
    (h : OpeningItems (item :: items)) :
    (Text.Plain item.1 ∧ ∃ form, Opens form item.2) ∧ OpeningItems items :=
  ⟨h item (List.mem_cons_self ..), fun i hi => h i (List.mem_cons_of_mem _ hi)⟩

/-- A row of start tags with one more in front is one. -/
theorem OpeningItems.cons {gap : Text} {g : Found} {form : OpeningForm} {items : List Item}
    (hgap : Text.Plain gap) (hg : Opens form g) (h : OpeningItems items) :
    OpeningItems ((gap, g) :: items) := by
  intro item hitem
  rcases List.mem_cons.1 hitem with rfl | hitem
  · exact ⟨hgap, form, hg⟩
  · exact h item hitem

/-- A text is blank if all of its characters are white space. -/
theorem Text.all_isBlank_iff {t : Text} : t.all isBlank = true ↔ Blanks t :=
  List.all_eq_true

/-- The row of start tags ends here. -/
def EndsRow (slots : List Slot) : Prop :=
  ∀ s, slots.head? = some s → s.found.family ≠ .opening

section Left

variable {gap : Text} {g : Found} {form form' : OpeningForm} {items : List Item}
  {slots : List Slot} {last trail after : Text}

/-- The record of a condition alone gives back the comment behind the placeholder, which is a
placeholder then. -/
theorem exists_left_condition (hg : Opens form' g) (hitems : OpeningItems items) :
    ∃ items', OpeningItems items' ∧
      g.trail ++ woven (items ++ slots.map Slot.item) last =
        woven (items' ++ slots.map Slot.item) last ∧
      items'.map Item.tag = StartTag.left .condition (Item.tag (gap, g)) (items.map Item.tag) := by
  have htag : (Item.tag (gap, g)).form = form' := hg.formOf_text
  by_cases hform' : form' = .trailed
  · subst hform'
    rw [StartTag.left_trailed htag]
    cases hg with
    | @trailed core trail' hcore htrail =>
        have hbare : Opens .bare ⟨.opening, [], trail', []⟩ := .bare htrail
        have hresidual : Item.tag ([], ⟨.opening, [], trail', []⟩) = ⟨.bare, true⟩ := by
          rw [Item.tag, hbare.formOf_text]
          rfl
        refine ⟨([], ⟨.opening, [], trail', []⟩) :: items, ?_, ?_, ?_⟩
        · exact OpeningItems.cons Text.plain_nil hbare hitems
        · simp [woven, Found.text]
        · rw [List.map_cons, hresidual]
  · have htrail : g.trail = [] := by
      cases hg with
      | trailed => exact absurd rfl hform'
      | condition => rfl
      | braced => rfl
      | bare => rfl
    have hne : (Item.tag (gap, g)).form ≠ .trailed := by
      rw [htag]
      exact hform'
    rw [StartTag.left_condition hne, htrail]
    exact ⟨items, hitems, rfl, rfl⟩

/-- A condition with no comment behind it takes one exactly if the next placeholder of the row is
such a comment. -/
theorem OpeningItems.swallows (hitems : OpeningItems items) (hg : Opens .condition g)
    (h : (items.map Item.tag).head? = some ⟨.bare, true⟩) (rest : List Item) :
    Swallows g (items ++ rest) := by
  cases items with
  | nil => cases h
  | cons item items =>
      obtain ⟨gap', g'⟩ := item
      obtain ⟨⟨-, form'', hopens⟩, -⟩ := hitems.of_cons
      rw [List.map_cons, List.head?_cons, Option.some.injEq, Item.tag, StartTag.mk.injEq,
        hopens.formOf_text] at h
      obtain ⟨rfl, hblank⟩ := h
      cases hg with
      | condition hcore =>
          cases hopens with
          | bare hcore' =>
              exact ⟨rfl, hcore, gap', _, _, rfl, Text.all_isBlank_iff.1 hblank, hcore'⟩

/-- Any other record keeps the comment behind the placeholder, and with it the next placeholder if
that is the comment. -/
theorem exists_left_other (hform : form ≠ .condition) (hg : Opens form' g)
    (hitems : OpeningItems items) (hslots : EndsRow slots)
    (hleaves : Leaves g (items ++ slots.map Slot.item) last trail after) :
    ∃ items', OpeningItems items' ∧ after = woven (items' ++ slots.map Slot.item) last ∧
      items'.map Item.tag = StartTag.left form (Item.tag (gap, g)) (items.map Item.tag) := by
  have htag : (Item.tag (gap, g)).form = form' := hg.formOf_text
  cases hleaves with
  | own hnot =>
      refine ⟨items, hitems, rfl, (StartTag.left_eq hform fun hcondition hhead => hnot ?_).symm⟩
      rw [htag] at hcondition
      subst hcondition
      exact hitems.swallows hg hhead _
  | @comment gap' core items' htrail hcore hsome hgap hcomment =>
      have hcondition : form' = .condition := by
        cases hg with
        | condition => rfl
        | trailed _ hcomment' => exact absurd htrail hcomment'.ne_nil
        | braced hcomment' => exact absurd hcore hcomment'.not_isCondition
        | bare hcomment' => exact absurd hcore hcomment'.not_isCondition
      rw [hcondition] at htag
      cases items with
      | nil =>
          -- the placeholder behind the row is not that of a start tag
          cases slots with
          | nil => cases hsome
          | cons s slots =>
              rw [List.nil_append, List.map_cons, List.cons.injEq] at hsome
              have hfound : s.found = ⟨.opening, [], core, []⟩ := congrArg Prod.snd hsome.1
              have hfamily : s.found.family = .opening := by rw [hfound]
              exact absurd hfamily (hslots s rfl)
      | cons item items =>
          rw [List.cons_append, List.cons.injEq] at hsome
          obtain ⟨rfl, rfl⟩ := hsome
          have hbare : Item.tag (gap', ⟨.opening, [], core, []⟩) = ⟨.bare, true⟩ := by
            rw [Item.tag, (Opens.bare hcomment).formOf_text, Text.all_isBlank_iff.2 hgap]
          refine ⟨items, hitems.of_cons.2, rfl, ?_⟩
          rw [List.map_cons, hbare, StartTag.left_bare hform htag]

/-- The placeholders that are left of a row are those that `StartTag.left` says. -/
theorem exists_left (form : OpeningForm) (hg : Opens form' g) (hitems : OpeningItems items)
    (hslots : EndsRow slots)
    (hleaves : Leaves g (items ++ slots.map Slot.item) last trail after) :
    ∃ items', OpeningItems items' ∧
      (if form = .condition then trail ++ after else after) =
        woven (items' ++ slots.map Slot.item) last ∧
      items'.map Item.tag = StartTag.left form (Item.tag (gap, g)) (items.map Item.tag) := by
  by_cases hform : form = .condition
  · rw [if_pos hform, hleaves.text_eq, hform]
    exact exists_left_condition hg hitems
  · rw [if_neg hform]
    exact exists_left_other hform hg hitems hslots hleaves

end Left

/-- A record whose placeholder is an opening is a start tag, and the placeholder has one of the
forms. -/
theorem Placed.opening_cases {number : Nat} {r : Record} {braced braced' : List Bool} {g : Found}
    (h : Placed number r braced g braced') (hfamily : g.family = .opening) :
    r.kind.family? = some .opening ∧ braced' = opensBlock g.text :: braced ∧
      ∃ form, Opens form g ∧ Placeholder.opening (Layout.of r.construct) = some g.text := by
  cases h with
  | comment => cases hfamily
  | identifier => cases hfamily
  | opening hkind hform hbuilt => exact ⟨hkind, rfl, _, hform, hbuilt⟩
  | closing => cases hfamily

section Row

variable {number : Nat} {braced : List Bool} {slots : List Slot} {items : List Item} {last : Text}

/-- Openings that are left when the records of a row are used up are noticed. -/
theorem decides_items (count : Nat) (hlined : Lined number braced slots) (hlast : Text.Plain last)
    (hitems : OpeningItems items) (hslots : EndsRow slots) :
    Decides items.isEmpty (Restoration.restoreFrom count (slots.map (·.record)) number braced
      (woven (items ++ slots.map Slot.item) last)) := by
  have hproper := hitems.proper.append hlined.properItems
  cases items with
  | nil =>
      have hfounds : slots.map (·.found) = (slots.map Slot.item).map (·.2) := by
        rw [List.map_map]
        rfl
      have hplaced := hlined.placed
      rw [hfounds] at hplaced
      have hrun := Restoration.restoreFrom_woven count hplaced.spaced
        (fun item hitem => (hlined.properItems item hitem).1) hlast
      rw [List.nil_append, hrun]
      rfl
  | cons item items =>
      obtain ⟨gap, g⟩ := item
      obtain ⟨⟨-, form, hform⟩, -⟩ := hitems.of_cons
      cases slots with
      | nil => exact decides_surplus hproper hlast
      | cons s slots =>
          obtain ⟨-, braced', hplaced, -⟩ := hlined.of_cons
          refine decides_family_ne hproper hlast hplaced.kind_family ?_
          rw [hform.family]
          exact Ne.symm (hslots s rfl)

/-- Records of a row that are left when the openings are used up are noticed. -/
theorem decides_records (count : Nat) {r : Record} {rs : List Record}
    (hkind : r.kind.family? = some .opening) (hproper : ProperItems (slots.map Slot.item))
    (hlast : Text.Plain last) (hslots : EndsRow slots) :
    Decides false (Restoration.restoreFrom count (r :: rs) number braced
      (woven (slots.map Slot.item) last)) := by
  cases slots with
  | nil => exact decides_shortage hlast
  | cons s slots => exact decides_family_ne hproper hlast hkind (hslots s rfl)

/-- A row of start tags is restored exactly if records and placeholders come out even. -/
theorem decides_realigns (count : Nat) {row : List Slot}
    (hlined : Lined number braced (row ++ slots)) (hlast : Text.Plain last)
    (hrow : ∀ s ∈ row, s.found.family = .opening) (hitems : OpeningItems items)
    (hslots : EndsRow slots) :
    Decides (StartTag.realigns (row.map fun s => formOf s.found.text) (items.map Item.tag))
      (Restoration.restoreFrom count ((row ++ slots).map (·.record)) number braced
        (woven (items ++ slots.map Slot.item) last)) := by
  induction row generalizing number braced items with
  | nil =>
      rw [List.map_nil, StartTag.realigns, List.isEmpty_map]
      exact decides_items count hlined hlast hitems hslots
  | cons s row ih =>
      rw [List.cons_append] at hlined
      obtain ⟨-, braced', hplaced, hrest⟩ := hlined.of_cons
      obtain ⟨hkind, rfl, form, hform, hbuilt⟩ :=
        hplaced.opening_cases (hrow s (List.mem_cons_self ..))
      have hproper := hrest.properItems
      rw [List.map_append] at hproper
      cases items with
      | nil => exact decides_records count hkind hproper.of_append.2 hlast hslots
      | cons item items =>
          obtain ⟨gap, g⟩ := item
          obtain ⟨⟨hgap, form', hform'⟩, hitems'⟩ := hitems.of_cons
          have hall : ProperItems ((gap, g) :: (items ++ slots.map Slot.item)) :=
            ProperItems.cons hgap hform'.proper (hitems'.proper.append hproper.of_append.2)
          obtain ⟨trail, after, hleaves, hdecides⟩ :=
            decides_opening hall hlast hform'.family hkind hform hbuilt
          obtain ⟨items'', hitems'', htext, htags⟩ :=
            exists_left form hform' hitems' hslots hleaves
          have hrun := ih hrest (fun s' hs' => hrow s' (List.mem_cons_of_mem _ hs')) hitems''
          rw [List.map_cons, hform.formOf_text, List.map_cons, StartTag.realigns, ← htags]
          refine (hdecides _ _ _ _ _).2 ?_
          rw [htext]
          exact hrun

end Row

section Slots

variable {slots : List Slot} {last : Text}

/-- Plain text in front of the first slot. -/
def prepend (t : Text) : List Slot → List Slot
  | [] => []
  | s :: slots => { s with gap := t ++ s.gap } :: slots

/-- Text in front of slots belongs to the first slot, or to the last text if there is none. -/
theorem woven_prepend (t : Text) (slots : List Slot) (last : Text) :
    ∃ last', t ++ woven (slots.map Slot.item) last =
        woven ((prepend t slots).map Slot.item) last' ∧
      (Text.Plain t → Text.Plain last → Text.Plain last') := by
  cases slots with
  | nil => exact ⟨t ++ last, rfl, Text.Plain.append⟩
  | cons s slots =>
      refine ⟨last, ?_, fun _ hlast => hlast⟩
      simp [prepend, Slot.item, woven]

/-- Text in front changes no record. -/
theorem prepend_record (t : Text) (slots : List Slot) :
    (prepend t slots).map (·.record) = slots.map (·.record) := by
  cases slots <;> rfl

/-- Plain text in front leaves slots as masking makes them. -/
theorem Lined.prepend {number : Nat} {braced : List Bool} (h : Lined number braced slots)
    {t : Text} (ht : Text.Plain t) : Lined number braced (prepend t slots) := by
  cases slots with
  | nil => exact h
  | cons s slots =>
      refine ⟨h.placed, fun s' hs' => ?_⟩
      rcases List.mem_cons.1 hs' with rfl | hs'
      · exact ht.append (h.plain s (List.mem_cons_self ..))
      · exact h.plain s' (List.mem_cons_of_mem _ hs')

/-- The start tags at the front of slots. -/
def row (slots : List Slot) : List Slot := slots.takeWhile fun s => s.found.family == .opening

/-- The slots behind the start tags at the front. -/
def behindRow (slots : List Slot) : List Slot :=
  slots.dropWhile fun s => s.found.family == .opening

/-- A start tag in front belongs to the row. -/
theorem row_cons {s : Slot} (h : s.found.family = .opening) (slots : List Slot) :
    row (s :: slots) = s :: row slots :=
  List.takeWhile_cons_of_pos (by simpa using h)

/-- A start tag in front changes nothing behind the row. -/
theorem behindRow_cons {s : Slot} (h : s.found.family = .opening) (slots : List Slot) :
    behindRow (s :: slots) = behindRow slots :=
  List.dropWhile_cons_of_pos (by simpa using h)

/-- The row and what is behind it are all slots. -/
theorem row_append_behindRow (slots : List Slot) : row slots ++ behindRow slots = slots :=
  List.takeWhile_append_dropWhile

/-- The row has start tags alone. -/
theorem family_of_mem_row {s : Slot} (h : s ∈ row slots) : s.found.family = .opening := by
  simpa using List.mem_takeWhile_imp h

/-- Behind the row stands no start tag. -/
theorem endsRow_behindRow (slots : List Slot) : EndsRow (behindRow slots) := by
  intro s hs
  have hnot := List.head?_dropWhile_not (fun s : Slot => s.found.family == .opening) slots
  unfold behindRow at hs
  rw [hs] at hnot
  simpa using hnot

/-- The row has placeholders of start tags behind plain texts. -/
theorem Lined.openingItems {number : Nat} {braced : List Bool} (h : Lined number braced slots) :
    OpeningItems ((row slots).map Slot.item) := by
  induction slots generalizing number braced with
  | nil => exact fun item hitem => absurd hitem List.not_mem_nil
  | cons s slots ih =>
      obtain ⟨hgap, braced', hplaced, hrest⟩ := h.of_cons
      unfold row
      rw [List.takeWhile_cons]
      split
      · rename_i hfamily
        intro item hitem
        rcases List.mem_cons.1 hitem with rfl | hitem
        · obtain ⟨-, -, form, hform, -⟩ := hplaced.opening_cases (by simpa using hfamily)
          exact ⟨hgap, form, hform⟩
        · exact ih hrest item hitem
      · exact fun item hitem => absurd hitem List.not_mem_nil

/-- A record is a start tag if its placeholder is an opening. -/
theorem Placed.start_iff {number : Nat} {r : Record} {braced braced' : List Bool} {g : Found}
    (h : Placed number r braced g braced') : (r.kind == .startTag) = (g.family == .opening) := by
  have hfamily := h.kind_family
  cases hkind : r.kind with
  | templateText =>
      rw [hkind] at hfamily
      cases hfamily
  | _ =>
      rw [hkind, Kind.family?, Option.some.injEq] at hfamily
      rw [← hfamily]
      rfl

/-- The records of a row are those of start tags. -/
theorem Lined.row_eq {number : Nat} {braced : List Bool} (h : Lined number braced slots) :
    row slots = slots.takeWhile fun s => s.record.kind == .startTag := by
  induction slots generalizing number braced with
  | nil => rfl
  | cons s slots ih =>
      obtain ⟨-, braced', hplaced, hrest⟩ := h.of_cons
      have htail := ih hrest
      unfold row at htail ⊢
      rw [List.takeWhile_cons, List.takeWhile_cons, hplaced.start_iff, htail]

/-- The placeholders of the start tags at the front of slots. -/
def rowTags (slots : List Slot) : List StartTag := (row slots).map fun s => s.item.tag

/-- A start tag in front adds its placeholder to those of the row. -/
theorem rowTags_cons {s : Slot} (h : s.found.family = .opening) (slots : List Slot) :
    rowTags (s :: slots) = s.item.tag :: rowTags slots := by
  rw [rowTags, row_cons h]
  rfl

/-- Where another construct stands in front there is no row. -/
theorem rowTags_cons_of_ne {s : Slot} (h : s.found.family ≠ .opening) (slots : List Slot) :
    rowTags (s :: slots) = [] := by
  rw [rowTags, row, List.takeWhile_cons_of_neg (by simpa using h)]
  rfl

/-- The row of start tags behind plain text is the same but for what stands in front of it. -/
theorem realigns_prepend (forms : List OpeningForm) (t : Text) (slots : List Slot) :
    StartTag.realigns forms (rowTags (prepend t slots)) =
      StartTag.realigns forms (rowTags slots) := by
  cases slots with
  | nil => rfl
  | cons s slots =>
      unfold rowTags row prepend
      rw [List.takeWhile_cons, List.takeWhile_cons]
      split
      · exact StartTag.realigns_head ..
      · rfl

/-- Text in front changes no form. -/
theorem forms_prepend (t : Text) (slots : List Slot) :
    (rowTags (prepend t slots)).map (·.form) = (rowTags slots).map (·.form) := by
  cases slots with
  | nil => rfl
  | cons s slots =>
      unfold rowTags row prepend
      rw [List.takeWhile_cons, List.takeWhile_cons]
      split <;> rfl

/-- With other openings in the place of a row the records of the row decide. -/
theorem decides_row {number : Nat} {braced : List Bool} {items : List Item}
    (hlined : Lined number braced slots) (hlast : Text.Plain last) (hitems : OpeningItems items)
    (count : Nat) :
    Decides (StartTag.realigns ((rowTags slots).map (·.form)) (items.map Item.tag))
      (Restoration.restoreFrom count (slots.map (·.record)) number braced
        (woven (items ++ (behindRow slots).map Slot.item) last)) := by
  have hforms : (rowTags slots).map (·.form) = (row slots).map fun s => formOf s.found.text := by
    rw [rowTags, List.map_map]
    rfl
  rw [← row_append_behindRow slots] at hlined
  have hrun := decides_realigns count hlined hlast (fun s hs => family_of_mem_row hs)
    hitems (endsRow_behindRow slots)
  rw [row_append_behindRow, ← hforms] at hrun
  exact hrun

end Slots

end Stencil
