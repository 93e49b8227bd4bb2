import Stencil.Proofs.Restoration.Rows

/-!
# Lost and doubled placeholders

When a text comes back without one of its placeholders, or with one of them twice, every record
behind it is held against the placeholder of another. `loss_and_doubling_noticed_iff` says when this
is noticed: always, but for a start tag whose row comes out even in spite of it. Then the text is
restored with the records in other places than their own.
-/

set_option autoImplicit false

namespace Stencil

open Placeholder

namespace Masked

/-- The masked text without the placeholder of one construct. -/
def without (m : Masked) (i : Nat) : Text := Text.weave m.gaps (m.placeholders.set i [])

/-- The masked text with the placeholder of one construct twice. -/
def doubled (m : Masked) (i : Nat) : Text :=
  Text.weave m.gaps (m.placeholders.modify i fun p => p ++ p)

/-- The row of start tags from a construct on. -/
def startTags (m : Masked) (i : Nat) : List StartTag :=
  (((m.ledger.zip (m.gaps.zip m.placeholders)).drop i).takeWhile (·.1.kind == .startTag)).map
    fun s => ⟨formOf s.2.2, s.2.1.all Text.isBlank⟩

/-- Whether nothing is noticed when the placeholder of a construct is lost: the records of the row
of start tags come out even with the placeholders behind it. -/
def losesUnnoticed (m : Masked) (i : Nat) : Bool :=
  match m.startTags i with
  | [] => false
  | tag :: tags => StartTag.realigns ((tag :: tags).map (·.form)) tags

/-- Whether nothing is noticed when the placeholder of a construct is doubled: the records behind it
in the row of start tags come out even with the second copy and the placeholders behind that. -/
def doublesUnnoticed (m : Masked) (i : Nat) : Bool :=
  match m.startTags i with
  | [] => false
  | tag :: tags => StartTag.realigns (tags.map (·.form)) (tag :: tags)

/-- A row of start tags with conditions alone, or without any, comes out even with neither more nor
fewer placeholders. -/
theorem unnoticed_eq_false {m : Masked} {i : Nat}
    (h : (∀ tag ∈ m.startTags i, tag.form ≠ .condition) ∨
      ∀ tag ∈ m.startTags i, tag.form = .condition ∨ tag.form = .braced) :
    m.losesUnnoticed i = false ∧ m.doublesUnnoticed i = false := by
  unfold losesUnnoticed doublesUnnoticed
  cases htags : m.startTags i with
  | nil => exact ⟨rfl, rfl⟩
  | cons tag tags =>
      rw [htags] at h
      have hloss : StartTag.Uniform ((tag :: tags).map (·.form)) tags := by
        refine h.imp (fun hne => ⟨?_, ?_⟩) fun hall t ht => hall t (List.mem_cons_of_mem _ ht)
        · exact List.forall_mem_map.2 hne
        · exact fun t ht => hne t (List.mem_cons_of_mem _ ht)
      have hdoubling : StartTag.Uniform (tags.map (·.form)) (tag :: tags) := by
        refine h.imp (fun hne => ⟨?_, hne⟩) id
        exact List.forall_mem_map.2 fun t ht => hne t (List.mem_cons_of_mem _ ht)
      dsimp only
      rw [hloss.realigns_eq, hdoubling.realigns_eq]
      simp

/-- A masked text as slots, cut in front of one of them. -/
structure CutAt (m : Masked) (before : List Slot) (s : Slot) (after : List Slot) (last : Text) :
    Prop where
  gaps_eq : m.gaps = (before ++ s :: after).map (·.gap) ++ [last]
  placeholders_eq : m.placeholders = (before ++ s :: after).map (·.found.text)
  ledger_eq : m.ledger = (before ++ s :: after).map (·.record)
  lined : Lined 0 [] (before ++ s :: after)
  plain : Text.Plain last

end Masked

/-- Restoring fails for a mismatch where the placeholders do not fit, and succeeds where they do. -/
theorem Decides.iff {fits : Bool} {answer : Except RestorationError Text}
    (h : Decides fits answer) :
    ((∃ e, answer = .error e ∧ e.isMismatch = true) ↔ fits = false) ∧
      ((∃ out, answer = .ok out) ↔ fits = true) := by
  cases answer with
  | ok out =>
      have hfits : fits = true := h
      simp [hfits]
  | error e =>
      obtain ⟨hfits, he⟩ := h
      simp [hfits, he]

/-- The element behind the first so many is the one that is modified. -/
theorem modify_length_append {α : Type} (f : α → α) (xs : List α) (x : α) (ys : List α) :
    (xs ++ x :: ys).modify xs.length f = xs ++ f x :: ys := by
  induction xs with
  | nil => rfl
  | cons y xs ih =>
      rw [List.cons_append, List.length_cons, List.modify_succ_cons, ih]
      rfl

/-- Placeholders and the texts between them are slots, with a last text behind. -/
theorem PlacedAll.exists_slots {number : Nat} {braced : List Bool} {rs : List Record}
    {gs : List Found} (h : PlacedAll number braced rs gs) {gaps : List Text}
    (hlength : gaps.length = rs.length + 1) :
    ∃ (slots : List Slot) (last : Text), gaps = slots.map (·.gap) ++ [last] ∧
      rs = slots.map (·.record) ∧ gs = slots.map (·.found) := by
  induction h generalizing gaps with
  | nil =>
      obtain ⟨last, rfl⟩ := List.length_eq_one_iff.1 hlength
      exact ⟨[], last, rfl, rfl, rfl⟩
  | @cons _ _ _ r g _ _ _ _ ih =>
      cases gaps with
      | nil => cases hlength
      | cons gap gaps =>
          obtain ⟨slots, last, rfl, rfl, rfl⟩ := ih (Nat.succ.inj hlength)
          exact ⟨⟨gap, r, g⟩ :: slots, last, rfl, rfl, rfl⟩

namespace Masked

/-- A masked text can be cut in front of each of its placeholders. -/
theorem exists_cutAt {source : Text} {settings : Settings} {tokens : List Token} {m : Masked}
    (h : Masks source settings tokens 0 [] m.segments) {i : Nat} (hi : i < m.ledger.length) :
    ∃ before s after last, before.length = i ∧ m.CutAt before s after last := by
  obtain ⟨gs, hplaced, htexts⟩ := h.placedAll
  obtain ⟨slots, last, hgaps, hledger, rfl⟩ := hplaced.exists_slots (length_gapsOf m.segments)
  have hplain := h.plain_gaps
  rw [hgaps] at hplain
  have hslots : i < slots.length := by
    rw [ledger, hledger, List.length_map] at hi
    exact hi
  have hcut : slots = slots.take i ++ slots[i] :: slots.drop (i + 1) := by
    rw [List.getElem_cons_drop, List.take_append_drop]
  have htake : (slots.take i).length = i := by
    rw [List.length_take]
    omega
  have hlined : Lined 0 [] slots := by
    refine ⟨?_, fun s hs => hplain _ (List.mem_append_left _ (List.mem_map_of_mem hs))⟩
    rw [← hledger]
    exact hplaced
  refine ⟨slots.take i, slots[i], slots.drop (i + 1), last, htake, ?_⟩
  rw [List.map_map] at htexts
  constructor
  · rw [← hcut]
    exact hgaps
  · rw [← hcut]
    exact htexts.symm
  · rw [← hcut]
    exact hledger
  · rw [← hcut]
    exact hlined
  · exact hplain last (by simp)

namespace CutAt

variable {m : Masked} {before after : List Slot} {s : Slot} {last : Text}

/-- The gaps are those in front of the cut, that at the cut and those behind it. -/
theorem gaps_eq_items (h : m.CutAt before s after last) :
    m.gaps =
      (before.map Slot.item).map (·.1) ++ s.gap :: ((after.map Slot.item).map (·.1) ++ [last]) := by
  rw [h.gaps_eq]
  simp [Function.comp_def, Slot.item]

/-- Without the placeholder at the cut the texts around it are one. -/
theorem without_eq (h : m.CutAt before s after last) :
    m.without before.length =
      woven (before.map Slot.item) (s.gap ++ woven (after.map Slot.item) last) := by
  have hset : m.placeholders.set before.length [] =
      (before.map Slot.item).map (·.2.text) ++ [] :: (after.map Slot.item).map (·.2.text) := by
    rw [h.placeholders_eq, List.map_append, List.map_cons, List.set_append_right _ _ (by simp)]
    simp [Function.comp_def, Slot.item]
  rw [without, hset, h.gaps_eq_items, ← woven_weave, Text.weave, List.append_nil, ← woven_eq_weave]

/-- The second copy of the placeholder at the cut has no text in front. -/
theorem doubled_eq (h : m.CutAt before s after last) :
    m.doubled before.length =
      woven (before.map Slot.item ++ s.item :: ([], s.found) :: after.map Slot.item) last := by
  have hmodify : (m.placeholders.modify before.length fun p => p ++ p) =
      (before.map Slot.item).map (·.2.text) ++
        (s.found.text ++ s.found.text) :: (after.map Slot.item).map (·.2.text) := by
    have hlength : before.length = (before.map (·.found.text)).length := by rw [List.length_map]
    rw [h.placeholders_eq, List.map_append, List.map_cons, hlength, modify_length_append]
    simp [Function.comp_def, Slot.item]
  rw [doubled, hmodify, h.gaps_eq_items, ← woven_weave, Text.weave, ← woven_eq_weave, woven_append]
  simp [woven, Slot.item]

/-- The row of start tags is the placeholders of openings at the front of the slots. -/
theorem startTags_eq (h : m.CutAt before s after last) :
    m.startTags before.length = rowTags (s :: after) := by
  have hzip : ∀ (slots : List Slot) (last : Text),
      (slots.map (·.record)).zip ((slots.map (·.gap) ++ [last]).zip (slots.map (·.found.text))) =
        slots.map fun s => (s.record, s.gap, s.found.text) := by
    intro slots last
    induction slots with
    | nil => rfl
    | cons s slots ih =>
        simp only [List.map_cons, List.cons_append, List.zip_cons_cons, ih]
  have hlength : before.length = (before.map fun s => (s.record, s.gap, s.found.text)).length := by
    rw [List.length_map]
  obtain ⟨braced, hlined, -⟩ := decides_prefix h.lined
  rw [startTags, h.ledger_eq, h.gaps_eq, h.placeholders_eq, hzip, List.map_append,
    List.drop_left' hlength.symm, List.takeWhile_map, List.map_map, rowTags, hlined.row_eq]
  rfl

/-- Without its placeholder a record is restored from what follows in its row. -/
theorem decides_without (h : m.CutAt before s after last) :
    Decides (m.losesUnnoticed before.length)
      (Restoration.restore (m.without before.length) m.ledger) := by
  obtain ⟨braced, hlined, hdecides⟩ := decides_prefix h.lined
  obtain ⟨hgap, braced', hplaced, hafter⟩ := hlined.of_cons
  obtain ⟨last', htext, hplain⟩ := woven_prepend s.gap after last
  have hlast' : Text.Plain last' := hplain hgap h.plain
  have hafter' : Lined (0 + before.length + 1) braced' (prepend s.gap after) := hafter.prepend hgap
  have hledger : m.ledger = before.map (·.record) ++
      s.record :: (prepend s.gap after).map (·.record) := by
    rw [h.ledger_eq, List.map_append, List.map_cons, prepend_record]
  rw [Restoration.restore, h.without_eq, htext, ← woven_append, hledger]
  refine (hdecides _ _ _ _ _ hafter'.properItems hlast').2 ?_
  unfold losesUnnoticed
  rw [h.startTags_eq]
  by_cases hfamily : s.found.family = .opening
  · have hrun := decides_row (Lined.cons hgap hplaced hafter') hlast' hafter'.openingItems
      (before.map (·.record) ++ s.record :: (prepend s.gap after).map (·.record)).length
    have htags : ((row (prepend s.gap after)).map Slot.item).map Item.tag =
        rowTags (prepend s.gap after) := List.map_map ..
    rw [behindRow_cons hfamily, ← List.map_append, row_append_behindRow, htags, realigns_prepend,
      rowTags_cons hfamily, List.map_cons, forms_prepend] at hrun
    rw [rowTags_cons hfamily]
    exact hrun
  · rw [rowTags_cons_of_ne hfamily]
    exact decides_loss hfamily hlast' hplaced.kind_family hafter'

/-- With its placeholder twice a record is restored, and the second copy is held against what
follows in its row. -/
theorem decides_doubled (h : m.CutAt before s after last) :
    Decides (m.doublesUnnoticed before.length)
      (Restoration.restore (m.doubled before.length) m.ledger) := by
  obtain ⟨braced, hlined, hdecides⟩ := decides_prefix h.lined
  obtain ⟨hgap, braced', hplaced, hafter⟩ := hlined.of_cons
  have hproper : ProperItems (([], s.found) :: after.map Slot.item) :=
    ProperItems.cons Text.plain_nil hplaced.proper hafter.properItems
  have hall : ProperItems (s.item :: ([], s.found) :: after.map Slot.item) :=
    ProperItems.cons hgap hplaced.proper hproper
  rw [Restoration.restore, h.doubled_eq, h.ledger_eq, List.map_append, List.map_cons]
  refine (hdecides _ _ _ _ _ hall h.plain).2 ((decides_aligned hall h.plain hplaced).2 ?_)
  unfold doublesUnnoticed
  rw [h.startTags_eq]
  by_cases hfamily : s.found.family = .opening
  · obtain ⟨-, -, form, hform, -⟩ := hplaced.opening_cases hfamily
    have hrun := decides_row hafter h.plain
      (OpeningItems.cons Text.plain_nil hform hafter.openingItems)
      (before.map (·.record) ++ s.record :: after.map (·.record)).length
    have htags : ((row after).map Slot.item).map Item.tag = rowTags after := List.map_map ..
    rw [List.cons_append, ← List.map_append, row_append_behindRow, List.map_cons, htags] at hrun
    rw [rowTags_cons hfamily]
    have hhead := StartTag.realigns_head ((rowTags after).map (·.form)) (formOf s.found.text)
      (s.gap.all Text.isBlank) true (rowTags after)
    dsimp only [Slot.item, Item.tag] at hrun ⊢
    rw [hhead]
    exact hrun
  · rw [rowTags_cons_of_ne hfamily]
    exact decides_doubling hplaced.proper hfamily h.plain Text.plain_nil hafter

end CutAt

end Masked

namespace Restoration

/-- A lost placeholder is noticed unless the row of start tags that its construct begins comes out
even without it, and a doubled one unless the rest of the row comes out even with the second copy.
Nothing else goes unnoticed. -/
theorem loss_and_doubling_noticed_iff {source : Text} {settings : Settings} {file : Option String}
    {m : Masked} (h : Masked.ofSource source settings file = .ok m) {i : Nat}
    (hi : i < m.ledger.length) :
    (((∃ e, restore (m.without i) m.ledger = .error e ∧ e.isMismatch = true) ↔
        m.losesUnnoticed i = false) ∧
      ((∃ out, restore (m.without i) m.ledger = .ok out) ↔ m.losesUnnoticed i = true)) ∧
    (((∃ e, restore (m.doubled i) m.ledger = .error e ∧ e.isMismatch = true) ↔
        m.doublesUnnoticed i = false) ∧
      ((∃ out, restore (m.doubled i) m.ledger = .ok out) ↔ m.doublesUnnoticed i = true)) := by
  obtain ⟨tokens, -, hmasks⟩ := Masked.masks_of_ofSource h
  obtain ⟨before, s, after, last, rfl, hcut⟩ := Masked.exists_cutAt hmasks hi
  exact ⟨hcut.decides_without.iff, hcut.decides_doubled.iff⟩

/-- Of two start tags, the first on one line and the second a comment alone, the first is noticed
when it is lost but not when it is doubled. -/
theorem loss_and_doubling_noticed_iff_of_nested :
    let source := "<a:bbbbbb><a:b>y</a:b></a:bbbbbb>".toList
    let m : Masked := ⟨[.construct "if (ʃʃʃ) \x7b".toList ⟨"<a:bbbbbb>".toList, .startTag⟩,
      .construct "/*ʃ*/".toList ⟨"<a:b>".toList, .startTag⟩, .template ['y'],
      .construct "/*ʅʅ*/".toList ⟨"</a:b>".toList, .endTag⟩,
      .construct "\x7d/*ʅʅʅʅʅʅ*/".toList ⟨"</a:bbbbbb>".toList, .endTag⟩]⟩
    Masked.ofSource source {} none = .ok m ∧ 0 < m.ledger.length ∧
      (∃ e, restore (m.without 0) m.ledger = .error e ∧ e.isMismatch = true) ∧
      ∃ out, restore (m.doubled 0) m.ledger = .ok out := by
  have hmasked : Masked.ofSource "<a:bbbbbb><a:b>y</a:b></a:bbbbbb>".toList {} none =
      .ok ⟨[.construct "if (ʃʃʃ) \x7b".toList ⟨"<a:bbbbbb>".toList, .startTag⟩,
        .construct "/*ʃ*/".toList ⟨"<a:b>".toList, .startTag⟩, .template ['y'],
        .construct "/*ʅʅ*/".toList ⟨"</a:b>".toList, .endTag⟩,
        .construct "\x7d/*ʅʅʅʅʅʅ*/".toList ⟨"</a:bbbbbb>".toList, .endTag⟩]⟩ := by
    decide +kernel
  have hnoticed := loss_and_doubling_noticed_iff hmasked (i := 0) (by decide)
  obtain ⟨⟨hloss, -⟩, -, hdoubling⟩ := hnoticed
  exact ⟨hmasked, by decide, hloss.2 (by decide +kernel), hdoubling.2 (by decide +kernel)⟩

/-- A start tag on one line in front of one on two lines. Without the placeholder of the first, its
record takes the condition of the second and leaves the comment of that to the second record: the
page is restored, with the first tag behind text that it stood in front of. -/
theorem restored_without_first_tag :
    let source := "<a:bbbbbb>x;<c:dddddddddd\nx='1'>y</c:dddddddddd></a:bbbbbb>".toList
    let m : Masked := ⟨[.construct "if (ʃʃʃ) \x7b".toList ⟨"<a:bbbbbb>".toList, .startTag⟩,
      .template "x;".toList,
      .construct "if (ʃ) \x7b/*ʃʃʃ\nʃʃʃʃ*/".toList
        ⟨"<c:dddddddddd\nx='1'>".toList, .startTag⟩,
      .template "y".toList,
      .construct "\x7d/*ʅʅʅʅʅʅʅʅʅʅ*/".toList ⟨"</c:dddddddddd>".toList, .endTag⟩,
      .construct "\x7d/*ʅʅʅʅʅʅ*/".toList ⟨"</a:bbbbbb>".toList, .endTag⟩]⟩
    Masked.ofSource source {} none = .ok m ∧
      restore (m.without 0) m.ledger =
        .ok "x;<a:bbbbbb><c:dddddddddd\nx='1'>y</c:dddddddddd></a:bbbbbb>".toList := by
  decide +kernel

end Restoration

end Stencil
