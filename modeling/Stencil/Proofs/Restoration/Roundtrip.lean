import Stencil.Formatting
import Stencil.Proofs.Restoration.Extent
import Stencil.Proofs.Substitution.Offsets

/-!
# Restoring what was masked

Whatever a formatter does to the template text between the placeholders of a masked page, as long as
it puts no sentinel there and leaves the placeholders alone, every construct goes back to where its
placeholder stands and the text between them is kept.
-/

set_option autoImplicit false

namespace Stencil

open Placeholder

/-- The placeholder of a construct. -/
def Segment.placeholder? : Segment → Option Text
  | template _ => none
  | construct placeholder _ => some placeholder

namespace Masked

/-- The template text in front of the first construct, between constructs, and behind the last. -/
def gapsOf : List Segment → List Text
  | [] => [[]]
  | .template t :: segments =>
    match gapsOf segments with
    | [] => [t]
    | gap :: gaps => (t ++ gap) :: gaps
  | .construct _ _ :: segments => [] :: gapsOf segments

/-- The template text between the constructs of a masked text. -/
def gaps (m : Masked) : List Text := gapsOf m.segments

/-- The placeholders of a masked text. -/
def placeholders (m : Masked) : List Text := m.segments.filterMap Segment.placeholder?

/-- The constructs of a masked text. -/
def originals (m : Masked) : List Text := m.ledger.map (·.construct)

/-- There is one more gap than there are constructs. -/
theorem length_gapsOf (segments : List Segment) :
    (gapsOf segments).length = (segments.filterMap Segment.record?).length + 1 := by
  induction segments with
  | nil => rfl
  | cons s segments ih =>
      cases s with
      | template t =>
          rw [List.filterMap_cons_none rfl, ← ih, gapsOf]
          cases hgaps : gapsOf segments with
          | nil =>
              rw [hgaps] at ih
              cases ih
          | cons gap gaps => rfl
      | construct p r =>
          have hrecord : Segment.record? (.construct p r) = some r := rfl
          rw [List.filterMap_cons_some hrecord, gapsOf, List.length_cons, ih, List.length_cons]

/-- Both what a formatter sees of a masked text and its source are its template text with something
in the place of the constructs. -/
theorem flatMap_eq_weave (shown : Segment → Text) (piece? : Segment → Option Text)
    (htemplate : ∀ t, shown (.template t) = t ∧ piece? (.template t) = none)
    (hconstruct : ∀ p r, piece? (.construct p r) = some (shown (.construct p r)))
    (segments : List Segment) :
    segments.flatMap shown = Text.weave (gapsOf segments) (segments.filterMap piece?) := by
  induction segments with
  | nil => rfl
  | cons s segments ih =>
      cases s with
      | template t =>
          rw [List.flatMap_cons, List.filterMap_cons_none (htemplate t).2, (htemplate t).1, ih,
            gapsOf]
          have hlen := length_gapsOf segments
          cases hgaps : gapsOf segments with
          | nil =>
              rw [hgaps] at hlen
              cases hlen
          | cons gap gaps =>
              dsimp only
              cases segments.filterMap piece? with
              | nil => rfl
              | cons piece pieces => simp only [Text.weave, List.append_assoc]
      | construct p r =>
          rw [List.flatMap_cons, List.filterMap_cons_some (hconstruct p r), ih, gapsOf, Text.weave,
            List.nil_append]

/-- A masked text is its placeholders in its gaps. -/
theorem text_eq_weave (m : Masked) : m.text = Text.weave m.gaps m.placeholders :=
  flatMap_eq_weave _ _ (fun _ => ⟨rfl, rfl⟩) (fun _ _ => rfl) m.segments

/-- A source is its constructs in the same gaps. -/
theorem source_eq_weave (m : Masked) : m.source = Text.weave m.gaps m.originals := by
  have hmap : m.originals = m.segments.filterMap fun s => s.record?.map (·.construct) := by
    rw [originals, ledger, List.map_filterMap]
  rw [hmap]
  exact flatMap_eq_weave _ _ (fun _ => ⟨rfl, rfl⟩) (fun _ _ => rfl) m.segments

section Masks

variable {source : Text} {settings : Settings} {ts : List Token} {number : Nat}
  {braced : List Bool} {segments : List Segment}

/-- The placeholders of a masked text are those of its records, in order. -/
theorem Masks.placedAll (h : Masks source settings ts number braced segments) :
    ∃ gs : List Found, PlacedAll number braced (segments.filterMap Segment.record?) gs ∧
      gs.map (·.text) = segments.filterMap Segment.placeholder? := by
  induction h with
  | nil => exact ⟨[], .nil, rfl⟩
  | template hkind hplain hrest ih => exact ih
  | construct hkind hplaced hrest ih =>
      obtain ⟨gs, hgs, htexts⟩ := ih
      obtain ⟨-, g, rfl, hg⟩ := placeholder_spec hkind hplaced
      exact ⟨g :: gs, .cons hg hgs, by simp [htexts, Segment.placeholder?]⟩

/-- The gaps of a masked text have no sentinel. -/
theorem Masks.plain_gaps (h : Masks source settings ts number braced segments) :
    ∀ gap ∈ gapsOf segments, Text.Plain gap := by
  induction h with
  | nil =>
      intro gap hgap
      rw [gapsOf, List.mem_singleton] at hgap
      subst hgap
      exact Text.plain_nil
  | @template t ts number braced segments hkind hplain hrest ih =>
      intro gap hgap
      rw [gapsOf] at hgap
      split at hgap
      · rw [List.mem_singleton] at hgap
        subst hgap
        exact hplain
      · rename_i gap' gaps hgaps
        rw [hgaps] at ih
        rcases List.mem_cons.1 hgap with rfl | hgap
        · exact hplain.append (ih gap' (List.mem_cons_self ..))
        · exact ih gap (List.mem_cons_of_mem _ hgap)
  | construct hkind hplaced hrest ih =>
      intro gap hgap
      rcases List.mem_cons.1 hgap with rfl | hgap
      · exact Text.plain_nil
      · exact ih gap hgap

/-- What the segments stand for is what the tokens hold. -/
theorem Masks.unmasked (h : Masks source settings ts number braced segments) :
    segments.flatMap Segment.unmasked = ts.flatMap (·.value) := by
  induction h with
  | nil => rfl
  | template hkind hplain hrest ih => simp [Segment.unmasked, ih]
  | construct hkind hplaced hrest ih => simp [Segment.unmasked, ih]

end Masks

end Masked

/-- Gaps and placeholders, one gap more, are items with a last text behind. -/
theorem exists_items {gaps : List Text} {gs : List Found} (h : gaps.length = gs.length + 1) :
    ∃ (items : List Item) (last : Text), items.map (·.1) ++ [last] = gaps ∧
      items.map (·.2) = gs := by
  induction gs generalizing gaps with
  | nil =>
      obtain ⟨last, rfl⟩ := List.length_eq_one_iff.1 h
      exact ⟨[], last, rfl, rfl⟩
  | cons g gs ih =>
      cases gaps with
      | nil => cases h
      | cons gap gaps =>
          obtain ⟨items, last, rfl, rfl⟩ := ih (Nat.succ.inj h)
          exact ⟨(gap, g) :: items, last, rfl, rfl⟩

/-- The source of a masked text is its template text with the constructs in between. -/
theorem Masked.weaves_of_ofSource {source : Text} {settings : Settings} {file : Option String}
    {m : Masked} (h : ofSource source settings file = .ok m) :
    ∃ tokens, Masks source settings tokens 0 [] m.segments ∧
      source = Text.weave m.gaps m.originals ∧ m.placeholders.length = m.ledger.length ∧
      m.gaps.length = m.ledger.length + 1 := by
  obtain ⟨tokens, hcomplete, hmasks⟩ := masks_of_ofSource h
  have hsource : source = Text.weave m.gaps m.originals := by
    rw [← source_eq_weave, Masked.source, hmasks.unmasked,
      TokenStream.flatMap_value_of_complete hcomplete]
  have hplaceholders : m.placeholders.length = m.ledger.length := by
    obtain ⟨gs, hplaced, htexts⟩ := hmasks.placedAll
    rw [placeholders, ← htexts, List.length_map, hplaced.length_eq, ledger]
  exact ⟨tokens, hmasks, hsource, hplaceholders, length_gapsOf m.segments⟩

namespace Restoration

/-- Between texts without sentinels placeholders give way to their records. -/
theorem restore_of_spacedAll {ledger : Ledger} {gs : List Found} (h : SpacedAll 0 [] ledger gs)
    {gaps : List Text} (hlength : gaps.length = gs.length + 1)
    (hplain : ∀ gap ∈ gaps, Text.Plain gap) :
    restore (Text.weave gaps (gs.map (·.text))) ledger =
      .ok (Text.weave gaps (ledger.map (·.construct))) := by
  obtain ⟨items, last, rfl, rfl⟩ := exists_items hlength
  have hgaps : ∀ item ∈ items, Text.Plain item.1 := fun item hitem =>
    hplain _ (List.mem_append_left _ (List.mem_map_of_mem hitem))
  have hlast : Text.Plain last := hplain last (by simp)
  have hwoven : Text.weave (items.map (·.1) ++ [last]) ((items.map (·.2)).map (·.text)) =
      woven items last := by
    rw [woven_eq_weave, List.map_map]
    rfl
  rw [hwoven, restore]
  exact restoreFrom_woven _ h hgaps hlast

/-- The placeholders of a masked text between other texts without sentinels. -/
theorem restore_of_masks {source : Text} {settings : Settings} {tokens : List Token} {m : Masked}
    (h : Masked.Masks source settings tokens 0 [] m.segments) {gaps : List Text}
    (hlength : gaps.length = m.ledger.length + 1) (hplain : ∀ gap ∈ gaps, Text.Plain gap) :
    restore (Text.weave gaps m.placeholders) m.ledger = .ok (Text.weave gaps m.originals) := by
  obtain ⟨gs, hplaced, htexts⟩ := h.placedAll
  rw [← Masked.ledger] at hplaced
  rw [← Masked.placeholders] at htexts
  rw [← htexts]
  exact restore_of_spacedAll hplaced.spaced (by rw [hlength, hplaced.length_eq]) hplain

/-- A masked text is its template text with the placeholders in between, and its source is the same
with the constructs in between. With any other texts without sentinels in the place of the template
text the constructs are put back into the place of their placeholders, and nothing else changes. In
particular the masked text itself gives the source, and a formatter that changes nothing leaves a
page and its constructs as they are. -/
theorem restore_weave {source : Text} {settings : Settings} {file : Option String} {m : Masked}
    (h : Masked.ofSource source settings file = .ok m) :
    m.text = Text.weave m.gaps m.placeholders ∧ source = Text.weave m.gaps m.originals ∧
    m.placeholders.length = m.ledger.length ∧ m.gaps.length = m.ledger.length + 1 ∧
    (∀ gaps : List Text, gaps.length = m.ledger.length + 1 → (∀ gap ∈ gaps, Text.Plain gap) →
      restore (Text.weave gaps m.placeholders) m.ledger = .ok (Text.weave gaps m.originals)) ∧
    restore m.text m.ledger = .ok source ∧
    ∃ f, Formatting.format source .ok settings file = .ok f ∧ f = ⟨source, source, m.ledger⟩ ∧
      f.changed = false := by
  obtain ⟨tokens, hmasks, hsource, hplaceholders, hgaps⟩ := Masked.weaves_of_ofSource h
  have hrestore : restore m.text m.ledger = .ok source := by
    have hown := restore_of_masks hmasks hgaps hmasks.plain_gaps
    rw [← Masked.text_eq_weave, ← hsource] at hown
    exact hown
  refine ⟨m.text_eq_weave, hsource, hplaceholders, hgaps,
    fun gaps hlen hplain => restore_of_masks hmasks hlen hplain, hrestore,
    ⟨source, source, m.ledger⟩, ?_, rfl, ?_⟩
  · simp only [Formatting.format, Formatting.report, h, hrestore]
  · simp [Formatted.changed]

/-- Two tags, one inside the other, with text between their placeholders that looks like parts of
placeholders. -/
theorem restore_weave_of_nested :
    let source := "<a:bbbbbb><a:b>x</a:b></a:bbbbbb>".toList
    let m : Masked := ⟨[.construct "if (ʃʃʃ) \x7b".toList ⟨"<a:bbbbbb>".toList, .startTag⟩,
      .construct "/*ʃ*/".toList ⟨"<a:b>".toList, .startTag⟩, .template ['x'],
      .construct "/*ʅʅ*/".toList ⟨"</a:b>".toList, .endTag⟩,
      .construct "\x7d/*ʅʅʅʅʅʅ*/".toList ⟨"</a:bbbbbb>".toList, .endTag⟩]⟩
    let gaps := ["if (".toList, " \x7b ".toList, "/*".toList, "\x7d".toList, "//".toList]
    Masked.ofSource source {} none = .ok m ∧ gaps.length = m.ledger.length + 1 ∧
      (∀ gap ∈ gaps, Text.Plain gap) ∧
      restore (Text.weave gaps m.placeholders) m.ledger = .ok (Text.weave gaps m.originals) := by
  have hmasked : Masked.ofSource "<a:bbbbbb><a:b>x</a:b></a:bbbbbb>".toList {} none =
      .ok ⟨[.construct "if (ʃʃʃ) \x7b".toList ⟨"<a:bbbbbb>".toList, .startTag⟩,
        .construct "/*ʃ*/".toList ⟨"<a:b>".toList, .startTag⟩, .template ['x'],
        .construct "/*ʅʅ*/".toList ⟨"</a:b>".toList, .endTag⟩,
        .construct "\x7d/*ʅʅʅʅʅʅ*/".toList ⟨"</a:bbbbbb>".toList, .endTag⟩]⟩ := by
    decide +kernel
  have hplain : ∀ gap ∈ ["if (".toList, " \x7b ".toList, "/*".toList, "\x7d".toList, "//".toList],
      Text.Plain gap := by
    intro gap hgap
    refine Text.plain_of_all ?_
    simp only [List.mem_cons, List.not_mem_nil, or_false] at hgap
    rcases hgap with rfl | rfl | rfl | rfl | rfl <;> decide
  obtain ⟨-, -, -, -, hweave, -⟩ := restore_weave hmasked
  exact ⟨hmasked, rfl, hplain, hweave _ rfl hplain⟩

end Restoration

end Stencil
