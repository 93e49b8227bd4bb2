import Stencil.Proofs.Placeholder.Building
import Stencil.Proofs.Text.Breaks

/-!
# The ends and the lines of placeholders

No placeholder starts with a line feed or ends with a carriage return, whatever its form, so no line
break runs over its ends. The shapes that placeholders are made of hold no line break of their own:
all those of a placeholder come from the layout that was filled.
-/

set_option autoImplicit false

namespace Stencil.Placeholder

/-! ## Ends -/

section Apart

variable {filler : Char} {t : Text}

/-- No line break runs over the ends of a comment. -/
theorem IsComment.apart (h : IsComment filler t) : t.Apart := by
  obtain ⟨body, -, rfl⟩ := h
  exact ⟨⟨'/', rfl, by decide⟩, ⟨'/', by rw [List.getLast?_append]; rfl, by decide⟩⟩

/-- No line break runs over the ends of a line comment. -/
theorem IsLineComment.apart (h : IsLineComment t) : t.Apart := by
  obtain ⟨n, rfl⟩ := h
  refine ⟨⟨'/', rfl, by decide⟩, ⟨Sentinel.comment, ?_, by decide⟩⟩
  rw [List.replicate_succ', ← List.append_assoc, List.getLast?_concat]

/-- No line break runs over the ends of a name. -/
theorem IsName.apart (h : IsName t) : t.Apart := by
  obtain ⟨body, -, rfl⟩ := h
  exact ⟨⟨Sentinel.identifierStart, rfl, by decide⟩,
    ⟨Sentinel.identifierEnd, List.getLast?_concat, by decide⟩⟩

/-- No line break runs over the ends of a condition. -/
theorem IsCondition.apart (h : IsCondition t) : t.Apart := by
  obtain ⟨space, n, space', -, -, rfl⟩ := h
  exact ⟨⟨'i', rfl, by decide⟩, ⟨'{', List.getLast?_concat, by decide⟩⟩

/-- No line break runs over the ends of an opening, in none of its forms. -/
theorem Opens.apart {form : OpeningForm} {f : Found} (h : Opens form f) : f.text.Apart := by
  cases h with
  | condition hcore =>
      rw [Found.text_core]
      exact hcore.apart
  | trailed hcore htrail =>
      rw [Found.text_trail]
      exact hcore.apart.append htrail.apart
  | braced hcore =>
      rw [Found.text_lead]
      exact (Text.apart_singleton (by decide)).append hcore.apart
  | bare hcore =>
      rw [Found.text_core]
      exact hcore.apart

end Apart

/-! ## Shapes -/

/-- What fits first is one of the shapes. -/
theorem exists_fill_of_firstFit {l : Layout} {shapes : List Shape} {p : Text}
    (h : l.firstFit shapes = some p) : ∃ s ∈ shapes, l.fill s = some p :=
  List.exists_of_findSome?_eq_some h

/-- A comment behind a plain head is a plain shape. -/
theorem isPlain_commentBehind {head : Text} {filler : Char}
    (hhead : head.all (Text.IsPlainChar ·) = true) (hfiller : Text.IsPlainChar filler) :
    (commentBehind head filler).IsPlain where
  filler := ⟨filler, rfl⟩
  minFill := Int.one_nonneg
  plain := by
    simp only [commentBehind, List.forall_mem_append, List.forall_mem_singleton]
    exact ⟨⟨⟨Text.isPlainChar_of_all hhead, Text.isPlainChar_of_all (by decide)⟩, hfiller⟩,
      Text.isPlainChar_of_all (by decide)⟩

/-- A label has no line break. -/
theorem IsLabel.isPlain {n : Nat} {name : Text} (h : IsLabel n name) :
    ∀ c ∈ name, Text.IsPlainChar c := by
  intro c hc
  have hchar := h.isIdentifierChar hc
  constructor <;> rintro rfl <;> exact absurd hchar (by decide)

/-- A name between its half rings is a plain shape. -/
theorem isPlain_namedShape {n : Nat} {name : Text} (h : IsLabel n name) {minFill : Int}
    (hmin : 0 ≤ minFill) : (namedShape name minFill).IsPlain where
  filler := ⟨'_', rfl⟩
  minFill := hmin
  plain := by
    simp only [namedShape, List.forall_mem_append, List.forall_mem_singleton]
    exact ⟨⟨List.forall_mem_cons.2 ⟨by decide, h.isPlain⟩, by decide⟩, by decide⟩

/-- A name with a comment behind it is a plain shape. -/
theorem isPlain_trailedShape {n : Nat} {name : Text} (h : IsLabel n name) :
    (trailedShape name).IsPlain where
  filler := ⟨Sentinel.identifierEnd, rfl⟩
  minFill := Int.one_nonneg
  plain := by
    have hmark : ∀ c ∈ Sentinel.identifierEnd :: "/*".toList, Text.IsPlainChar c :=
      Text.isPlainChar_of_all (by decide)
    have hhead : ∀ c ∈ Sentinel.identifierStart :: (name ++ Sentinel.identifierEnd :: "/*".toList),
        Text.IsPlainChar c :=
      List.forall_mem_cons.2 ⟨by decide, List.forall_mem_append.2 ⟨h.isPlain, hmark⟩⟩
    simp only [trailedShape, List.forall_mem_append, List.forall_mem_singleton]
    exact ⟨⟨hhead, by decide⟩, Text.isPlainChar_of_all (by decide)⟩

/-- A comment is a filled layout. -/
theorem exists_fill_of_comment {l : Layout} {asLineComment : Bool} {p : Text}
    (h : comment l asLineComment = some p) : ∃ s : Shape, s.IsPlain ∧ l.fill s = some p := by
  unfold comment at h
  split at h
  all_goals
    obtain ⟨s, hs, hfill⟩ := exists_fill_of_firstFit h
    rw [List.mem_singleton] at hs
    subst hs
  · exact ⟨_, ⟨⟨_, rfl⟩, by decide, Text.isPlainChar_of_all (by decide)⟩, hfill⟩
  · exact ⟨_, ⟨⟨_, rfl⟩, by decide, Text.isPlainChar_of_all (by decide)⟩, hfill⟩

/-- An identifier is a filled layout. -/
theorem exists_fill_of_identifier {l : Layout} {label : Text} {n : Nat} {p : Text}
    (hlabel : ∀ c ∈ label, isLabelChar c = true) (h : identifier l label n = some p) :
    ∃ s : Shape, s.IsPlain ∧ l.fill s = some p := by
  unfold identifier at h
  split at h
  all_goals
    obtain ⟨s, hs, hfill⟩ := exists_fill_of_firstFit h
    refine ⟨s, ?_, hfill⟩
    simp only [List.mem_cons, List.not_mem_nil, or_false] at hs
  · rcases hs with rfl | rfl | rfl
    · exact isPlain_namedShape (.tag hlabel) (by decide)
    · exact isPlain_namedShape .number (by decide)
    · exact isPlain_namedShape (n := n) .empty (by decide)
  · rcases hs with rfl | rfl | rfl
    · exact isPlain_trailedShape (.tag hlabel)
    · exact isPlain_trailedShape .number
    · exact isPlain_trailedShape (n := n) .empty

/-- An opening is a filled layout. -/
theorem exists_fill_of_opening {l : Layout} {p : Text} (h : opening l = some p) :
    ∃ s : Shape, s.IsPlain ∧ l.fill s = some p := by
  unfold opening at h
  split at h
  all_goals
    obtain ⟨s, hs, hfill⟩ := exists_fill_of_firstFit h
    refine ⟨s, ?_, hfill⟩
    simp only [List.mem_cons, List.not_mem_nil, or_false] at hs
  · rcases hs with rfl | rfl | rfl
    · exact ⟨⟨_, rfl⟩, by decide, Text.isPlainChar_of_all (by decide)⟩
    · exact ⟨⟨_, rfl⟩, by decide, Text.isPlainChar_of_all (by decide)⟩
    · exact isPlain_commentBehind rfl (by decide)
  · rcases hs with rfl | rfl | rfl <;> exact isPlain_commentBehind (by decide) (by decide)

/-- A closing is a filled layout. -/
theorem exists_fill_of_closing {l : Layout} {braced : Bool} {p : Text}
    (h : closing l braced = some p) : ∃ s : Shape, s.IsPlain ∧ l.fill s = some p := by
  obtain ⟨s, hs, hfill⟩ := exists_fill_of_firstFit h
  rw [List.mem_singleton] at hs
  subst hs
  refine ⟨_, isPlain_commentBehind ?_ (by decide), hfill⟩
  cases braced <;> decide

end Stencil.Placeholder
