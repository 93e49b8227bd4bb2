import Stencil.Placeholder.Build
import Stencil.Proofs.Text.Fitting

/-!
# Room for placeholders

A layout has room for a shape if it has as many characters as the fixed texts of the shape and its
fewest fillers take (`Layout.isSome_fill_iff`), and for a list of shapes if it has room for the
smallest of them. The last shape of each list is the smallest one. It says neither label nor number,
so whether a construct has a placeholder does not depend on how many constructs stand in front of
it.
-/

set_option autoImplicit false

namespace Stencil

/-- The fewest characters that a shape fills. -/
def Shape.size (s : Shape) : Int := s.minFill + s.head.length + s.tail.length

/-- A layout is filled in some way just if it is large enough for one of them. -/
theorem Layout.isSome_firstFit_iff {l : Layout} {shapes : List Shape}
    (hmin : ∀ s ∈ shapes, 0 ≤ s.minFill) :
    (l.firstFit shapes).isSome ↔ ∃ s ∈ shapes, s.size ≤ l.net := by
  rw [firstFit, List.findSome?_isSome_iff]
  refine exists_congr fun s => and_congr_right fun hs => ?_
  exact isSome_fill_iff (hmin s hs)

/-- The smallest way is the one that counts. -/
theorem Layout.isSome_firstFit_iff_of_least {l : Layout} {shapes : List Shape} (least : Shape)
    (hmem : least ∈ shapes) (hmin : ∀ s ∈ shapes, 0 ≤ s.minFill)
    (hleast : ∀ s ∈ shapes, least.size ≤ s.size) :
    (l.firstFit shapes).isSome ↔ least.size ≤ l.net := by
  rw [isSome_firstFit_iff hmin]
  constructor
  · rintro ⟨s, hs, hle⟩
    exact (hleast s hs).trans hle
  · exact fun hle => ⟨least, hmem, hle⟩

namespace Placeholder

variable {l : Layout}

/-- A comment needs five characters besides its head. -/
theorem size_commentBehind (head : Text) (filler : Char) :
    (commentBehind head filler).size = 5 + head.length := by
  simp [commentBehind, Shape.size]
  omega

/-- A name with a comment behind it needs seven characters besides its label. -/
theorem size_trailedShape (name : Text) : (trailedShape name).size = 7 + name.length := by
  simp [trailedShape, Shape.size]
  omega

/-- A name needs its half rings, its label and its fillers. -/
theorem size_namedShape (name : Text) (minFill : Int) :
    (namedShape name minFill).size = minFill + 2 + name.length := by
  simp [namedShape, Shape.size]
  omega

/-- The digits of a number are never missing. -/
theorem length_ofInt_pos (n : Nat) : 0 < (Text.ofInt n).length :=
  List.length_pos_iff.2 Nat.toDigits_ne_nil

/-- Two slashes or the delimiters of a comment, and one filler. -/
theorem isSome_comment_iff {asLineComment : Bool} :
    (comment l asLineComment).isSome ↔
      if (asLineComment && l.isSingleLine) = true then 3 ≤ l.net else 5 ≤ l.net := by
  unfold comment
  split
  · rw [Layout.isSome_firstFit_iff (by simp)]
    simp [Shape.size]
  · rw [Layout.isSome_firstFit_iff (by simp)]
    simp [Shape.size]

/-- Two half rings and one filler, and on several lines the delimiters of a comment besides. -/
theorem isSome_identifier_iff (label : Text) (ordinal : Nat) :
    (identifier l label ordinal).isSome ↔
      if l.isSingleLine = true then 3 ≤ l.net else 7 ≤ l.net := by
  have hnumber := length_ofInt_pos ordinal
  unfold identifier
  split
  · rw [Layout.isSome_firstFit_iff_of_least (namedShape [] 1) (by simp)
      (by simp [namedShape])]
    · rw [size_namedShape]
      simp
    · simp only [List.forall_mem_cons, size_namedShape, tag, List.length_append, List.length_cons]
      exact ⟨by simp; omega, by simp; omega, le_rfl, by simp⟩
  · rw [Layout.isSome_firstFit_iff_of_least (trailedShape []) (by simp)
      (by simp [trailedShape])]
    · rw [size_trailedShape]
      simp
    · simp only [List.forall_mem_cons, size_trailedShape]
      exact ⟨by simp, by simp, le_rfl, by simp⟩

/-- The delimiters of a comment and one filler. -/
theorem isSome_opening_iff : (opening l).isSome ↔ 5 ≤ l.net := by
  have hleast : (commentBehind [] Sentinel.opening).size = 5 := size_commentBehind _ _
  unfold opening
  split
  · rw [Layout.isSome_firstFit_iff_of_least (commentBehind [] Sentinel.opening) (by simp)
      (by simp [commentBehind]), hleast, Nat.ofNat_le_cast]
    simp only [List.forall_mem_cons, hleast]
    simp [Shape.size]
  · rw [Layout.isSome_firstFit_iff_of_least (commentBehind [] Sentinel.opening) (by simp)
      (by simp [commentBehind]), hleast, Nat.ofNat_le_cast]
    simp only [List.forall_mem_cons, size_commentBehind]
    simp

/-- The brace if there is one, the delimiters of a comment and one filler. -/
theorem isSome_closing_iff {braced : Bool} :
    (closing l braced).isSome ↔ if braced = true then 6 ≤ l.net else 5 ≤ l.net := by
  unfold closing
  rw [Layout.isSome_firstFit_iff (by simp [commentBehind])]
  cases braced <;> simp [size_commentBehind]

end Placeholder

end Stencil
