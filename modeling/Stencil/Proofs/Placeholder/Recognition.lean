import Stencil.Proofs.Placeholder.Braces

/-!
# What is built is recognised

`Maker` lists the ways to make a placeholder. Whatever text a placeholder is made for, the first
placeholder that is found in it starts at its first character, ends at its last and is of the family
that it was made for. An opening has a brace just if it opens a block. In an identifier a number is
read at its start only, since the half ring that a number stands behind occurs nowhere else, and it
is the number that was written there.
-/

set_option autoImplicit false

namespace Stencil

namespace Text

/-- Nothing is listed of a text in which nothing is recognised at any place. -/
theorem allMatches_go_eq_nil {α : Type} {recognise : Text → Option (Nat × α)} {t : Text}
    (h : ∀ c s, c :: s <:+ t → recognise (c :: s) = none) (position skip : Nat) :
    allMatches.go recognise position skip t = [] := by
  induction t generalizing position skip with
  | nil => rw [allMatches.go]
  | cons c t ih =>
      have hothers := ih fun d s hs => h d s (hs.trans (List.suffix_cons c t))
      cases skip with
      | zero =>
          rw [allMatches.go, h c t (List.suffix_refl _)]
          exact hothers _ _
      | succ skip =>
          rw [allMatches.go]
          exact hothers _ _

end Text

namespace Placeholder

/-- A way to make a placeholder. -/
inductive Maker where
  /-- A comment, which may be asked for as a line comment. -/
  | comment (asLineComment : Bool)
  /-- An identifier with the label of a kind and a number. -/
  | identifier (kind : Kind) (number : Nat)
  /-- The start of a block. -/
  | opening
  /-- The end of a block, with a brace or without. -/
  | closing (braced : Bool)

namespace Maker

/-- The placeholder for a layout, if there is room for one. -/
def make (l : Layout) : Maker → Option Text
  | comment asLineComment => Placeholder.comment l asLineComment
  | identifier kind number => Placeholder.identifier l kind.identifierLabel number
  | opening => Placeholder.opening l
  | closing braced => Placeholder.closing l braced

/-- The family of the placeholder. -/
def family : Maker → Family
  | comment _ => .comment
  | identifier _ _ => .identifier
  | opening => .opening
  | closing _ => .closing

variable {construct p : Text} {maker : Maker}

/-- What is made is a proper placeholder. -/
theorem exists_proper (h : maker.make (Layout.of construct) = some p) :
    ∃ f : Found, f.Proper ∧ f.text = p ∧ f.family = maker.family := by
  cases maker with
  | comment asLineComment =>
      obtain ⟨-, hcomment | hline⟩ := comment_spec h
      · have hfamily : Family.comment ≠ .identifier := by decide
        exact ⟨_, .comment hfamily (.inl rfl) hcomment, Found.text_core _ p, rfl⟩
      · exact ⟨_, .lineComment hline, Found.text_core _ p, rfl⟩
  | identifier kind number =>
      obtain ⟨-, core, trail, hcore, htrail, rfl, -⟩ :=
        identifier_spec (fun c hc => Masked.isLabelChar_of_mem_identifierLabel hc) h
      exact ⟨_, .name hcore (htrail.imp_right IsComment.isTrail), Found.text_trail _ core trail,
        rfl⟩
  | opening =>
      obtain ⟨-, form, f, hform, hf⟩ := opening_spec h
      exact ⟨f, hform.proper, hf, hform.family⟩
  | closing braced =>
      obtain ⟨-, core, hcore, rfl⟩ := closing_spec h
      have hfamily : Family.closing ≠ .identifier := by decide
      refine ⟨_, .comment hfamily ?_ hcore, Found.text_lead _ _ core, rfl⟩
      cases braced with
      | false => exact .inl rfl
      | true => exact .inr ⟨'}', rfl, isLead_singleton '}'⟩

end Maker

/-- A proper placeholder that stands alone is found whole. -/
theorem next?_of_proper {f : Found} (hf : f.Proper) : next? f.text = some ([], f, []) := by
  have hends : f.Ends [] := by
    refine ⟨fun _ _ x y hxy htrail => ?_, nofun⟩
    exact htrail.ne_nil (List.append_eq_nil_iff.1 hxy.symm).1
  have hfound : next? ([] ++ (f.text ++ [])) = some ([], f, []) :=
    next?_append hf Text.plain_nil hends
      fun _ _ mark _ x y hxy hlead => hlead.ne_nil (List.append_eq_nil_iff.1 hxy.symm).2
  rwa [List.nil_append, List.append_nil] at hfound

/-! ## Numbers -/

/-- A number is read behind a half ring only. -/
theorem ordinal?_eq_none {c : Char} (hc : c ≠ Sentinel.identifierStart) (t : Text) :
    ordinal? (c :: t) = none := by
  have hscan : Scan.text [Sentinel.identifierStart] (c :: t) = none := by
    simp [Scan.text, Text.after?, hc.symm]
  unfold ordinal?
  simp only [Scan.all, Scan.andThen, hscan]

/-- With one half ring in a text, at its start, a number can be read there only. -/
theorem allOrdinals_cons {t : Text} (h : Sentinel.identifierStart ∉ t) :
    allOrdinals (Sentinel.identifierStart :: t) =
      ((ordinal? (Sentinel.identifierStart :: t)).map fun (taken, digits) =>
        (0, taken.length, digits)).toList := by
  have hothers (position skip : Nat) : Text.allMatches.go
      (fun t => (ordinal? t).map fun (taken, digits) => (taken.length, digits)) position skip t =
        [] := by
    refine Text.allMatches_go_eq_nil (fun c s hs => ?_) position skip
    rw [ordinal?_eq_none fun hc => h (hs.subset (hc ▸ List.mem_cons_self ..))]
    rfl
  rw [allOrdinals, Text.allMatches, Text.allMatches.go]
  cases ordinal? (Sentinel.identifierStart :: t) with
  | none => exact hothers _ _
  | some answer => simp [hothers]

/-- The half ring that starts a name does not occur in the rest of an identifier. -/
theorem IsName.exists_tail {core trail : Text} (h : IsName core)
    (htrail : trail = [] ∨ IsComment Sentinel.identifierEnd trail) :
    ∃ t, core ++ trail = Sentinel.identifierStart :: t ∧ Sentinel.identifierStart ∉ t := by
  obtain ⟨body, hbody, rfl⟩ := h
  have hname : Sentinel.identifierStart ∉ body := fun hmem => absurd (hbody _ hmem) (by decide)
  have hcomment : Sentinel.identifierStart ∉ trail := by
    rcases htrail with rfl | ⟨fillers, ⟨honly, -⟩, rfl⟩
    · exact List.not_mem_nil
    · have hfillers : Sentinel.identifierStart ∉ fillers := fun hmem => by
        rcases honly _ hmem with heq | hblank
        · exact absurd heq (by decide)
        · exact absurd hblank (by decide)
      simp only [List.mem_append, not_or]
      exact ⟨⟨by decide, hfillers⟩, by decide⟩
  refine ⟨body ++ [Sentinel.identifierEnd] ++ trail, rfl, ?_⟩
  simp only [List.mem_append, not_or]
  exact ⟨⟨hname, by decide⟩, hcomment⟩

/-- The builders and the scan for placeholders agree. Of any text whatever, if a placeholder is made
for it in one of the ways, the first placeholder found in that is the whole of it, of the family
that it was made for; an opening opens a block just if there is a brace in it; and in an identifier
no number can be read, neither at its start nor anywhere else, but the one that it was made with. -/
theorem made_is_found {construct p : Text} {maker : Maker}
    (h : maker.make (Layout.of construct) = some p) :
    (∃ f, next? p = some ([], f, []) ∧ f.text = p ∧ f.family = maker.family) ∧
      (maker = .opening → (opensBlock p = true ↔ '{' ∈ p)) ∧
      ∀ kind number, maker = .identifier kind number →
        (∀ taken digits, ordinal? p = some (taken, digits) →
          Text.decimalValue digits = number) ∧
        ∀ start stop digits, (start, stop, digits) ∈ allOrdinals p →
          start = 0 ∧ Text.decimalValue digits = number := by
  refine ⟨?_, ?_, ?_⟩
  · obtain ⟨f, hproper, rfl, hfamily⟩ := maker.exists_proper h
    exact ⟨f, next?_of_proper hproper, rfl, hfamily⟩
  · rintro rfl
    obtain ⟨-, form, f, hform, rfl⟩ := opening_spec h
    have hbrace : '{' ∈ Text.braces f.text ↔ '{' ∈ f.text := by simp [Text.braces]
    rw [← hbrace, hform.braces_text]
    cases opensBlock f.text <;> simp
  · rintro kind number rfl
    obtain ⟨-, core, trail, hcore, htrail, rfl, hnumber⟩ :=
      identifier_spec (fun c hc => Masked.isLabelChar_of_mem_identifierLabel hc) h
    refine ⟨hnumber, fun start stop digits hmem => ?_⟩
    obtain ⟨t, heq, ht⟩ := hcore.exists_tail htrail
    rw [heq] at hnumber hmem
    rw [allOrdinals_cons ht, Option.mem_toList, Option.map_eq_some_iff] at hmem
    obtain ⟨⟨taken, digits'⟩, hread, hanswer⟩ := hmem
    cases hanswer
    exact ⟨rfl, hnumber taken digits hread⟩

/-- An identifier over three lines, of which the number ends the name and the middle line is left
with its indentation alone. -/
theorem made_is_found_of_lines :
    let construct := "<%= a\n\t.items()\r\n    .size() %>".toList
    let p := "\u02beJSP_EXPR_12\u02bf/*\n\t\r\n    ".toList ++
      List.replicate 6 Sentinel.identifierEnd ++ "*/".toList
    let maker := Maker.identifier .expression 12
    maker.make (Layout.of construct) = some p ∧
      (∃ f, next? p = some ([], f, []) ∧ f.text = p ∧ f.family = .identifier) ∧
      allOrdinals p ≠ [] ∧
      ∀ start stop digits, (start, stop, digits) ∈ allOrdinals p →
        start = 0 ∧ Text.decimalValue digits = 12 := by
  intro construct p maker
  have hmade : maker.make (Layout.of construct) = some p := by decide +kernel
  obtain ⟨hfound, -, hnumber⟩ := made_is_found hmade
  exact ⟨hmade, hfound, by decide +kernel, (hnumber .expression 12 rfl).2⟩

end Placeholder

end Stencil
