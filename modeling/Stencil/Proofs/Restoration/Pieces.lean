import Stencil.Proofs.Restoration.Extent

/-!
# What restoration does to any text

Restoration is not only for texts that were masked. Whatever a text says and whatever the ledger
holds, a text that is restored falls into as many placeholders as there are records and the texts
around them, and all that happens to it is that each placeholder gives way to its record. Nothing
that looks like a placeholder is left in between.

What is found may be more than what the record's placeholder is: a brace in front of it or a comment
behind it goes back to the text. A brace is no placeholder and becomes a part of the text in front,
and a comment is looked at again. `Restoration.extent_spec` is the step, and
`Restoration.weave_of_restore` the statement about whole texts.
-/

set_option autoImplicit false

namespace Stencil

open Placeholder

namespace Placeholder

/-! ## What follows does not hide a placeholder -/

section

variable {f : Found} (rest : Text)

/-- A core that is recognised is found, whatever trails it. -/
theorem isSome_trailed? {family : Family} {scan : Scan} {filler : Char} {t core : Text}
    (h : scan t = some (core, rest)) : (trailed? family scan filler t).isSome = true := by
  unfold trailed? trailing Scan.orNothing
  rw [h]
  rfl

/-- A comment is found with its brace and without. -/
theorem isSome_bracedComment? {family : Family} {mark filler : Char} {lead core : Text}
    (hmark : mark ≠ '/') (hfiller : filler ≠ '*') (hlead : lead = [] ∨ IsLead mark lead)
    (hcore : IsComment filler core) :
    (bracedComment? family mark filler (lead ++ core ++ rest)).isSome = true := by
  rw [(bracedComment?_eq_some_iff hmark hfiller).2 ⟨lead, core, hlead, hcore, rfl, rfl⟩]
  rfl

/-- A line comment is found, whatever follows. -/
theorem isSome_lineComment {core : Text} (hcore : IsLineComment core) :
    (Scan.all [.text "//".toList, .run1 (· == Sentinel.comment)] (core ++ rest)).isSome = true := by
  obtain ⟨n, rfl⟩ := hcore
  simp [Scan.all, Scan.andThen, Scan.text, Text.after?, Scan.run1, Scan.runWith, Scan.run,
    List.replicate_succ]

/-- Where a proper placeholder starts something is found, whatever follows. -/
theorem isSome_found?_text (hf : f.Proper) : (found? (f.text ++ rest)).isSome = true := by
  unfold found?
  simp only [Option.orElse_eq_orElse, Option.orElse_eq_or, Option.isSome_or, Bool.or_eq_true]
  cases hf with
  | @condition core trail hcore htrail =>
      have hscan : condition (core ++ trail ++ rest) = some (core, trail ++ rest) :=
        condition_eq_some_iff.2 ⟨hcore, List.append_assoc ..⟩
      left
      unfold opening?
      rw [Option.orElse_eq_orElse, Option.orElse_eq_or, Option.isSome_or, Bool.or_eq_true]
      exact Or.inl (isSome_trailed? _ hscan)
  | @comment family lead core hfamily hlead hcore =>
      have htext : (⟨family, lead, core, []⟩ : Found).text ++ rest = lead ++ core ++ rest := by
        rw [Found.text_lead]
      rw [htext]
      cases family with
      | comment =>
          obtain rfl : lead = [] := hlead.resolve_right (by rintro ⟨mark, hmark, -⟩; cases hmark)
          have hscan : commentOf Sentinel.comment ([] ++ core ++ rest) = some (core, rest) :=
            (commentOf_eq_some_iff (by decide)).2 ⟨hcore, rfl⟩
          right; right; left
          unfold comment?
          rw [hscan]
          rfl
      | identifier => exact absurd rfl hfamily
      | opening =>
          left
          unfold opening?
          rw [Option.orElse_eq_orElse, Option.orElse_eq_or, Option.isSome_or, Bool.or_eq_true]
          right
          exact isSome_bracedComment? rest (by decide) (by decide) (lead_of_mark rfl hlead) hcore
      | closing =>
          right; left
          unfold closing?
          exact isSome_bracedComment? rest (by decide) (by decide) (lead_of_mark rfl hlead) hcore
  | @lineComment core hcore =>
      right; right; left
      unfold comment?
      rw [Found.text_core, Option.isSome_map, Option.orElse_eq_orElse, Option.orElse_eq_or,
        Option.isSome_or, Bool.or_eq_true]
      exact Or.inr (isSome_lineComment rest hcore)
  | @name core trail hcore htrail =>
      have hscan : name (core ++ trail ++ rest) = some (core, trail ++ rest) :=
        name_eq_some_iff.2 ⟨hcore, List.append_assoc ..⟩
      right; right; right
      exact isSome_trailed? _ hscan

/-- What is found somewhere is found there too when more text follows. -/
theorem found?_of_append {t more : Text} (h : found? (t ++ more) = none) : found? t = none := by
  cases hfound : found? t with
  | none => rfl
  | some answer =>
      obtain ⟨g, rest⟩ := answer
      obtain ⟨hg, rfl⟩ := found?_spec hfound
      have hsome := isSome_found?_text (rest ++ more) hg
      rw [← List.append_assoc, h] at hsome
      cases hsome

end

/-! ## Parts of what is found -/

/-- A proper placeholder is found whole where nothing else follows. -/
theorem found?_text_nil {f : Found} (hf : f.Proper) : found? f.text = some (f, []) := by
  have hends : f.Ends [] := by
    refine ⟨fun _ _ x y hxy htrail => ?_, by simp⟩
    exact htrail.ne_nil (List.append_eq_nil_iff.1 hxy.symm).1
  have hfound := found?_text hf hends
  rw [List.append_nil] at hfound
  exact hfound

end Placeholder

namespace Found.Proper

variable {f : Found}

/-- The lead of a proper placeholder has no sentinel. -/
theorem plain_lead (hf : f.Proper) : Text.Plain f.lead := by
  cases hf with
  | condition => exact Text.plain_nil
  | comment _ hlead =>
      rcases hlead with rfl | ⟨mark, hmark, space, hspace, rfl⟩
      · exact Text.plain_nil
      · intro c hc
        rcases List.mem_cons.1 hc with rfl | hc
        · rcases Family.mark?_cases hmark with rfl | rfl <;> decide
        · exact hspace.plain c hc
  | lineComment => exact Text.plain_nil
  | name => exact Text.plain_nil

/-- Without the brace in front of it what was found is still a placeholder. -/
theorem withoutLead (hf : f.Proper) : Proper { f with lead := [] } := by
  cases hf with
  | condition hcore htrail => exact .condition hcore htrail
  | comment hfamily _ hcore => exact .comment hfamily (Or.inl rfl) hcore
  | lineComment hcore => exact .lineComment hcore
  | name hcore htrail => exact .name hcore htrail

/-- Without the comment behind it what was found is still a placeholder. -/
theorem withoutTrail (hf : f.Proper) : Proper { f with trail := [] } := by
  cases hf with
  | condition hcore => exact .condition hcore (Or.inl rfl)
  | comment hfamily hlead hcore => exact .comment hfamily hlead hcore
  | lineComment hcore => exact .lineComment hcore
  | name hcore => exact .name hcore (Or.inl rfl)

end Found.Proper

namespace Restoration

/-! ## One record, and all of them -/

/-- A text is the whole of a placeholder that a record with a number may have. -/
structure Fits (number : Nat) (r : Record) (piece : Text) : Prop where
  family : ∃ f, found? piece = some (f, []) ∧ r.kind.family? = some f.family
  /-- An identifier has no other number than that of the record. -/
  number : r.kind.family? = some .identifier →
    ∀ taken digits, ordinal? piece = some (taken, digits) → Text.decimalValue digits = number

variable {count number : Nat} {r : Record} {f : Found} {braced : List Bool} {e : Extent}

/-- A placeholder of the family of a record fits it, if it is no identifier. -/
theorem fits_of_proper {g : Found} (hg : g.Proper) (hkind : r.kind.family? = some g.family)
    (hne : g.family ≠ .identifier) : Fits number r g.text := by
  refine ⟨⟨g, found?_text_nil hg, hkind⟩, fun hidentifier => ?_⟩
  rw [hkind, Option.some.injEq] at hidentifier
  exact absurd hidentifier hne

/-- What was found is a placeholder that fits a record, with what an extent gives back in front of
it and behind it. What is given back in front holds no sentinel. -/
def CutBy (number : Nat) (r : Record) (f : Found) (e : Extent) : Prop :=
  ∃ piece, f.text = e.before ++ (piece ++ e.after) ∧ Text.Plain e.before ∧ Fits number r piece

/-- A placeholder that fits as a whole gives nothing back. -/
theorem Fits.cutBy (h : Fits number r f.text) (braced : List Bool) :
    CutBy number r f ⟨[], [], braced⟩ :=
  ⟨f.text, by simp, Text.plain_nil, h⟩

section Extents

variable (hf : f.Proper) (hkind : r.kind.family? = some f.family) (hne : f.family ≠ .identifier)
include hf hkind hne

/-- A placeholder that fits without its lead gives the lead back. -/
theorem cutBy_lead (braced : List Bool) : CutBy number r f ⟨f.lead, [], braced⟩ :=
  ⟨_, by simp [Found.text], hf.plain_lead, fits_of_proper hf.withoutLead hkind hne⟩

/-- A placeholder that fits without its trail gives the trail back. -/
theorem cutBy_trail (braced : List Bool) : CutBy number r f ⟨[], f.trail, braced⟩ :=
  ⟨_, by simp [Found.text], Text.plain_nil, fits_of_proper hf.withoutTrail hkind hne⟩

/-- Of an opening only its brace or its comment may be given back. -/
theorem cutBy_openingExtent (expected : Text) (braced : List Bool) :
    CutBy number r f (openingExtent f expected braced) := by
  unfold openingExtent
  split
  · exact cutBy_lead hf hkind hne _
  · split
    · exact (fits_of_proper hf hkind hne).cutBy _
    · exact cutBy_trail hf hkind hne _

/-- Of a closing only its brace may be given back. -/
theorem cutBy_closingExtent (braced : List Bool) :
    CutBy number r f (closingExtent f braced) := by
  unfold closingExtent
  split
  · exact cutBy_lead hf hkind hne _
  · exact (fits_of_proper hf hkind hne).cutBy _
  · exact (fits_of_proper hf hkind hne).cutBy _

end Extents

/-- What is put in the place of a record is a placeholder that fits it. -/
theorem extent_spec (hf : f.Proper) (h : extent f r number braced = .ok e) :
    CutBy number r f e := by
  unfold extent at h
  split at h
  · cases h
  rename_i family hkind
  split at h
  · cases h
  rename_i hfamily
  obtain rfl : f.family = family := not_not.1 hfamily
  split at h
  · rename_i hcomment
    cases h
    exact (fits_of_proper hf hkind (by simp [hcomment])).cutBy _
  · -- the number of an identifier, if it has one, was compared
    have hfits : (∀ taken digits, ordinal? f.text = some (taken, digits) →
        Text.decimalValue digits = number) → Fits number r f.text :=
      fun hnumber => ⟨⟨f, found?_text_nil hf, hkind⟩, fun _ => hnumber⟩
    split at h
    · rename_i taken digits hordinal
      split at h
      · cases h
      rename_i hnumber
      cases h
      refine Fits.cutBy (hfits fun taken' digits' hread => ?_) _
      rw [hordinal] at hread
      cases hread
      exact not_not.1 hnumber
    · rename_i hordinal
      cases h
      refine Fits.cutBy (hfits fun taken' digits' hread => ?_) _
      rw [hordinal] at hread
      cases hread
  · rename_i hopening
    split at h
    · cases h
    cases h
    exact cutBy_openingExtent hf hkind (by simp [hopening]) _ _
  · rename_i hclosing
    cases h
    exact cutBy_closingExtent hf hkind (by simp [hclosing]) _

/-- In front of what is found nothing is found, also not where a part of it is given back. -/
theorem next?_before_eq_none {t before after back : Text} (h : next? t = some (before, f, after))
    (hback : Text.Plain back) {rest : Text} (hrest : f.text ++ after = back ++ rest) :
    next? (before ++ back) = none := by
  obtain ⟨rest', htext, hfound, hnone⟩ := Text.firstMatch?_eq_some h
  obtain ⟨-, rfl⟩ := found?_spec hfound
  refine Text.firstMatch?_eq_none fun x y hxy => ?_
  rcases List.append_eq_append_iff.1 hxy with ⟨z, rfl, hz⟩ | ⟨z, rfl, rfl⟩
  · -- the place lies in what is given back
    rw [hz] at hback
    exact found?_of_plain hback.of_append.2
  · cases z with
    | nil => exact found?_of_plain (by simpa using hback)
    | cons c z =>
        have hhere := hnone x (c :: z) rfl (List.cons_ne_nil _ _)
        rw [hrest, ← List.append_assoc] at hhere
        exact found?_of_append hhere

/-- Whatever a text says, if it can be restored it is texts in which nothing is found, with
placeholders between them that fit the records one after the other, and what is restored is the same
texts with the constructs between them. -/
theorem restoreFrom_spec {ledger : Ledger} {t out : Text}
    (h : restoreFrom count ledger number braced t = .ok out) :
    ∃ gaps pieces : List Text, gaps.length = ledger.length + 1 ∧ pieces.length = ledger.length ∧
      t = Text.weave gaps pieces ∧ out = Text.weave gaps (ledger.map (·.construct)) ∧
      (∀ gap ∈ gaps, next? gap = none) ∧
      ∀ i r piece, ledger[i]? = some r → pieces[i]? = some piece → Fits (number + i) r piece := by
  induction ledger generalizing number braced t out with
  | nil =>
      unfold restoreFrom at h
      split at h
      · rename_i hnone
        cases h
        exact ⟨[t], [], rfl, rfl, rfl, rfl, by simpa using hnone, by simp⟩
      · cases h
  | cons r ledger ih =>
      unfold restoreFrom at h
      split at h
      · cases h
      rename_i before f after hnext
      simp only [bind, Except.bind, pure, Except.pure] at h
      split at h
      · cases h
      rename_i e hextent
      split at h
      · cases h
      rename_i rest hrest
      cases h
      obtain ⟨rest', htext, hfound, -⟩ := Text.firstMatch?_eq_some hnext
      obtain ⟨hf, rfl⟩ := found?_spec hfound
      obtain ⟨piece, hpiece, hplain, hfits⟩ := extent_spec hf hextent
      obtain ⟨gaps, pieces, hgaps, hpieces, htail, rfl, hnone, hall⟩ := ih hrest
      refine ⟨(before ++ e.before) :: gaps, piece :: pieces, by simp [hgaps], by simp [hpieces], ?_,
        ?_, ?_, ?_⟩
      · rw [htext, hpiece, Text.weave, ← htail]
        simp only [List.append_assoc]
      · rw [List.map_cons, Text.weave]
      · intro gap hgap
        rcases List.mem_cons.1 hgap with rfl | hgap
        · have hsplit : f.text ++ after = e.before ++ (piece ++ e.after ++ after) := by
            rw [hpiece, List.append_assoc]
          exact next?_before_eq_none hnext hplain hsplit
        · exact hnone gap hgap
      · intro i r' piece' hr' hpiece'
        cases i with
        | zero =>
            cases hr'
            cases hpiece'
            exact hfits
        | succ i =>
            have hlater := hall i r' piece' hr' hpiece'
            rwa [Nat.add_right_comm, Nat.add_assoc] at hlater

/-- Any text that can be restored under any ledger is as many placeholders as there are records,
with texts between them in which nothing is found. Each placeholder is one of the family of its
record from its first character to its last, and if it is an identifier in which a number can be
read, that is the number of the record. What is restored is the same texts with the constructs
between them. -/
theorem weave_of_restore {t out : Text} {ledger : Ledger} (h : restore t ledger = .ok out) :
    ∃ gaps pieces : List Text, gaps.length = ledger.length + 1 ∧ pieces.length = ledger.length ∧
      t = Text.weave gaps pieces ∧ out = Text.weave gaps (ledger.map (·.construct)) ∧
      (∀ gap ∈ gaps, next? gap = none) ∧
      ∀ i r piece, ledger[i]? = some r → pieces[i]? = some piece →
        (∃ f, found? piece = some (f, []) ∧ r.kind.family? = some f.family) ∧
          (r.kind.family? = some .identifier → ∀ taken digits,
            ordinal? piece = some (taken, digits) → Text.decimalValue digits = i) := by
  obtain ⟨gaps, pieces, hgaps, hpieces, ht, hout, hnone, hall⟩ := restoreFrom_spec h
  refine ⟨gaps, pieces, hgaps, hpieces, ht, hout, hnone, fun i r piece hr hpiece => ?_⟩
  have hfits := hall i r piece hr hpiece
  rw [Nat.zero_add] at hfits
  exact ⟨hfits.family, hfits.number⟩

/-- A text that masking would not give: the brace in front of the first comment and the comment
behind the condition go back to the text, and the comment then is the third placeholder. -/
theorem weave_of_restore_of_given_back :
    let t := "\x7b /*ʃ*/if(ʃ)\x7b /*ʃ*/ʾEL_3_ʿ".toList
    let ledger : Ledger := [⟨"<a:b>".toList, .startTag⟩, ⟨"<a:bc>".toList, .startTag⟩,
      ⟨"<a:b>".toList, .startTag⟩, ⟨"$\x7be\x7d".toList, .elExpression⟩]
    let out := "\x7b <a:b><a:bc> <a:b>$\x7be\x7d".toList
    restore t ledger = .ok out ∧
      ∃ gaps pieces : List Text, gaps.length = ledger.length + 1 ∧ pieces.length = ledger.length ∧
        t = Text.weave gaps pieces ∧ out = Text.weave gaps (ledger.map (·.construct)) ∧
        (∀ gap ∈ gaps, next? gap = none) ∧
        ∀ i r piece, ledger[i]? = some r → pieces[i]? = some piece →
          (∃ f, found? piece = some (f, []) ∧ r.kind.family? = some f.family) ∧
            (r.kind.family? = some .identifier → ∀ taken digits,
              ordinal? piece = some (taken, digits) → Text.decimalValue digits = i) := by
  have hrestored : restore "\x7b /*ʃ*/if(ʃ)\x7b /*ʃ*/ʾEL_3_ʿ".toList
      [⟨"<a:b>".toList, .startTag⟩, ⟨"<a:bc>".toList, .startTag⟩, ⟨"<a:b>".toList, .startTag⟩,
        ⟨"$\x7be\x7d".toList, .elExpression⟩] =
      .ok "\x7b <a:b><a:bc> <a:b>$\x7be\x7d".toList := by
    decide +kernel
  exact ⟨hrestored, weave_of_restore hrestored⟩

end Restoration

end Stencil
