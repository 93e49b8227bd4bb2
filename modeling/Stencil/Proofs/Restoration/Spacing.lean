import Stencil.Proofs.Placeholder.Spacing
import Stencil.Proofs.Restoration.Roundtrip

/-!
# Restoring what was spaced anew

A formatter may change the white space in a placeholder, at the points where there may be some. A
placeholder that was respaced still has the form that it was built in, with other white space, so
it can stand for its record (`Placed.respaced`), and a page whose placeholders were all respaced is
restored as if nothing had been done to it.
-/

set_option autoImplicit false

namespace Stencil

open Placeholder

namespace Placeholder

/-- An opening that was respaced has the form it had. -/
theorem Opens.respaced {form : OpeningForm} {f : Found} (h : Opens form f) {t : Text}
    (ht : Respaced f.text t) : ∃ g, Stands form g ∧ g.text = t := by
  cases h with
  | condition hcore =>
      rw [Found.text_core] at ht
      exact ⟨_, .condition (hcore.respaced ht), Found.text_core ..⟩
  | trailed hcore htrail =>
      rw [Found.text_trail] at ht
      obtain ⟨n, hjoins⟩ := isCondition_iff_joins.1 hcore
      obtain ⟨core', trail', hjoins', htrail', rfl⟩ := htrail.respaced_behind (by decide) hjoins
        (fun _ => isWord_of_mem_conditionWords) ht
      have hcore' : IsCondition core' := isCondition_iff_joins.2 ⟨n, hjoins'⟩
      exact ⟨_, .trailed hcore' htrail', Found.text_trail ..⟩
  | braced hcore =>
      rw [Found.text_lead] at ht
      obtain ⟨lead, core', hlead, hcore', rfl⟩ :=
        hcore.respaced_lead (by decide) (by decide) ht
      exact ⟨_, .braced hlead hcore', Found.text_lead ..⟩
  | bare hcore =>
      rw [Found.text_core] at ht
      exact ⟨_, .bare (hcore.respaced (by decide) ht), Found.text_core ..⟩

end Placeholder

/-- The placeholder of a record stands for it when it was respaced, too. -/
theorem Placed.respaced {number : Nat} {r : Record} {braced braced' : List Bool} {f : Found}
    (h : Placed number r braced f braced') {t : Text} (ht : Respaced f.text t) :
    ∃ g, Spaced number r braced g braced' ∧ g.text = t := by
  cases h with
  | comment hkind hcore =>
      rw [Found.text_core] at ht
      have hcore' : IsComment Sentinel.comment t ∨ IsLineComment t := by
        rcases hcore with hcore | hcore
        · exact Or.inl (hcore.respaced (by decide) ht)
        · rw [(IsWord.line hcore).respaced_eq hcore.solid ht]
          exact Or.inr hcore
      exact ⟨_, .comment hkind hcore', Found.text_core ..⟩
  | identifier hkind hcore htrail hnumber =>
      rw [Found.text_trail] at ht
      rcases htrail with rfl | htrail
      · rw [List.append_nil] at ht
        obtain rfl := (IsWord.name hcore).respaced_eq hcore.solid ht
        exact ⟨_, .identifier hkind hcore (Or.inl rfl) hnumber, Found.text_core ..⟩
      · obtain ⟨core', trail', hjoins, htrail', rfl⟩ := htrail.respaced_behind (by decide)
          (.last hcore.solid) (fun _ hword => List.mem_singleton.1 hword ▸ .name hcore) ht
        obtain rfl := hjoins.eq_of_singleton
        -- the number is read from the name alone
        have hnumber' := hcore.isNumbered hnumber trail'
        exact ⟨_, .identifier hkind hcore (Or.inr htrail') hnumber', Found.text_trail ..⟩
  | opening hkind hform hbuilt =>
      obtain ⟨g, hstands, hg⟩ := hform.respaced ht
      exact ⟨g, .opening hkind hform hbuilt hstands, hg⟩
  | @closing isBraced _ core hkind hcore =>
      cases isBraced with
      | false =>
          have hrespaced : Respaced core t := by simpa [Found.text] using ht
          exact ⟨_, .closing hkind rfl (hcore.respaced (by decide) hrespaced), Found.text_core ..⟩
      | true =>
          have hrespaced : Respaced (['}'] ++ core) t := by simpa [Found.text] using ht
          obtain ⟨lead, core', hlead, hcore', rfl⟩ :=
            hcore.respaced_lead (by decide) (by decide) hrespaced
          exact ⟨_, .closing hkind hlead hcore', Found.text_lead ..⟩

/-- Placeholders with other white space are still those of the records. -/
theorem PlacedAll.respaced {number : Nat} {braced : List Bool} {rs : List Record}
    {fs : List Found} (h : PlacedAll number braced rs fs) {pieces : List Text}
    (hpieces : List.Forall₂ Respaced (fs.map (·.text)) pieces) :
    ∃ gs, SpacedAll number braced rs gs ∧ gs.map (·.text) = pieces := by
  induction h generalizing pieces with
  | nil =>
      cases hpieces
      exact ⟨[], .nil, rfl⟩
  | cons hplaced hrest ih =>
      rw [List.map_cons] at hpieces
      cases hpieces with
      | cons hpiece hpieces =>
          obtain ⟨g, hg, rfl⟩ := hplaced.respaced hpiece
          obtain ⟨gs, hgs, rfl⟩ := ih hpieces
          exact ⟨g :: gs, .cons hg hgs, rfl⟩

namespace Restoration

/-- In a masked text white space may be put into the placeholders and taken out of them, wherever
there may be some: between `if` and its parenthesis, between the parenthesis and the brace, between
a brace or the end of a name and the comment behind it, and inside the comments. The source is
restored all the same. -/
theorem restore_respaced {source : Text} {settings : Settings} {file : Option String} {m : Masked}
    (h : Masked.ofSource source settings file = .ok m) :
    m.text = Text.weave m.gaps m.placeholders ∧
    m.placeholders.length = m.ledger.length ∧ m.gaps.length = m.ledger.length + 1 ∧
    ∀ pieces : List Text, List.Forall₂ Respaced m.placeholders pieces →
      restore (Text.weave m.gaps pieces) m.ledger = .ok source := by
  obtain ⟨tokens, hmasks, hsource, hplaceholders, hgaps⟩ := Masked.weaves_of_ofSource h
  refine ⟨m.text_eq_weave, hplaceholders, hgaps, ?_⟩
  intro pieces hpieces
  obtain ⟨fs, hplaced, htexts⟩ := hmasks.placedAll
  rw [Masked.placeholders, ← htexts] at hpieces
  obtain ⟨gs, hspaced, rfl⟩ := hplaced.respaced hpieces
  have hlength : m.gaps.length = gs.length + 1 := by
    rw [hgaps, hspaced.length_eq, Masked.ledger]
  have hrestored := restore_of_spacedAll hspaced hlength hmasks.plain_gaps
  rw [← Masked.ledger] at hrestored
  rw [hrestored, ← Masked.originals, ← hsource]

/-- Each kind of spacing point once: an expression over two lines in the body of a tag. -/
theorem restore_respaced_of_body :
    let source := "<aaa:bbb>$\x7be +\nf\x7d</aaa:bbb>".toList
    let m : Masked := ⟨[.construct "if (ʃʃ) \x7b".toList ⟨"<aaa:bbb>".toList, .startTag⟩,
      .construct "ʾʿ/*ʿ\n*/".toList ⟨"$\x7be +\nf\x7d".toList, .elExpression⟩,
      .construct "\x7d/*ʅʅʅʅʅ*/".toList ⟨"</aaa:bbb>".toList, .endTag⟩]⟩
    let pieces := ["if(ʃʃ)\n\x7b".toList, "ʾʿ\n/*ʿ*/".toList, "\x7d /*ʅʅʅʅʅ*/".toList]
    Masked.ofSource source {} none = .ok m ∧ List.Forall₂ Respaced m.placeholders pieces ∧
      restore (Text.weave m.gaps pieces) m.ledger = .ok source := by
  have hmasked : Masked.ofSource "<aaa:bbb>$\x7be +\nf\x7d</aaa:bbb>".toList {} none =
      .ok ⟨[.construct "if (ʃʃ) \x7b".toList ⟨"<aaa:bbb>".toList, .startTag⟩,
        .construct "ʾʿ/*ʿ\n*/".toList ⟨"$\x7be +\nf\x7d".toList, .elExpression⟩,
        .construct "\x7d/*ʅʅʅʅʅ*/".toList ⟨"</aaa:bbb>".toList, .endTag⟩]⟩ := by
    decide +kernel
  have hnone : Text.Blanks [] := Text.blanks_nil
  have hspace : Text.Blanks [' '] := Text.blanks_of_all (by decide)
  have hbreak : Text.Blanks ['\n'] := Text.blanks_of_all (by decide)
  have hcondition : Respaced "if (ʃʃ) \x7b".toList "if(ʃʃ)\n\x7b".toList := by
    have hif : Respacing "if (ʃʃ) \x7b".toList "if(ʃʃ) \x7b".toList :=
      @Respacing.change "if".toList [' '] [] "(ʃʃ) \x7b".toList
        (.condition ⟨[], rfl⟩ ⟨_, rfl⟩) hspace hnone
    have hbrace : Respacing "if(ʃʃ) \x7b".toList "if(ʃʃ)\n\x7b".toList :=
      @Respacing.change "if(ʃʃ)".toList [' '] ['\n'] ['{']
        (.block ⟨"if(ʃʃ".toList, rfl⟩ ⟨[], rfl⟩) hspace hbreak
    exact (Relation.ReflTransGen.single hif).tail hbrace
  have hname : Respaced "ʾʿ/*ʿ\n*/".toList "ʾʿ\n/*ʿ*/".toList := by
    have hfront : Respacing "ʾʿ/*ʿ\n*/".toList "ʾʿ\n/*ʿ\n*/".toList :=
      @Respacing.change "ʾʿ".toList [] ['\n'] "/*ʿ\n*/".toList
        (.comment (Or.inr (Or.inr rfl)) ⟨['ʾ'], rfl⟩ ⟨_, rfl⟩) hnone hbreak
    have hfiller : SpacingPoint "ʾʿ\n/*ʿ".toList "*/".toList :=
      @SpacingPoint.filler "ʾʿ\n".toList ['ʿ'] [] [] .identifier
        (fun c hc => Or.inl (List.mem_singleton.1 hc)) fun c hc => absurd hc List.not_mem_nil
    have hinside : Respacing "ʾʿ\n/*ʿ\n*/".toList "ʾʿ\n/*ʿ*/".toList :=
      @Respacing.change "ʾʿ\n/*ʿ".toList ['\n'] [] "*/".toList hfiller hbreak hnone
    exact (Relation.ReflTransGen.single hfront).tail hinside
  have hclosing : Respaced "\x7d/*ʅʅʅʅʅ*/".toList "\x7d /*ʅʅʅʅʅ*/".toList := by
    have hfront : Respacing "\x7d/*ʅʅʅʅʅ*/".toList "\x7d /*ʅʅʅʅʅ*/".toList :=
      @Respacing.change ['}'] [] [' '] "/*ʅʅʅʅʅ*/".toList
        (.comment (Or.inr (Or.inl rfl)) ⟨[], rfl⟩ ⟨_, rfl⟩) hnone hspace
    exact Relation.ReflTransGen.single hfront
  have hpieces := List.Forall₂.cons hcondition (.cons hname (.cons hclosing .nil))
  obtain ⟨-, -, -, hrestore⟩ := restore_respaced hmasked
  exact ⟨hmasked, hpieces, hrestore _ hpieces⟩

end Restoration

end Stencil
