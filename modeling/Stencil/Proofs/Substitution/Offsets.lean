import Stencil.Proofs.Substitution.Placing
import Stencil.Proofs.Token.Coverage

/-!
# Masking keeps offsets

A masked text has the length of its source, and every token stands in it where it stands in the
source: template text as it was, and each construct as its placeholder, which depends on the number
of constructs before it and on which of the open custom tags opened a block. The records are the
constructs in order.
-/

set_option autoImplicit false

namespace Stencil

namespace Token

/-- Which of the open custom tags opened a block, the innermost first, behind one more token. -/
def trackBlock (braced : List Bool) (t : Token) : List Bool :=
  match t.kind with
  | .startTag =>
    ((Placeholder.opening (Layout.of t.value)).elim false Placeholder.opensBlock) :: braced
  | .endTag => braced.tail
  | _ => braced

/-- Which of the open custom tags behind a row of tokens opened a block, the innermost first. -/
def openBlocks (ts : List Token) : List Bool := ts.foldl trackBlock []

/-- The constructs among tokens. -/
def constructs (ts : List Token) : List Token := ts.filter fun t => t.kind != .templateText

end Token

/-- Template text alone has no family of placeholders. -/
theorem Kind.family?_eq_none_iff {k : Kind} : k.family? = none ↔ k = .templateText := by
  cases k <;> simp [Kind.family?]

/-- What has a family is no template text. -/
theorem Kind.ne_templateText {k : Kind} {family : Family} (h : k.family? = some family) :
    k ≠ .templateText := by
  intro hnone
  rw [Kind.family?_eq_none_iff.2 hnone] at h
  cases h

namespace Token

/-- The constructs of tokens are counted token by token. -/
theorem length_constructs_cons (t : Token) (ts : List Token) :
    (constructs (t :: ts)).length = (constructs [t]).length + (constructs ts).length := by
  rw [← List.length_append, constructs, constructs, constructs, ← List.filter_append]
  rfl

/-- Template text is no construct. -/
theorem constructs_of_template {t : Token} (h : t.kind = .templateText) : constructs [t] = [] := by
  simp [constructs, h]

/-- A construct is its only construct. -/
theorem constructs_of_construct {t : Token} (h : t.kind ≠ .templateText) :
    constructs [t] = [t] := by
  simp [constructs, h]

/-- Template text opens and closes no block. -/
theorem trackBlock_of_template {t : Token} (h : t.kind = .templateText) (braced : List Bool) :
    trackBlock braced t = braced := by
  simp [trackBlock, h]

end Token

namespace Masked

/-- A placeholder opens or closes a block as its token says. -/
theorem braced_of_placed {t : Token} {number : Nat} {braced braced' : List Bool} {f : Found}
    (h : Placed number ⟨t.value, t.kind⟩ braced f braced') :
    braced' = Token.trackBlock braced t := by
  obtain ⟨kind, value, offset⟩ := t
  cases h with
  | comment hkind => cases kind <;> first | rfl | cases hkind
  | identifier hkind => cases kind <;> first | rfl | cases hkind
  | opening hkind hform hbuilt =>
      dsimp only at hbuilt
      cases kind with
      | startTag => simp [Token.trackBlock, hbuilt]
      | _ => cases hkind
  | closing hkind => cases kind <;> first | rfl | cases hkind

/-- What stands in a masked text in the place of a token. -/
def Stands (source : Text) (settings : Settings) (before : List Token) (t : Token)
    (shown : Text) : Prop :=
  (t.kind = .templateText → shown = t.value) ∧
    ∀ family, t.kind.family? = some family →
      shown.length = t.value.length ∧
        ∃ braced, placeholder source settings t family (Token.constructs before).length
          (Token.openBlocks before) = .ok (shown, braced)

section Masks

variable {source : Text} {settings : Settings} {ts : List Token} {number : Nat}
  {braced : List Bool} {segments : List Segment}

/-- What is shown is as long as the tokens. -/
theorem Masks.length_shown (h : Masks source settings ts number braced segments) :
    (segments.flatMap Segment.shown).length = Token.totalLength ts := by
  induction h with
  | nil => rfl
  | template hkind hplain hrest ih =>
      simp only [List.flatMap_cons, List.length_append, ih, Segment.shown, Token.totalLength,
        List.map_cons, List.sum_cons]
  | construct hkind hplaced hrest ih =>
      obtain ⟨hlen, -⟩ := placeholder_spec hkind hplaced
      simp only [List.flatMap_cons, List.length_append, ih, Segment.shown, hlen,
        Token.totalLength, List.map_cons, List.sum_cons]

/-- The records are the constructs in order. -/
theorem Masks.records (h : Masks source settings ts number braced segments) :
    segments.filterMap Segment.record? =
      (Token.constructs ts).map fun t => ⟨t.value, t.kind⟩ := by
  induction h with
  | nil => rfl
  | template hkind hplain hrest ih =>
      rw [Kind.family?_eq_none_iff] at hkind
      rw [List.filterMap_cons_none rfl, ih]
      simp [Token.constructs, hkind]
  | @construct t ts number braced braced' segments family p hkind hplaced hrest ih =>
      have hrecord : Segment.record? (.construct p ⟨t.value, t.kind⟩) =
          some ⟨t.value, t.kind⟩ := rfl
      rw [List.filterMap_cons_some hrecord, ih]
      simp [Token.constructs, Kind.ne_templateText hkind]

/-- What a token is shown as, where the constructs before it have a number and leave blocks open. -/
structure ShownAs (source : Text) (settings : Settings) (number : Nat) (braced : List Bool)
    (t : Token) (shown : Text) : Prop where
  length_eq : shown.length = t.value.length
  template : t.kind = .templateText → shown = t.value
  construct : ∀ family, t.kind.family? = some family →
    ∃ braced', placeholder source settings t family number braced = .ok (shown, braced')

/-- The first segment is what the first token is shown as. -/
theorem Masks.of_cons {t : Token}
    (h : Masks source settings (t :: ts) number braced segments) :
    ∃ shown segments', segments.flatMap Segment.shown = shown ++ segments'.flatMap Segment.shown ∧
      ShownAs source settings number braced t shown ∧
      Masks source settings ts (number + (Token.constructs [t]).length)
        (Token.trackBlock braced t) segments' := by
  cases h with
  | template hkind hplain hrest =>
      have htemplate := Kind.family?_eq_none_iff.1 hkind
      refine ⟨t.value, _, rfl, ⟨rfl, fun _ => rfl, fun family hfamily => ?_⟩, ?_⟩
      · exact absurd htemplate (Kind.ne_templateText hfamily)
      · rw [Token.constructs_of_template htemplate, Token.trackBlock_of_template htemplate]
        exact hrest
  | @construct _ _ _ _ braced' _ family p hkind hplaced hrest =>
      have hne := Kind.ne_templateText hkind
      obtain ⟨hlen, f, -, hf⟩ := placeholder_spec hkind hplaced
      refine ⟨p, _, rfl, ⟨hlen, fun htemplate => absurd htemplate hne, ?_⟩, ?_⟩
      · intro family' hfamily
        rw [hkind, Option.some.injEq] at hfamily
        rw [← hfamily]
        exact ⟨braced', hplaced⟩
      · rw [Token.constructs_of_construct hne, ← braced_of_placed hf]
        exact hrest

/-- The segment of a token stands behind the segments of the tokens before it. -/
theorem Masks.stands {before after : List Token} {t : Token}
    (h : Masks source settings (before ++ t :: after) number braced segments) :
    ∃ front shown back, segments.flatMap Segment.shown = front ++ shown ++ back ∧
      front.length = Token.totalLength before ∧
      ShownAs source settings (number + (Token.constructs before).length)
        (before.foldl Token.trackBlock braced) t shown := by
  induction before generalizing number braced segments with
  | nil =>
      obtain ⟨shown, segments', htext, hshown, -⟩ := h.of_cons
      exact ⟨[], shown, _, htext, rfl, hshown⟩
  | cons b before ih =>
      obtain ⟨shown', segments', htext', hshown', hrest⟩ := Masks.of_cons h
      obtain ⟨front, shown, back, htext, hfront, hshown⟩ := ih hrest
      refine ⟨shown' ++ front, shown, back, ?_, ?_, ?_⟩
      · rw [htext', htext, List.append_assoc, List.append_assoc, List.append_assoc]
      · rw [List.length_append, hshown'.length_eq, hfront, Token.totalLength, Token.totalLength,
          List.map_cons, List.sum_cons]
      · rw [Token.length_constructs_cons, ← Nat.add_assoc]
        exact hshown

end Masks

/-- A masked text has the length of its source. At the offset of each token stands template text as
it was, or the placeholder of a construct, which has the length of the construct. The records are
the constructs of the source in order. -/
theorem text_keeps_offsets {source : Text} {settings : Settings} {file : Option String}
    {m : Masked} (h : ofSource source settings file = .ok m) :
    ∃ tokens, (TokenStream.ofSource source settings file none).complete = .ok tokens ∧
      m.text.length = source.length ∧
      (∀ before t after, tokens = before ++ t :: after →
        Stands source settings before t ((m.text.drop t.offset).take t.value.length)) ∧
      m.ledger = (Token.constructs tokens).map fun t => ⟨t.value, t.kind⟩ := by
  obtain ⟨tokens, hcomplete, hmasks⟩ := masks_of_ofSource h
  obtain ⟨htiles, hlength⟩ := TokenStream.tiles_of_complete hcomplete
  refine ⟨tokens, hcomplete, ?_, ?_, hmasks.records⟩
  · rw [text, hmasks.length_shown, hlength]
  · intro before t after hsplit
    rw [hsplit] at htiles hmasks
    obtain ⟨-, hoffset, -⟩ := htiles.of_append
    obtain ⟨front, shown, back, htext, hfront, hlen, htemplate, hconstruct⟩ := hmasks.stands
    rw [Nat.zero_add] at hconstruct
    have hshown : (m.text.drop t.offset).take t.value.length = shown := by
      rw [text, htext, hoffset, Nat.zero_add, ← hfront, List.append_assoc, List.drop_left, ← hlen,
        List.take_left]
    rw [hshown]
    exact ⟨htemplate, fun family hfamily => ⟨hlen, hconstruct family hfamily⟩⟩

/-- A tag with an expression in it, masked. -/
theorem text_keeps_offsets_of_action :
    let source := "<a:bc>y$\x7be\x7d</a:bc>".toList
    let m : Masked := ⟨[.construct "if(ʃ)\x7b".toList ⟨"<a:bc>".toList, .startTag⟩,
      .template ['y'], .construct "ʾ1_ʿ".toList ⟨"$\x7be\x7d".toList, .elExpression⟩,
      .construct "\x7d/*ʅʅ*/".toList ⟨"</a:bc>".toList, .endTag⟩]⟩
    ofSource source {} none = .ok m ∧
      ∃ tokens, (TokenStream.ofSource source {} none none).complete = .ok tokens ∧
        m.text.length = source.length ∧
        (∀ before t after, tokens = before ++ t :: after →
          Stands source {} before t ((m.text.drop t.offset).take t.value.length)) ∧
        m.ledger = (Token.constructs tokens).map fun t => ⟨t.value, t.kind⟩ := by
  have hmasked : ofSource "<a:bc>y$\x7be\x7d</a:bc>".toList {} none =
      .ok ⟨[.construct "if(ʃ)\x7b".toList ⟨"<a:bc>".toList, .startTag⟩,
        .template ['y'], .construct "ʾ1_ʿ".toList ⟨"$\x7be\x7d".toList, .elExpression⟩,
        .construct "\x7d/*ʅʅ*/".toList ⟨"</a:bc>".toList, .endTag⟩]⟩ := by
    decide +kernel
  exact ⟨hmasked, text_keeps_offsets hmasked⟩

end Masked

end Stencil
