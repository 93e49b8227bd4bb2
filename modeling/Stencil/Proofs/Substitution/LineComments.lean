import Stencil.Proofs.Placeholder.Lines
import Stencil.Proofs.Restoration.Roundtrip
import Stencil.Proofs.Token.Delimiting

/-!
# Line comments end their lines

Whether a construct becomes a line comment is decided on the source, but it is the masked text that
must not have anything behind a line comment. Between the two stands only that constructs are not
blank: what follows a construct on its line without being a sign is template text, up to the line
break or the end of the source, and masking leaves template text as it is
(`Masked.Masks.endsLine_shown`).
-/

set_option autoImplicit false

namespace Stencil

namespace Text

/-- Nothing but blanks and tabs stands on the first line of a text. -/
def FirstLineBlank (t : Text) : Prop :=
  ∃ gap rest, t = gap ++ rest ∧ (∀ c ∈ gap, c = ' ' ∨ c = '\t') ∧
    ∀ c, rest.head? = some c → c = '\r' ∨ c = '\n'

/-- Blanks and tabs indent. -/
theorem isIndent_iff {c : Char} : isIndent c = true ↔ c = ' ' ∨ c = '\t' := by
  simp [isIndent]

/-- The end of the source ends a line. -/
@[simp]
theorem endsLine_nil : endsLine [] = true := rfl

/-- A line ends behind indentation with a line break. -/
theorem endsLine_cons (c : Char) (t : Text) :
    endsLine (c :: t) = if isIndent c then endsLine t else c == '\r' || c == '\n' := by
  unfold endsLine
  rw [List.dropWhile_cons]
  cases isIndent c <;> rfl

/-- A line ends where nothing but blanks and tabs stands up to the line break. -/
theorem endsLine_iff {t : Text} : endsLine t = true ↔ FirstLineBlank t := by
  constructor
  · intro h
    refine ⟨t.takeWhile isIndent, t.dropWhile isIndent, List.takeWhile_append_dropWhile.symm,
      fun c hc => isIndent_iff.1 (List.mem_takeWhile_imp hc), fun c hc => ?_⟩
    obtain ⟨rest, hrest⟩ := List.head?_eq_some_iff.1 hc
    unfold endsLine at h
    simpa [hrest] using h
  · rintro ⟨gap, rest, rfl, hgap, hrest⟩
    induction gap with
    | nil =>
        cases rest with
        | nil => rfl
        | cons c rest =>
            have hbreak : c = '\r' ∨ c = '\n' := hrest c rfl
            rw [List.nil_append, endsLine_cons]
            rcases hbreak with rfl | rfl <;> rfl
    | cons c gap ih =>
        obtain ⟨hc, hgap⟩ := List.forall_mem_cons.1 hgap
        rw [List.cons_append, endsLine_cons, if_pos (isIndent_iff.2 hc)]
        exact ih hgap

/-- Blanks and tabs do not decide what follows them. -/
theorem endsLine_append_of_indent {s : Text} (hs : ∀ c ∈ s, isIndent c = true) (t : Text) :
    endsLine (s ++ t) = endsLine t := by
  induction s with
  | nil => rfl
  | cons c s ih =>
      obtain ⟨hc, hs⟩ := List.forall_mem_cons.1 hs
      rw [List.cons_append, endsLine_cons, if_pos hc, ih hs]

/-- A text with any other character decides alone. -/
theorem endsLine_append_of_sign {s : Text} (hs : ∃ c ∈ s, isIndent c = false) (t : Text) :
    endsLine (s ++ t) = endsLine s := by
  induction s with
  | nil =>
      obtain ⟨c, hc, -⟩ := hs
      cases hc
  | cons c s ih =>
      rw [List.cons_append, endsLine_cons, endsLine_cons]
      split
      · rename_i hc
        refine ih ?_
        obtain ⟨d, hd, hsign⟩ := hs
        rcases List.mem_cons.1 hd with rfl | hd
        · rw [hc] at hsign
          cases hsign
        · exact ⟨d, hd, hsign⟩
      · rfl

/-- A text whose first line is blank holds a line break, unless it is blank altogether. -/
theorem exists_break_of_endsLine {t : Text} (ht : ∃ c ∈ t, isIndent c = false)
    (h : endsLine t = true) : ∃ c ∈ t, c = '\r' ∨ c = '\n' := by
  obtain ⟨gap, rest, rfl, hgap, hrest⟩ := endsLine_iff.1 h
  cases rest with
  | nil =>
      obtain ⟨c, hc, hsign⟩ := ht
      rw [List.append_nil] at hc
      rw [isIndent_iff.2 (hgap c hc)] at hsign
      cases hsign
  | cons c rest =>
      exact ⟨c, List.mem_append_right _ (List.mem_cons_self ..), hrest c rfl⟩

/-- A text is indentation alone or has another character. -/
theorem indent_or_sign (t : Text) :
    (∀ c ∈ t, isIndent c = true) ∨ ∃ c ∈ t, isIndent c = false := by
  by_cases h : ∀ c ∈ t, isIndent c = true
  · exact .inl h
  · push Not at h
    obtain ⟨c, hc, hsign⟩ := h
    exact .inr ⟨c, hc, Bool.eq_false_iff.2 hsign⟩

/-- A construct does not end a line that it starts on. -/
theorem Delimited.endsLine_append {t : Text} (h : t.Delimited) (rest : Text) :
    endsLine (t ++ rest) = false := by
  obtain ⟨c, behind, rfl, hc⟩ := h.first
  have hmark : c = '<' ∨ c = '$' ∨ c = '#' := by
    simpa [opensConstruct, Jsp.isElMark] using hc
  rw [List.cons_append, endsLine_cons]
  rcases hmark with rfl | rfl | rfl <;> rfl

end Text

/-- A text is a single line if it has no line break. -/
theorem Layout.isSingleLine_iff {t : Text} :
    (Layout.of t).isSingleLine = true ↔ ∀ c ∈ t, c ≠ '\r' ∧ c ≠ '\n' := by
  have hlines : (Text.lines t).2 = [] ↔ ∀ c ∈ t, c ≠ '\r' ∧ c ≠ '\n' := by
    fun_induction Text.lines t with
    | case1 => simp
    | case2 t line later heq ih => simp
    | case3 t hnot line later heq ih => simp
    | case4 t line later heq ih => simp
    | case5 c t h₁ h₂ h₃ line later heq ih =>
        have hreturn : c ≠ '\r' := h₂
        have hfeed : c ≠ '\n' := h₃
        rw [heq] at ih
        rw [List.forall_mem_cons, ← ih]
        exact ⟨fun h => ⟨⟨hreturn, hfeed⟩, h⟩, fun h => h.2⟩
  rw [Layout.isSingleLine, List.isEmpty_iff, Layout.of, List.map_eq_nil_iff, hlines]

namespace Placeholder

/-- A comment starts as a line comment if that was asked for and its construct has one line. -/
theorem startsLine_comment_iff {t p : Text} {asLineComment : Bool}
    (h : comment (Layout.of t) asLineComment = some p) :
    "//".toList <+: p ↔ asLineComment = true ∧ (Layout.of t).isSingleLine = true := by
  unfold comment at h
  split at h
  · rename_i hline
    rw [Bool.and_eq_true] at hline
    rcases firstFit_cons h with h | h
    · obtain ⟨-, n, -, rfl⟩ :=
        fill_singleLine Sentinel.comment rfl (by decide) (by simp) hline.2 h
      rw [List.append_assoc]
      exact ⟨fun _ => hline, fun _ => List.prefix_append _ _⟩
    · exact absurd h firstFit_nil
  · rename_i hline
    rw [Bool.and_eq_true] at hline
    rcases firstFit_cons h with h | h
    · obtain ⟨-, core, ⟨body, -, rfl⟩, rfl⟩ := fill_commentBehind [] (by decide) h
      refine ⟨?_, fun hboth => absurd hboth hline⟩
      rintro ⟨rest, hrest⟩
      cases hrest
    · exact absurd h firstFit_nil

end Placeholder

open Placeholder

namespace Placed

/-- Of all placeholders only those of the comment family start as a line comment. -/
theorem not_startsLine {number : Nat} {r : Record} {braced braced' : List Bool} {f : Found}
    (h : Placed number r braced f braced') (hkind : r.kind.family? ≠ some .comment) :
    ¬ "//".toList <+: f.text := by
  rintro ⟨rest, hrest⟩
  cases h with
  | comment hcomment => exact hkind hcomment
  | identifier _ hcore =>
      obtain ⟨body, -, rfl⟩ := hcore
      rw [Found.text_trail] at hrest
      cases hrest
  | opening _ hform =>
      cases hform with
      | condition hcore =>
          obtain ⟨space, n, space', -, -, rfl⟩ := hcore
          rw [Found.text_core] at hrest
          cases hrest
      | trailed hcore =>
          obtain ⟨space, n, space', -, -, rfl⟩ := hcore
          rw [Found.text_trail] at hrest
          cases hrest
      | braced hcore =>
          rw [Found.text_lead] at hrest
          cases hrest
      | bare hcore =>
          obtain ⟨body, -, rfl⟩ := hcore
          rw [Found.text_core] at hrest
          cases hrest
  | @closing isBraced _ core _ hcore =>
      obtain ⟨body, -, rfl⟩ := hcore
      rw [Found.text_lead] at hrest
      cases isBraced <;> cases hrest

end Placed

/-- Comments, directives, declarations and scriptlets may become line comments. -/
theorem Kind.mayEndLine_iff {k : Kind} :
    k.mayEndLine = true ↔ k ∈ [.comment, .directive, .declaration, .scriptlet] := by
  cases k <;> decide

namespace Masked

section Masks

variable {source : Text} {settings : Settings} {ts : List Token} {number : Nat}
  {braced : List Bool} {segments : List Segment}

/-- Behind a construct goes on what was begun in front of it. -/
theorem Masks.of_append_construct {before after : List Segment} {p : Text} {r : Record}
    (h : Masks source settings ts number braced (before ++ .construct p r :: after)) :
    ∃ front t back family number braced braced', ts = front ++ t :: back ∧
      before.flatMap Segment.unmasked = front.flatMap (·.value) ∧ r = ⟨t.value, t.kind⟩ ∧
      t.kind.family? = some family ∧
      placeholder source settings t family number braced = .ok (p, braced') ∧
      Masks source settings back (number + 1) braced' after := by
  induction before generalizing ts number braced with
  | nil =>
      cases h with
      | construct hkind hplaced hrest =>
          exact ⟨[], _, _, _, _, _, _, rfl, rfl, rfl, hkind, hplaced, hrest⟩
  | cons s before ih =>
      cases h with
      | @template t ts _ _ _ hkind hplain hrest =>
          obtain ⟨front, t', back, family, n, b, b', rfl, hfront, hbehind⟩ := ih hrest
          refine ⟨t :: front, t', back, family, n, b, b', rfl, ?_, hbehind⟩
          rw [List.flatMap_cons, List.flatMap_cons, hfront, Segment.unmasked]
      | @construct t ts _ _ _ _ _ _ hkind hplaced hrest =>
          obtain ⟨front, t', back, family, n, b, b', rfl, hfront, hbehind⟩ := ih hrest
          refine ⟨t :: front, t', back, family, n, b, b', rfl, ?_, hbehind⟩
          rw [List.flatMap_cons, List.flatMap_cons, hfront, Segment.unmasked]

/-- A first line that is blank in the source is blank in the masked text. -/
theorem Masks.endsLine_shown (h : Masks source settings ts number braced segments)
    (hdelimited : ∀ t ∈ ts, t.kind ≠ .templateText → t.value.Delimited)
    (hends : Text.endsLine (segments.flatMap Segment.unmasked) = true) :
    Text.endsLine (segments.flatMap Segment.shown) = true := by
  induction h with
  | nil => rfl
  | @template t ts number braced segments hkind hplain hrest ih =>
      obtain ⟨-, hdelimited⟩ := List.forall_mem_cons.1 hdelimited
      rw [List.flatMap_cons, Segment.unmasked] at hends
      rw [List.flatMap_cons, Segment.shown]
      rcases Text.indent_or_sign t.value with hindent | hsign
      · rw [Text.endsLine_append_of_indent hindent] at hends ⊢
        exact ih hdelimited hends
      · rw [Text.endsLine_append_of_sign hsign] at hends ⊢
        exact hends
  | construct hkind hplaced hrest ih =>
      obtain ⟨hconstruct, -⟩ := List.forall_mem_cons.1 hdelimited
      have hnot := (hconstruct (Kind.ne_templateText hkind)).endsLine_append
      rw [List.flatMap_cons, Segment.unmasked, hnot] at hends
      cases hends

/-- On a first line that is blank in the source stands no placeholder. -/
theorem Masks.exists_break (h : Masks source settings ts number braced segments)
    (hdelimited : ∀ t ∈ ts, t.kind ≠ .templateText → t.value.Delimited)
    (hends : Text.endsLine (segments.flatMap Segment.unmasked) = true)
    {between after : List Segment} {p : Text} {r : Record}
    (hsplit : segments = between ++ .construct p r :: after) :
    ∃ c ∈ between.flatMap Segment.shown, c = '\r' ∨ c = '\n' := by
  induction h generalizing between with
  | nil => exact absurd hsplit (by simp)
  | @template t ts number braced segments hkind hplain hrest ih =>
      obtain ⟨-, hdelimited⟩ := List.forall_mem_cons.1 hdelimited
      rw [List.flatMap_cons, Segment.unmasked] at hends
      cases between with
      | nil => cases hsplit
      | cons s between =>
          rw [List.cons_append, List.cons.injEq] at hsplit
          obtain ⟨rfl, hsplit⟩ := hsplit
          rw [List.flatMap_cons, Segment.shown]
          rcases Text.indent_or_sign t.value with hindent | hsign
          · rw [Text.endsLine_append_of_indent hindent] at hends
            obtain ⟨c, hc, hbreak⟩ := ih hdelimited hends hsplit
            exact ⟨c, List.mem_append_right _ hc, hbreak⟩
          · rw [Text.endsLine_append_of_sign hsign] at hends
            obtain ⟨c, hc, hbreak⟩ := Text.exists_break_of_endsLine hsign hends
            exact ⟨c, List.mem_append_left _ hc, hbreak⟩
  | construct hkind hplaced hrest ih =>
      obtain ⟨hconstruct, -⟩ := List.forall_mem_cons.1 hdelimited
      have hnot := (hconstruct (Kind.ne_templateText hkind)).endsLine_append
      rw [List.flatMap_cons, Segment.unmasked, hnot] at hends
      cases hends

end Masks

/-- A placeholder starts as a line comment if it was so decided for its token. -/
theorem startsLine_iff {source : Text} {settings : Settings} {t : Token} {family : Family}
    {number : Nat} {braced braced' : List Bool} {p : Text} (hkind : t.kind.family? = some family)
    (h : placeholder source settings t family number braced = .ok (p, braced')) :
    "//".toList <+: p ↔
      endsLine source settings t = true ∧ (Layout.of t.value).isSingleLine = true := by
  by_cases hcomment : family = .comment
  · subst hcomment
    cases built_of_placeholder h with
    | comment hbuilt => exact startsLine_comment_iff hbuilt
  · obtain ⟨-, f, rfl, hput⟩ := placeholder_spec hkind h
    have hother : t.kind.family? ≠ some .comment := by
      rw [hkind]
      exact fun heq => hcomment (Option.some.inj heq)
    have hnot : endsLine source settings t = false := by
      have hmay : t.kind.mayEndLine = false := by
        cases hk : t.kind <;> simp [hk, Kind.family?, Kind.mayEndLine] at hother ⊢
      rw [endsLine, hmay, Bool.and_false, Bool.false_and]
    rw [hnot]
    exact ⟨fun hstarts => absurd hstarts (hput.not_startsLine hother),
      fun h => absurd h.1 Bool.false_ne_true⟩

/-- A placeholder starts as a line comment if and only if the settings allow it, its construct is a
comment, a directive, a declaration or a scriptlet on one line, and nothing but blanks and tabs
follows the construct on its line. In the masked text nothing but blanks and tabs follows such a
placeholder on its line: a line break stands in front of every later placeholder. -/
theorem lineComments_end_lines {source : Text} {settings : Settings} {file : Option String}
    {m : Masked} (h : ofSource source settings file = .ok m) {before after : List Segment}
    {p : Text} {r : Record} (hsplit : m.segments = before ++ .construct p r :: after) :
    source = before.flatMap Segment.unmasked ++ r.construct ++ after.flatMap Segment.unmasked ∧
    m.text = before.flatMap Segment.shown ++ p ++ after.flatMap Segment.shown ∧
    ("//".toList <+: p ↔
      settings.lineComments = true ∧
      r.kind ∈ [.comment, .directive, .declaration, .scriptlet] ∧
      (∀ c ∈ r.construct, c ≠ '\r' ∧ c ≠ '\n') ∧
      Text.FirstLineBlank (after.flatMap Segment.unmasked)) ∧
    ("//".toList <+: p →
      Text.FirstLineBlank (after.flatMap Segment.shown) ∧
      ∀ between p' r' after', after = between ++ .construct p' r' :: after' →
        ∃ c ∈ between.flatMap Segment.shown, c = '\r' ∨ c = '\n') := by
  obtain ⟨tokens, hcomplete, hmasks⟩ := masks_of_ofSource h
  have hsource := TokenStream.flatMap_value_of_complete hcomplete
  have htext : m.text = before.flatMap Segment.shown ++ p ++ after.flatMap Segment.shown := by
    rw [text, hsplit, List.flatMap_append, List.flatMap_cons, Segment.shown, List.append_assoc]
  rw [hsplit] at hmasks
  obtain ⟨front, t, back, family, number, braced, braced', rfl, hfront, rfl, hkind, hplaced,
    hrest⟩ := hmasks.of_append_construct
  have hdelimited : ∀ t ∈ back, t.kind ≠ .templateText → t.value.Delimited := fun t ht =>
    TokenStream.delimited_of_complete hcomplete t
      (List.mem_append_right _ (List.mem_cons_of_mem _ ht))
  have hsource' : source =
      before.flatMap Segment.unmasked ++ t.value ++ after.flatMap Segment.unmasked := by
    rw [← hsource, hfront, hrest.unmasked, List.flatMap_append, List.flatMap_cons,
      List.append_assoc]
  have hdrop : source.drop t.stop = after.flatMap Segment.unmasked := by
    obtain ⟨htiles, -⟩ := TokenStream.tiles_of_complete hcomplete
    obtain ⟨-, hoffset, -⟩ := htiles.of_append
    have hstop : t.stop = (before.flatMap Segment.unmasked ++ t.value).length := by
      rw [Token.stop, hoffset, hfront, List.length_append, Nat.zero_add, List.length_flatMap]
      rfl
    rw [hstop, hsource', List.drop_left]
  have hstarts : "//".toList <+: p ↔
      settings.lineComments = true ∧ t.kind ∈ [.comment, .directive, .declaration, .scriptlet] ∧
      (∀ c ∈ t.value, c ≠ '\r' ∧ c ≠ '\n') ∧
      Text.endsLine (after.flatMap Segment.unmasked) = true := by
    rw [startsLine_iff hkind hplaced, Layout.isSingleLine_iff, endsLine, hdrop, Bool.and_eq_true,
      Bool.and_eq_true, Kind.mayEndLine_iff]
    tauto
  refine ⟨hsource', htext, by rw [hstarts, Text.endsLine_iff], fun hline => ?_⟩
  obtain ⟨-, -, -, hends⟩ := hstarts.1 hline
  exact ⟨Text.endsLine_iff.1 (hrest.endsLine_shown hdelimited hends),
    fun between p' r' after' hlater => hrest.exists_break hdelimited hends hlater⟩

/-- A comment in front of a blank, a tab and a line break, and a scriptlet with a word behind it. -/
theorem lineComments_end_lines_of_comment :
    let source := "a<%-- y --%> \t\r\n<% z %> w".toList
    let p := "//╳╳╳╳╳╳╳╳╳".toList
    let record : Record := ⟨"<%-- y --%>".toList, .comment⟩
    let after : List Segment := [.template " \t\r\n".toList,
      .construct "/*╳╳╳*/".toList ⟨"<% z %>".toList, .scriptlet⟩, .template " w".toList]
    let m : Masked := ⟨.template ['a'] :: .construct p record :: after⟩
    ofSource source {} none = .ok m ∧ "//".toList <+: p ∧
      Text.FirstLineBlank (after.flatMap Segment.unmasked) ∧
      Text.FirstLineBlank (after.flatMap Segment.shown) := by
  intro source p record after m
  have hmasked : ofSource source {} none = .ok m := by
    decide +kernel
  have hline : "//".toList <+: p := ⟨_, rfl⟩
  have hsplit : m.segments = [.template ['a']] ++ .construct p record :: after := rfl
  obtain ⟨-, -, hiff, hends⟩ := lineComments_end_lines hmasked hsplit
  exact ⟨hmasked, hline, (hiff.1 hline).2.2.2, (hends hline).1⟩

end Masked

end Stencil
