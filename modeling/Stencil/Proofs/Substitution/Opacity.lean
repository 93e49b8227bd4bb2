import Stencil.Proofs.Substitution.LineComments

/-!
# Masking does not read constructs

What becomes of two sources is the same if their tokens are alike: template text that is the same,
and constructs of the same kinds with the same layouts. Of a construct masking reads the kind and
the layout, how many constructs stand in front of it and which blocks they opened, and whether
anything follows it on its line. The last is read from the source behind the construct, but goes no
further than the next construct, since no construct is blank and none starts with a line break
(`Token.endsLine_flatMap_eq`).
-/

set_option autoImplicit false

namespace Stencil

namespace Token

/-- Two tokens that masking does not tell apart: of one kind, with the same line breaks, the same
indentation of the later lines and as many other characters on each line. Template text is the same
text. -/
structure Alike (t u : Token) : Prop where
  kind_eq : t.kind = u.kind
  value_eq : t.kind = .templateText → t.value = u.value
  layout_eq : Layout.of t.value = Layout.of u.value

variable {ts us : List Token}

/-- Whether a row of tokens starts with a blank line is the same for tokens that are alike. -/
theorem endsLine_flatMap_eq (h : List.Forall₂ Alike ts us)
    (hts : ∀ t ∈ ts, t.kind ≠ .templateText → t.value.Delimited)
    (hus : ∀ u ∈ us, u.kind ≠ .templateText → u.value.Delimited) :
    Text.endsLine (ts.flatMap (·.value)) = Text.endsLine (us.flatMap (·.value)) := by
  induction h with
  | nil => rfl
  | @cons t u ts us halike _ ih =>
      obtain ⟨ht, hts⟩ := List.forall_mem_cons.1 hts
      obtain ⟨hu, hus⟩ := List.forall_mem_cons.1 hus
      rw [List.flatMap_cons, List.flatMap_cons]
      by_cases hkind : t.kind = .templateText
      · rw [← halike.value_eq hkind]
        rcases Text.indent_or_sign t.value with hindent | hsign
        · rw [Text.endsLine_append_of_indent hindent, Text.endsLine_append_of_indent hindent]
          exact ih hts hus
        · rw [Text.endsLine_append_of_sign hsign, Text.endsLine_append_of_sign hsign]
      · rw [(ht hkind).endsLine_append, (hu (halike.kind_eq ▸ hkind)).endsLine_append]

end Token

namespace Masked

/-- What a formatter sees of segments, if there are any. -/
def shown? (segments : Except SubstitutionError (List Segment)) : Option Text :=
  segments.toOption.map fun segments => segments.flatMap Segment.shown

/-- One more segment in front is shown in front. -/
theorem shown?_cons (x : Except SubstitutionError (List Segment)) (s : Segment) :
    shown? (x >>= fun segments => pure (s :: segments)) = (shown? x).map (s.shown ++ ·) := by
  cases x <;> rfl

section Alike

variable {source source' : Text} {settings : Settings} {t u : Token} {ts us : List Token}
  {number : Nat} {braced : List Bool}

/-- Tokens that are alike have the same placeholder, or none. -/
theorem placeholder_alike (h : t.Alike u)
    (hends : endsLine source settings t = endsLine source' settings u) (family : Family)
    (number : Nat) (braced : List Bool) :
    (placeholder source settings t family number braced).toOption =
      (placeholder source' settings u family number braced).toOption := by
  unfold placeholder
  rw [h.kind_eq, h.layout_eq, hends]
  cases family with
  | comment =>
      dsimp only
      cases Placeholder.comment _ _ <;> rfl
  | identifier =>
      dsimp only
      cases Placeholder.identifier _ _ _ <;> rfl
  | opening =>
      dsimp only
      cases Placeholder.opening _ <;> rfl
  | closing =>
      cases braced with
      | nil => rfl
      | cons isBraced below =>
          dsimp only
          cases Placeholder.closing _ _ <;> rfl

/-- Two rows of tokens that are alike and make up the rests of their sources are masked alike. -/
theorem shown?_segmentsOf_alike (settings : Settings) (file file' : Option String)
    (h : List.Forall₂ Token.Alike ts us) {offset offset' : Nat}
    (hts : Token.Tiles source offset ts) (hus : Token.Tiles source' offset' us)
    (hlength : offset + Token.totalLength ts = source.length)
    (hlength' : offset' + Token.totalLength us = source'.length)
    (hdelimited : ∀ t ∈ ts, t.kind ≠ .templateText → t.value.Delimited)
    (hdelimited' : ∀ u ∈ us, u.kind ≠ .templateText → u.value.Delimited) (number : Nat)
    (braced : List Bool) :
    shown? (segmentsOf source file settings ts number braced) =
      shown? (segmentsOf source' file' settings us number braced) := by
  induction h generalizing offset offset' number braced with
  | nil => rfl
  | @cons t u ts us halike hothers ih =>
      obtain ⟨-, hdelimited⟩ := List.forall_mem_cons.1 hdelimited
      obtain ⟨-, hdelimited'⟩ := List.forall_mem_cons.1 hdelimited'
      have hends : endsLine source settings t = endsLine source' settings u := by
        rw [endsLine, endsLine, halike.kind_eq, hts.drop_stop hlength, hus.drop_stop hlength',
          Token.endsLine_flatMap_eq hothers hdelimited hdelimited']
      have hsum (t : Token) (ts : List Token) :
          Token.totalLength (t :: ts) = t.value.length + Token.totalLength ts := by
        simp [Token.totalLength]
      rw [hsum, ← Nat.add_assoc] at hlength hlength'
      have hrest := ih hts.2.2.2 hus.2.2.2 hlength hlength' hdelimited hdelimited'
      rw [segmentsOf, segmentsOf, halike.kind_eq]
      cases hkind : u.kind.family? with
      | none =>
          have htemplate : t.kind = .templateText :=
            halike.kind_eq.trans (Kind.family?_eq_none_iff.1 hkind)
          rw [halike.value_eq htemplate]
          dsimp only
          cases firstSentinel? u.value with
          | some found => rfl
          | none =>
              dsimp only
              rw [shown?_cons, shown?_cons, hrest]
      | some family =>
          have hplaced := placeholder_alike halike hends family number braced
          dsimp only
          cases hp : placeholder source settings t family number braced with
          | error e =>
              cases hq : placeholder source' settings u family number braced with
              | error e' => rfl
              | ok answer => simp [hp, hq, Except.toOption] at hplaced
          | ok answer =>
              obtain ⟨p, braced'⟩ := answer
              cases hq : placeholder source' settings u family number braced with
              | error e' => simp [hp, hq, Except.toOption] at hplaced
              | ok answer' =>
                  obtain rfl : (p, braced') = answer' := by
                    simpa [hp, hq, Except.toOption] using hplaced
                  rw [ok_bind, ok_bind]
                  dsimp only
                  rw [shown?_cons, shown?_cons, hrest]
                  rfl

end Alike

/-- Constructs are opaque. Take two sources whose tokens are alike one by one: of the same kind, the
same text if they are template text, and otherwise with the same line breaks at the same places, the
same blanks and tabs at the starts of their later lines, and as many other characters on each line,
whatever these are. Under the same settings either both are masked, and a formatter sees the same
text, or neither is. -/
theorem text_eq_of_alike {source source' : Text} {settings : Settings} {file file' : Option String}
    {ts us : List Token}
    (hts : (TokenStream.ofSource source settings file none).complete = .ok ts)
    (hus : (TokenStream.ofSource source' settings file' none).complete = .ok us)
    (halike : List.Forall₂ Token.Alike ts us) :
    (∃ m m', ofSource source settings file = .ok m ∧ ofSource source' settings file' = .ok m' ∧
      m.text = m'.text) ∨
    ∃ e e', ofSource source settings file = .error e ∧
      ofSource source' settings file' = .error e' := by
  obtain ⟨htiles, hlength⟩ := TokenStream.tiles_of_complete hts
  obtain ⟨htiles', hlength'⟩ := TokenStream.tiles_of_complete hus
  have hshown := shown?_segmentsOf_alike settings file file' halike htiles htiles'
    (by omega) (by omega) (TokenStream.delimited_of_complete hts)
    (TokenStream.delimited_of_complete hus) 0 []
  unfold ofSource
  rw [hts, hus]
  dsimp only
  cases hsegments : segmentsOf source file settings ts 0 [] with
  | error e =>
      cases hsegments' : segmentsOf source' file' settings us 0 [] with
      | error e' => exact .inr ⟨e, e', rfl, rfl⟩
      | ok segments' => simp [hsegments, hsegments', shown?, Except.toOption] at hshown
  | ok segments =>
      cases hsegments' : segmentsOf source' file' settings us 0 [] with
      | error e' => simp [hsegments, hsegments', shown?, Except.toOption] at hshown
      | ok segments' =>
          have htext : segments.flatMap Segment.shown = segments'.flatMap Segment.shown := by
            simpa [hsegments, hsegments', shown?, Except.toOption] using hshown
          exact .inl ⟨_, _, rfl, rfl, htext⟩

/-- What looks like a tag, a quote or a delimiter inside of a scriptlet is not looked at. -/
theorem text_eq_of_alike_of_scriptlet :
    let source := "<% if(a)\n  b %>$\x7bx\x7d d".toList
    let source' := "<%'</a:b\n  -%%>#\x7by\x7d d".toList
    let scriptlet : Token := ⟨.scriptlet, "<% if(a)\n  b %>".toList, 0⟩
    let scriptlet' : Token := ⟨.scriptlet, "<%'</a:b\n  -%%>".toList, 0⟩
    let expression : Token := ⟨.elExpression, "$\x7bx\x7d".toList, 15⟩
    let expression' : Token := ⟨.elExpression, "#\x7by\x7d".toList, 15⟩
    let text : Token := ⟨.templateText, " d".toList, 19⟩
    (TokenStream.ofSource source {} none none).complete = .ok [scriptlet, expression, text] ∧
      (TokenStream.ofSource source' {} none none).complete = .ok [scriptlet', expression', text] ∧
      (scriptlet.Alike scriptlet' ∧ expression.Alike expression' ∧ text.Alike text) ∧
      ((∃ m m', ofSource source {} none = .ok m ∧ ofSource source' {} none = .ok m' ∧
          m.text = m'.text) ∨
        ∃ e e', ofSource source {} none = .error e ∧ ofSource source' {} none = .error e') := by
  intro source source' scriptlet scriptlet' expression expression' text
  have hts : (TokenStream.ofSource source {} none none).complete =
      .ok [scriptlet, expression, text] := by
    decide +kernel
  have hus : (TokenStream.ofSource source' {} none none).complete =
      .ok [scriptlet', expression', text] := by
    decide +kernel
  have hscriptlet : scriptlet.Alike scriptlet' := ⟨rfl, nofun, by decide +kernel⟩
  have hexpression : expression.Alike expression' := ⟨rfl, nofun, by decide +kernel⟩
  have htext : text.Alike text := ⟨rfl, fun _ => rfl, rfl⟩
  exact ⟨hts, hus, ⟨hscriptlet, hexpression, htext⟩,
    text_eq_of_alike hts hus (.cons hscriptlet (.cons hexpression (.cons htext .nil)))⟩

end Masked

end Stencil
