import Stencil.Proofs.Placeholder.Room
import Stencil.Proofs.Substitution.Braces
import Stencil.Proofs.Substitution.LineComments
import Stencil.Proofs.Token.Size

/-!
# What can be masked

Masking goes wrong at a token of three sorts only: template text with a sentinel, a scriptlet that
has no room for a block comment and may not become a line comment, and an expression over several
lines that has no room for an identifier with a comment behind it. Every other construct has room
for the smallest placeholder of its family, since its own delimiters are as long as that
(`TokenStream.leastSigns_le_net`).
-/

set_option autoImplicit false

namespace Stencil

/-- A token that has no room for any placeholder. -/
def Token.TooShort (source : Text) (settings : Settings) (t : Token) : Prop :=
  match t.kind with
  | .scriptlet =>
    (Layout.of t.value).net < 5 ∧
      ¬(settings.lineComments = true ∧ (∀ c ∈ t.value, c ≠ '\r' ∧ c ≠ '\n') ∧
        Text.FirstLineBlank (source.drop t.stop))
  | .expression | .elExpression =>
    (Layout.of t.value).net < 7 ∧ ∃ c ∈ t.value, c = '\r' ∨ c = '\n'
  | _ => False

/-- A token has room unless it is a short scriptlet that may not become a line comment, or a short
expression over several lines. -/
theorem Token.not_tooShort_iff {source : Text} {settings : Settings} {t : Token} :
    ¬t.TooShort source settings ↔
      (t.kind = .scriptlet → (Layout.of t.value).net < 5 →
        settings.lineComments = true ∧ (∀ c ∈ t.value, c ≠ '\r' ∧ c ≠ '\n') ∧
          Text.FirstLineBlank (source.drop t.stop)) ∧
      (t.kind = .expression ∨ t.kind = .elExpression →
        (∃ c ∈ t.value, c = '\r' ∨ c = '\n') → 7 ≤ (Layout.of t.value).net) := by
  unfold TooShort
  cases t.kind with
  | expression | elExpression =>
      dsimp only
      rw [not_and', not_lt]
      simp only [reduceCtorEq, or_false, or_true, IsEmpty.forall_iff, true_and, forall_const]
  | _ => simp

namespace Masked

/-- No sentinel is found exactly in plain texts. -/
theorem firstSentinel?_eq_none_iff {t : Text} : firstSentinel? t = none ↔ Text.Plain t := by
  refine ⟨plain_of_firstSentinel?, fun h => ?_⟩
  have hnone : t.dropWhile (!isSentinel ·) = [] := by
    rw [List.dropWhile_eq_nil_iff]
    intro c hc
    simp [h c hc]
  rw [firstSentinel?, hnone]

section Placeholder

variable {source : Text} {settings : Settings} {t : Token} {family : Family} {number : Nat}
  {braced : List Bool}

variable (source settings) in
/-- A token becomes a line comment if it may, it has one line, and nothing follows it there. -/
theorem endsLine_and_isSingleLine_iff (hkind : t.kind.mayEndLine = true) :
    (endsLine source settings t && (Layout.of t.value).isSingleLine) = true ↔
      settings.lineComments = true ∧ (∀ c ∈ t.value, c ≠ '\r' ∧ c ≠ '\n') ∧
        Text.FirstLineBlank (source.drop t.stop) := by
  rw [endsLine, hkind, Bool.and_true, Bool.and_eq_true, Bool.and_eq_true,
    Layout.isSingleLine_iff, Text.endsLine_iff]
  tauto

/-- A comment is refused to a token that has no room, and to no other. -/
theorem comment_refused_iff (hkind : t.kind.family? = some .comment)
    (hnet : t.kind.leastSigns ≤ (Layout.of t.value).net) :
    Placeholder.comment (Layout.of t.value) (endsLine source settings t) = none ↔
      t.TooShort source settings := by
  rw [← Option.not_isSome_iff_eq_none, Placeholder.isSome_comment_iff]
  by_cases hscriptlet : t.kind = .scriptlet
  · have hline := endsLine_and_isSingleLine_iff source settings (t := t) (by rw [hscriptlet]; rfl)
    rw [hscriptlet, Kind.leastSigns] at hnet
    simp only [Token.TooShort, hscriptlet, ← hline]
    generalize (endsLine source settings t && (Layout.of t.value).isSingleLine) = asLine
    cases asLine with
    | true =>
        simp
        omega
    | false => simp
  · have hlong : 5 ≤ t.kind.leastSigns := by
      revert hkind hscriptlet
      cases t.kind <;> decide
    have hnot : ¬t.TooShort source settings := by
      revert hkind hscriptlet
      unfold Token.TooShort
      cases t.kind <;> simp [Kind.family?]
    simp only [hnot, iff_false, not_not]
    split <;> omega

/-- An identifier is refused to a token that has no room, and to no other. -/
theorem identifier_refused_iff (hkind : t.kind.family? = some .identifier)
    (hnet : t.kind.leastSigns ≤ (Layout.of t.value).net) (label : Text) (number : Nat) :
    Placeholder.identifier (Layout.of t.value) label number = none ↔
      t.TooShort source settings := by
  have hlines : (Layout.of t.value).isSingleLine = true ↔
      ¬∃ c ∈ t.value, c = '\r' ∨ c = '\n' := by
    rw [Layout.isSingleLine_iff]
    push Not
    rfl
  rw [← Option.not_isSome_iff_eq_none, Placeholder.isSome_identifier_iff]
  unfold Token.TooShort
  revert hkind hnet
  cases t.kind with
  | expression | elExpression =>
      intro hkind hnet
      rw [Kind.leastSigns] at hnet
      dsimp only
      by_cases hbreak : ∃ c ∈ t.value, c = '\r' ∨ c = '\n'
      · rw [if_neg (fun hsingle => hlines.1 hsingle hbreak)]
        simp [hbreak]
      · rw [if_pos (hlines.2 hbreak)]
        simp only [hbreak, and_false, iff_false]
        omega
  | portletNamespace =>
      intro hkind hnet
      rw [Kind.leastSigns] at hnet
      simp only [iff_false, not_not]
      split <;> omega
  | _ =>
      intro hkind
      cases hkind

/-- An opening is refused to a token that has no room, and to no other. -/
theorem opening_refused_iff (hkind : t.kind.family? = some .opening)
    (hnet : t.kind.leastSigns ≤ (Layout.of t.value).net) :
    Placeholder.opening (Layout.of t.value) = none ↔ t.TooShort source settings := by
  rw [← Option.not_isSome_iff_eq_none, Placeholder.isSome_opening_iff]
  unfold Token.TooShort
  revert hkind hnet
  cases t.kind with
  | startTag =>
      intro _ hnet
      rw [Kind.leastSigns] at hnet
      simp only [iff_false, not_not]
      exact hnet
  | _ =>
      intro hkind
      cases hkind

/-- An end tag always has room. -/
theorem not_tooShort_of_closing (hkind : t.kind.family? = some .closing) :
    ¬t.TooShort source settings := by
  unfold Token.TooShort
  revert hkind
  cases t.kind <;> simp [Kind.family?]

/-- A closing is refused to a token that has no room, and to no other. -/
theorem closing_refused_iff (hkind : t.kind.family? = some .closing)
    (hnet : t.kind.leastSigns ≤ (Layout.of t.value).net) (isBraced : Bool) :
    Placeholder.closing (Layout.of t.value) isBraced = none ↔ t.TooShort source settings := by
  have hlong : 6 ≤ t.kind.leastSigns := by
    revert hkind
    cases t.kind <;> decide
  rw [← Option.not_isSome_iff_eq_none, Placeholder.isSome_closing_iff]
  simp only [not_tooShort_of_closing hkind, iff_false, not_not]
  split <;> omega

/-- What becomes of a placeholder that was made or refused. -/
theorem made_cases {refused : Prop} (p? : Option Text) (braced : Text → List Bool) (t : Text) :
    let made : Except SubstitutionError (Text × List Bool) :=
      match p? with
      | some p => .ok (p, braced p)
      | none => .error (.underlength t)
    (p? = none ↔ refused) →
      refused ∧ made = .error (.underlength t) ∨ ¬refused ∧ ∃ answer, made = .ok answer := by
  intro made h
  cases p? with
  | none => exact .inl ⟨h.1 rfl, rfl⟩
  | some p => exact .inr ⟨fun hrefused => (nomatch h.2 hrefused), _, rfl⟩

variable (source settings) in
/-- A token has a placeholder unless it is too short, whatever the number of the construct, where
it does not lack a block to close. -/
theorem placeholder_cases (hkind : t.kind.family? = some family)
    (hnet : t.kind.leastSigns ≤ (Layout.of t.value).net) (number : Nat) (braced : List Bool) :
    t.TooShort source settings ∧
        placeholder source settings t family number braced = .error (.underlength t.value) ∨
      ¬t.TooShort source settings ∧
        ((∃ answer, placeholder source settings t family number braced = .ok answer) ∨
          placeholder source settings t family number braced = .error .unopenedEnd ∧
            family = .closing ∧ braced = []) := by
  cases family with
  | comment =>
      exact (made_cases _ _ _ (comment_refused_iff hkind hnet)).imp_right (.imp_right .inl)
  | identifier =>
      exact (made_cases _ _ _ (identifier_refused_iff hkind hnet _ _)).imp_right (.imp_right .inl)
  | opening =>
      exact (made_cases _ _ _ (opening_refused_iff hkind hnet)).imp_right (.imp_right .inl)
  | closing =>
      cases braced with
      | nil => exact .inr ⟨not_tooShort_of_closing hkind, .inr ⟨rfl, rfl, rfl⟩⟩
      | cons isBraced below =>
          exact (made_cases _ _ _ (closing_refused_iff hkind hnet _)).imp_right (.imp_right .inl)

variable (source settings) in
/-- The only tokens that are refused for their lengths are those that are too short, whatever the
number of the construct and whatever tags are open. -/
theorem placeholder_underlength_iff (hkind : t.kind.family? = some family)
    (hnet : t.kind.leastSigns ≤ (Layout.of t.value).net) (number : Nat) (braced : List Bool)
    (v : Text) :
    placeholder source settings t family number braced = .error (.underlength v) ↔
      v = t.value ∧ t.TooShort source settings := by
  rcases placeholder_cases source settings hkind hnet number braced with
    ⟨hshort, heq⟩ | ⟨hlong, ⟨answer, heq⟩ | ⟨heq, -, -⟩⟩
  · simp [heq, hshort, eq_comm]
  · simp [heq, hlong]
  · simp [heq, hlong]

end Placeholder

section Segments

variable {source : Text} {settings : Settings} {ts : List Token} {number : Nat}
  {unclosed : List Token} {justOpened : Bool} {braced : List Bool}

/-- One more element in front makes no difference to success. -/
theorem exists_cons_eq_ok_iff {ε α : Type} {x : Except ε (List α)} {a : α} :
    (∃ r, (x >>= fun rest => pure (a :: rest)) = .ok r) ↔ ∃ rest, x = .ok rest := by
  cases x <;> simp [bind, Except.bind, pure, Except.pure]

/-- Tokens are masked just if no template text among them holds a sentinel and none is too
short. -/
theorem exists_segmentsOf_iff (file : Option String)
    (hnested : Token.Nested source unclosed justOpened ts)
    (hlength : unclosed.length = braced.length)
    (hnet : ∀ t ∈ ts, t.kind.leastSigns ≤ (Layout.of t.value).net) :
    (∃ segments, segmentsOf source file settings ts number braced = .ok segments) ↔
      ∀ t ∈ ts, (t.kind = .templateText → Text.Plain t.value) ∧ ¬t.TooShort source settings := by
  induction ts generalizing unclosed justOpened braced number with
  | nil => exact ⟨fun _ _ ht => absurd ht List.not_mem_nil, fun _ => ⟨[], rfl⟩⟩
  | cons t ts ih =>
      obtain ⟨hfits, hbehind⟩ := hnested
      obtain ⟨hnet, hothers⟩ := List.forall_mem_cons.1 hnet
      rw [List.forall_mem_cons, segmentsOf]
      cases hkind : t.kind.family? with
      | none =>
          have htemplate := Kind.family?_eq_none_iff.1 hkind
          have htrack : Token.track unclosed t = unclosed := by
            rw [Token.track, htemplate]
          have hlong : ¬t.TooShort source settings := by
            rw [Token.TooShort, htemplate]
            exact not_false
          rw [htrack] at hbehind
          dsimp only
          cases hsentinel : firstSentinel? t.value with
          | some found =>
              have hnot : ¬Text.Plain t.value := by
                rw [← firstSentinel?_eq_none_iff, hsentinel]
                exact Option.some_ne_none found
              simp [htemplate, hnot]
          | none =>
              have hplain := plain_of_firstSentinel? hsentinel
              rw [exists_cons_eq_ok_iff, ih hbehind hlength hothers]
              simp [hplain, hlong]
      | some family =>
          have hconstruct := Kind.ne_templateText hkind
          dsimp only
          rcases placeholder_cases source settings hkind hnet number braced with
            ⟨hshort, heq⟩ | ⟨hlong, ⟨⟨p, braced'⟩, heq⟩ | ⟨-, rfl, hempty⟩⟩
          · simp [heq, hshort, bind, Except.bind]
          · obtain ⟨-, f, rfl, hput⟩ := placeholder_spec hkind heq
            rw [heq, ok_bind, exists_cons_eq_ok_iff, ih hbehind
              (length_track hfits hlength hput.bracedAs) hothers]
            simp [hconstruct, hlong]
          · exact absurd hempty (braced_ne_nil hfits hlength hkind)

end Segments

/-- Exactly when a source can be masked: if it can be cut into tokens, none of its template texts
holds a sentinel, no scriptlet has fewer than five characters besides its line breaks and the
indentation of its later lines, unless line comments are allowed and it stands on one line with
nothing but blanks and tabs behind it, and no expression over several lines has fewer than seven.
Whatever the number of a construct and whatever tags are open around it, its placeholder is refused
for its length in these two cases only; so it is never refused if it is a comment, a directive, a
declaration, a name space, a tag, or an expression on one line. -/
theorem ofSource_eq_ok_iff (source : Text) (settings : Settings) (file : Option String) :
    ((∃ m, ofSource source settings file = .ok m) ↔
      ∃ tokens, (TokenStream.ofSource source settings file none).complete = .ok tokens ∧
        ∀ t ∈ tokens,
          (t.kind = .templateText → ∀ c ∈ t.value, isSentinel c = false) ∧
          (t.kind = .scriptlet → (Layout.of t.value).net < 5 →
            settings.lineComments = true ∧ (∀ c ∈ t.value, c ≠ '\r' ∧ c ≠ '\n') ∧
              Text.FirstLineBlank (source.drop t.stop)) ∧
          (t.kind = .expression ∨ t.kind = .elExpression →
            (∃ c ∈ t.value, c = '\r' ∨ c = '\n') → 7 ≤ (Layout.of t.value).net)) ∧
    ∀ tokens, (TokenStream.ofSource source settings file none).complete = .ok tokens →
      ∀ t ∈ tokens, ∀ family, t.kind.family? = some family → ∀ number braced v,
        (placeholder source settings t family number braced = .error (.underlength v) ↔
          v = t.value ∧ t.TooShort source settings) ∧
        (t.kind ≠ .scriptlet → (t.kind = .expression ∨ t.kind = .elExpression →
            ∀ c ∈ t.value, c ≠ '\r' ∧ c ≠ '\n') →
          placeholder source settings t family number braced ≠ .error (.underlength v)) := by
  constructor
  · have hsplit : (∃ m, ofSource source settings file = .ok m) ↔
        ∃ tokens, (TokenStream.ofSource source settings file none).complete = .ok tokens ∧
          ∃ segments, segmentsOf source file settings tokens 0 [] = .ok segments := by
      unfold ofSource
      cases (TokenStream.ofSource source settings file none).complete with
      | error failure => simp
      | ok tokens =>
          cases hsegments : segmentsOf source file settings tokens 0 [] <;> simp [hsegments]
    rw [hsplit]
    refine exists_congr fun tokens => and_congr_right fun hcomplete => ?_
    rw [exists_segmentsOf_iff file (TokenStream.nested_of_complete hcomplete) rfl
      (TokenStream.leastSigns_le_net hcomplete)]
    refine forall₂_congr fun t _ => and_congr_right fun _ => ?_
    exact Token.not_tooShort_iff
  · intro tokens hcomplete t ht family hkind number braced v
    have hnet := TokenStream.leastSigns_le_net hcomplete t ht
    have hiff := placeholder_underlength_iff source settings hkind hnet number braced v
    refine ⟨hiff, fun hscriptlet hlines => ?_⟩
    rw [Ne, hiff]
    rintro ⟨-, hshort⟩
    refine Token.not_tooShort_iff.2 ⟨fun h => absurd h hscriptlet, fun h hbreak => ?_⟩ hshort
    obtain ⟨c, hc, hbreak⟩ := hbreak
    obtain ⟨hreturn, hfeed⟩ := hlines h c hc
    rcases hbreak with rfl | rfl <;> contradiction

/-- The shortest scriptlet there is can be masked at the end of a line only. -/
theorem ofSource_eq_ok_iff_of_scriptlet :
    let t : Token := ⟨.scriptlet, "<%%>".toList, 0⟩
    let word : Token := ⟨.templateText, ['a'], 4⟩
    (∃ m, ofSource "<%%>".toList {} none = .ok m) ∧
      (TokenStream.ofSource "<%%>a".toList {} none none).complete = .ok [t, word] ∧
      (¬∃ m, ofSource "<%%>a".toList {} none = .ok m) ∧
      placeholder "<%%>a".toList {} t .comment 7 [true] = .error (.underlength t.value) := by
  intro t word
  have hends : (TokenStream.ofSource "<%%>".toList {} none none).complete = .ok [t] := by
    decide +kernel
  have hgoesOn : (TokenStream.ofSource "<%%>a".toList {} none none).complete = .ok [t, word] := by
    decide +kernel
  have hblank : ¬Text.FirstLineBlank ['a'] := by
    rw [← Text.endsLine_iff]
    decide
  have hnet : (Layout.of t.value).net = 4 := by decide
  have hline : ∀ c ∈ t.value, c ≠ '\r' ∧ c ≠ '\n' := by
    simp [t]
  obtain ⟨hmasked, -⟩ := ofSource_eq_ok_iff "<%%>".toList {} none
  obtain ⟨hrefused, hplaceholders⟩ := ofSource_eq_ok_iff "<%%>a".toList {} none
  refine ⟨hmasked.2 ⟨[t], hends, ?_⟩, hgoesOn, fun hok => ?_, ?_⟩
  · rw [List.forall_mem_singleton]
    exact ⟨nofun, fun _ _ => ⟨rfl, hline, [], [], rfl, nofun, nofun⟩, nofun⟩
  · obtain ⟨tokens, hcomplete, htokens⟩ := hrefused.1 hok
    rw [hgoesOn] at hcomplete
    cases hcomplete
    have hline := (htokens t (List.mem_cons_self ..)).2.1 rfl (by rw [hnet]; decide)
    exact hblank hline.2.2
  · refine ((hplaceholders _ hgoesOn t (List.mem_cons_self ..) .comment rfl 7 [true] _).1).2
      ⟨rfl, ?_⟩
    exact ⟨by rw [hnet]; decide, fun hline => hblank hline.2.2⟩

end Masked

end Stencil
