import Stencil.Proofs.Jsp.Meeting
import Stencil.Proofs.Substitution.Offsets
import Stencil.Proofs.Token.Alone
import Stencil.Proofs.Token.Hiding

/-!
# Constructs in a masked text

A masked text should hold no constructs. Its placeholders do not, and neither does its template text
as far as it goes, but a placeholder may complete what template text begins. `Masked.Fused` says
that this happens somewhere, and cutting the masked text into tokens gives nothing but template text
exactly if it does not (`Masked.neutral_iff`).
-/

set_option autoImplicit false

namespace Stencil

open Jsp (Fuses Inert StartsInside behindBackslash markers templateRun)
open Placeholder

/-! ## Placeholders are inert -/

namespace Placeholder

section Unmarked

variable {t : Text} {filler : Char}

/-- A class of characters without the signs that matter holds none of them. -/
theorem not_mem_markers {isMember : Char → Bool} (hclass : markers.all (!isMember ·) = true)
    {c : Char} (h : isMember c = true) : c ∉ markers := by
  intro hc
  have hnot := List.all_eq_true.1 hclass c hc
  rw [h] at hnot
  cases hnot

/-- A text that is checked for the signs that matter has none of them. -/
theorem unmarked_of_all (h : t.all (!markers.contains ·) = true) : ∀ x ∈ t, x ∉ markers := by
  intro x hx
  simpa using List.all_eq_true.1 h x hx

/-- White space has none of the signs that matter. -/
theorem unmarked_of_blanks (h : Text.Blanks t) : ∀ x ∈ t, x ∉ markers :=
  fun x hx => not_mem_markers (by decide) (h x hx)

/-- Fillers are none of the signs that matter. -/
theorem unmarked_replicate (hfiller : filler ∉ markers) (n : Nat) :
    ∀ x ∈ List.replicate n filler, x ∉ markers := by
  intro x hx
  rwa [List.eq_of_mem_replicate hx]

/-- A comment of fillers has none of the signs that matter. -/
theorem unmarked_of_isComment (hfiller : filler ∉ markers) (h : IsComment filler t) :
    ∀ x ∈ t, x ∉ markers := by
  obtain ⟨body, ⟨honly, -⟩, rfl⟩ := h
  have hbody : ∀ x ∈ body, x ∉ markers := by
    intro x hx
    rcases honly x hx with rfl | hblank
    · exact hfiller
    · exact not_mem_markers (by decide) hblank
  simp only [List.forall_mem_append]
  exact ⟨⟨unmarked_of_all (by decide), hbody⟩, unmarked_of_all (by decide)⟩

/-- A name has none of the signs that matter. -/
theorem unmarked_of_isName (h : IsName t) : ∀ x ∈ t, x ∉ markers := by
  obtain ⟨body, hbody, rfl⟩ := h
  have hunmarked : ∀ x ∈ body, x ∉ markers :=
    fun x hx => not_mem_markers (by decide) (hbody x hx)
  rw [List.forall_mem_append, List.forall_mem_cons]
  exact ⟨⟨by decide, hunmarked⟩, unmarked_of_all (by decide)⟩

/-- A condition has none of the signs that matter. -/
theorem unmarked_of_isCondition (h : IsCondition t) : ∀ x ∈ t, x ∉ markers := by
  obtain ⟨space, n, space', hspace, hspace', rfl⟩ := h
  have hopening : Sentinel.opening ∉ markers := by decide
  have hfillers := unmarked_replicate hopening (n + 1)
  simp only [List.forall_mem_append, List.forall_mem_cons]
  exact ⟨⟨⟨⟨unmarked_of_all (by decide), unmarked_of_blanks hspace⟩, by decide, hfillers⟩,
    by decide, unmarked_of_blanks hspace'⟩, by decide, nofun⟩

end Unmarked

/-- What does not start with a slash is inert if its characters are. -/
theorem inert_cons {c : Char} {t : Text} (hc : c ≠ '/') (h : ∀ x ∈ c :: t, x ∉ markers) :
    Inert (c :: t) where
  nonempty := List.cons_ne_nil c t
  unmarked := h
  slash _ heq := absurd (List.cons.inj heq).1 hc

/-- A comment of fillers is inert. -/
theorem inert_of_isComment {filler : Char} {t : Text} (hfiller : filler ∉ markers)
    (h : IsComment filler t) : Inert t := by
  have hunmarked := unmarked_of_isComment hfiller h
  obtain ⟨body, -, rfl⟩ := h
  refine ⟨by simp, hunmarked, fun more heq => ⟨'*', body ++ "*/".toList, ?_, by decide⟩⟩
  exact (List.cons.inj heq).2.symm

/-- A line comment of fillers is inert. -/
theorem inert_of_isLineComment {t : Text} (h : IsLineComment t) : Inert t := by
  obtain ⟨n, rfl⟩ := h
  refine ⟨by simp, ?_, fun more heq => ⟨'/', _, (List.cons.inj heq).2.symm, by decide⟩⟩
  exact List.forall_mem_append.2
    ⟨unmarked_of_all (by decide), unmarked_replicate (by decide) (n + 1)⟩

/-- An opening is inert in all its forms. -/
theorem Opens.inert {form : OpeningForm} {f : Found} (h : Opens form f) : Inert f.text := by
  have hcomment {t : Text} (ht : IsComment Sentinel.opening t) := inert_of_isComment (by decide) ht
  have hcondition {t rest : Text} (ht : IsCondition t) (hrest : ∀ x ∈ rest, x ∉ markers) :
      Inert (t ++ rest) := by
    have hunmarked := List.forall_mem_append.2 ⟨unmarked_of_isCondition ht, hrest⟩
    obtain ⟨space, n, space', -, -, rfl⟩ := ht
    exact inert_cons (by decide) hunmarked
  cases h with
  | condition hcore => exact hcondition hcore nofun
  | trailed hcore htrail => exact hcondition hcore (hcomment htrail).unmarked
  | braced hcore =>
      rw [Found.text_lead]
      exact inert_cons (by decide) (List.forall_mem_cons.2 ⟨by decide, (hcomment hcore).unmarked⟩)
  | bare hcore =>
      rw [Found.text_core]
      exact hcomment hcore

end Placeholder

/-- The placeholder of a record is inert. -/
theorem Placed.inert {number : Nat} {r : Record} {braced braced' : List Bool} {f : Found}
    (h : Placed number r braced f braced') : Inert f.text := by
  cases h with
  | comment _ hcore =>
      rw [Found.text_core]
      exact hcore.elim (inert_of_isComment (by decide)) inert_of_isLineComment
  | identifier _ hcore htrail =>
      rw [Found.text_trail]
      have hunmarked := List.forall_mem_append.2 ⟨unmarked_of_isName hcore, htrail.elim
        (fun heq => by simp [heq]) (unmarked_of_isComment (by decide))⟩
      obtain ⟨body, -, rfl⟩ := hcore
      exact inert_cons (by decide) hunmarked
  | opening _ hform => exact hform.inert
  | @closing isBraced _ _ _ hcore =>
      rw [Found.text_lead]
      have hclosing : Sentinel.closing ∉ markers := by decide
      have hinert := inert_of_isComment hclosing hcore
      cases isBraced with
      | false => exact hinert
      | true => exact inert_cons (by decide) (List.forall_mem_cons.2 ⟨by decide, hinert.unmarked⟩)

/-! ## Texts without constructs -/

/-- Nothing starts inside the template text that is cut off a page. -/
theorem Page.not_startsInside_of_next {source : Text} {file : Option String} {n : Int}
    {q q' : Progress} {t : Token} (hq : q.Steady source) (hrest : q.rest ≠ [])
    (h : (standard source file n).next q = .ok (t, q')) (hkind : t.kind = .templateText) :
    ¬StartsInside q.elEnabled false t.value q'.rest := by
  obtain ⟨-, -, hrun, hsplit, -⟩ := next_templateText hq hrest h hkind
  rw [hrun] at hsplit ⊢
  rintro ⟨lead, x, behind, heq, hstarts⟩
  rw [Jsp.not_startsConstruct_of_run hsplit heq] at hstarts
  cases hstarts

namespace TokenStream

/-- A text is cut into nothing but template text exactly if it is one run of it. -/
theorem complete_templateText_iff {t : Text} {el : Bool} (settings : Settings)
    (file : Option String) :
    (∃ tokens, (ofSource t settings file (some el)).complete = .ok tokens ∧
      ∀ token ∈ tokens, token.kind = .templateText) ↔ templateRun el false t = t := by
  constructor
  · rintro ⟨tokens, hcomplete, hkinds⟩
    obtain ⟨q, hcuts, hstops⟩ := exists_cuts t settings file (some el)
    have hcuts : (Page.standard t file settings.excerptLength).Cuts (start t el)
      (ofSource t settings file (some el)).tokens q := hcuts
    have hsteady := steady_start t el
    unfold complete at hcomplete
    split at hcomplete
    · rename_i hnone
      cases hcomplete
      rw [hnone] at hstops
      have hend : q.rest = [] := by cases hstops; assumption
      generalize (ofSource t settings file (some el)).tokens = tokens at hcuts hkinds
      cases hcuts with
      | nil =>
          obtain rfl : t = [] := hend
          rfl
      | cons hrest hnext hothers =>
          rw [List.forall_mem_cons] at hkinds
          cases hothers with
          | nil =>
              obtain ⟨-, -, hrun, hsplit, -⟩ :=
                Page.next_templateText hsteady hrest hnext hkinds.1
              rw [hend, List.append_nil, hrun, elEnabled_start] at hsplit
              exact hsplit.symm
          | cons hrest' hnext' =>
              obtain ⟨hkind, -⟩ :=
                Page.kind_behind_templateText hsteady hrest hnext hkinds.1 hrest' hnext'
              exact absurd (hkinds.2 _ (List.mem_cons_self ..)) hkind
    · cases hcomplete
  · intro hrun
    by_cases nonempty : t = []
    · subst nonempty
      exact ⟨[], rfl, nofun⟩
    · refine ⟨[⟨.templateText, t, 0⟩],
        complete_of_sees nonempty settings file fun result hsees => ?_, by simp⟩
      have hel : Jsp.elEnabled.holds (start t el).store.view = el := elEnabled_start t el
      have hnot : Jsp.startsConstruct el false t = false := by
        rw [← Bool.not_eq_true]
        intro hstarts
        rw [Jsp.templateRun_of_starts hstarts] at hrun
        exact nonempty hrun.symm
      obtain ⟨s, hok, hkind, hleads, hopen⟩ := hsees.of_no_construct (by rw [hel]; exact hnot)
      rw [hel, show (⟨[], t, 0⟩ : Cursor).rest = t from rfl, hrun] at hleads
      have hrest : t = t ++ s.stop.rest := hleads.rest_eq
      exact ⟨s, hok, hkind, by simpa using hrest, hopen⟩

end TokenStream

/-! ## Masked texts -/

namespace Masked

/-- Somewhere template text and the placeholder behind it start a construct together. -/
inductive Fused : List Segment → Prop
  | here {t p : Text} {r : Record} {after : List Segment}
      (h : Fuses t p (after.flatMap Segment.shown)) : Fused (.template t :: .construct p r :: after)
  | behind {s : Segment} {segments : List Segment} (h : Fused segments) : Fused (s :: segments)

/-- A placeholder in front fuses with nothing behind it. -/
theorem fused_construct_iff {p : Text} {r : Record} {segments : List Segment} :
    Fused (.construct p r :: segments) ↔ Fused segments := by
  refine ⟨fun h => ?_, .behind⟩
  cases h with
  | behind h => exact h

/-- Template text in front fuses with the placeholder behind it, or something fuses further on. -/
theorem fused_template_iff {t p : Text} {r : Record} {segments : List Segment} :
    Fused (.template t :: .construct p r :: segments) ↔
      Fuses t p (segments.flatMap Segment.shown) ∨ Fused (.construct p r :: segments) := by
  constructor
  · intro h
    cases h with
    | here h => exact .inl h
    | behind h => exact .inr h
  · rintro (h | h)
    · exact .here h
    · exact .behind h

/-- What is put in the place of a construct is inert. -/
theorem inert_of_placeholder {source : Text} {settings : Settings} {t : Token} {family : Family}
    {number : Nat} {braced braced' : List Bool} {p : Text} (hkind : t.kind.family? = some family)
    (h : placeholder source settings t family number braced = .ok (p, braced')) : Inert p := by
  obtain ⟨-, f, rfl, hplaced⟩ := placeholder_spec hkind h
  exact hplaced.inert

/-- What is masked token by token is one run of template text unless something is fused. The run may
start behind a backslash if it does not start with template text. -/
theorem templateRun_eq_iff_of_masks {source : Text} {settings : Settings} {file : Option String}
    {n : Int} {ts : List Token} {number : Nat} {braced : List Bool} {segments : List Segment}
    (hmasks : Masks source settings ts number braced segments) {q q' : Progress}
    (hq : q.Steady source) (hcuts : (Page.standard source file n).Cuts q ts q')
    (hel : ∀ before q'', (Page.standard source file n).Cuts q before q'' → q''.elEnabled = true)
    {escaped : Bool} (hescaped : escaped = true → ∀ t ∈ ts.head?, t.kind ≠ .templateText) :
    templateRun true escaped (segments.flatMap Segment.shown) = segments.flatMap Segment.shown ↔
      ¬Fused segments := by
  induction hmasks generalizing q escaped with
  | nil =>
      simp only [List.flatMap_nil, templateRun, true_iff]
      intro h
      cases h
  | construct hkind hplaced _ ih =>
      cases hcuts with
      | cons hrest hnext hcuts =>
          have hinert := inert_of_placeholder hkind hplaced
          obtain ⟨s, -, hcutsOff⟩ := Page.next_cutsOff hq hrest hnext
          rw [fused_construct_iff, List.flatMap_cons, Segment.shown,
            hinert.templateRun_append_eq_iff]
          exact ih hcutsOff.steady hcuts
            (fun before q'' h => hel _ q'' (.cons hrest hnext h)) (by simp)
  | @template t _ _ _ _ hkind _ hothers ih =>
      rw [Kind.family?_eq_none_iff] at hkind
      cases hcuts with
      | @cons _ q₁ _ _ _ hrest hnext hcuts =>
          obtain rfl : escaped = false := by
            rw [← Bool.not_eq_true]
            exact fun h => hescaped h t rfl hkind
          have hnot := Page.not_startsInside_of_next hq hrest hnext hkind
          rw [hel [] q (.nil q)] at hnot
          obtain ⟨s, -, hcutsOff⟩ := Page.next_cutsOff hq hrest hnext
          have hel₁ : ∀ before q'', (Page.standard source file n).Cuts q₁ before q'' →
              q''.elEnabled = true := fun before q'' h => hel _ q'' (.cons hrest hnext h)
          rw [List.flatMap_cons, Segment.shown, Jsp.templateRun_append_eq_iff]
          cases hothers with
          | nil =>
              have hnone : ¬StartsInside true false t.value [] := by
                rintro ⟨lead, x, behind, heq, hstarts⟩
                refine hnot ⟨lead, x, behind, heq, ?_⟩
                rw [List.append_nil] at hstarts
                exact Jsp.startsConstruct_append hstarts q₁.rest
              have hfused : ¬Fused [.template t.value] := by
                intro h
                cases h with
                | behind h => cases h
              simp [hnone, hfused, templateRun]
          | template hkind' =>
              rw [Kind.family?_eq_none_iff] at hkind'
              cases hcuts with
              | cons hrest' hnext' =>
                  obtain ⟨hkind'', -⟩ :=
                    Page.kind_behind_templateText hq hrest hnext hkind hrest' hnext'
                  exact absurd hkind' hkind''
          | @construct t' ts' _ _ _ _ _ p hkind' hplaced' =>
              have hinert := inert_of_placeholder hkind' hplaced'
              have hescaped' : behindBackslash false t.value = true →
                  ∀ t ∈ (t' :: ts').head?, t.kind ≠ .templateText := by
                rintro - _ ⟨⟩ htemplate
                rw [Kind.family?_eq_none_iff.2 htemplate] at hkind'
                cases hkind'
              rw [ih hcutsOff.steady hcuts hel₁ hescaped', fused_template_iff, not_or,
                List.flatMap_cons, Segment.shown, hinert.startsInside_iff_fuses hnot]

/-- A masked text is neutral unless template text and the placeholder behind it fuse. Where the
expression language is on all along, cutting the masked text with the language on succeeds and gives
nothing but template text exactly if no template text that ends with a dollar or hash sign, not
escaped, stands in front of a placeholder that starts with a brace, and no template text that ends
with an angle bracket, perhaps a slash, and the beginning of a qualified name stands in front of a
placeholder that completes the name. -/
theorem neutral_iff {source : Text} {settings : Settings} {file : Option String} {m : Masked}
    (hmasked : ofSource source settings file = .ok m)
    (hel : ∀ before q, (Page.standard source file settings.excerptLength).Cuts
      (TokenStream.start source settings.elEnabled) before q → q.elEnabled = true)
    (settings' : Settings) (file' : Option String) :
    (∃ tokens, (TokenStream.ofSource m.text settings' file' (some true)).complete = .ok tokens ∧
      ∀ t ∈ tokens, t.kind = .templateText) ↔ ¬Fused m.segments := by
  obtain ⟨tokens, hcomplete, hmasks⟩ := masks_of_ofSource hmasked
  obtain ⟨q, hcuts, -⟩ := TokenStream.exists_cuts source settings file none
  unfold TokenStream.complete at hcomplete
  split at hcomplete
  · cases hcomplete
    rw [TokenStream.complete_templateText_iff]
    exact templateRun_eq_iff_of_masks hmasks (TokenStream.steady_start source _) hcuts hel (by simp)
  · cases hcomplete

/-- A bracket in front of an expression starts no tag, since no colon follows the expression. -/
theorem neutral_iff_of_bracket :
    let source := "<$\x7bb\x7d>".toList
    let m : Masked :=
      ⟨[.template ['<'], .construct "ʾ0_ʿ".toList ⟨"$\x7bb\x7d".toList, .elExpression⟩,
        .template ['>']]⟩
    ofSource source {} none = .ok m ∧
      (∀ before q, (Page.standard source none 20).Cuts (TokenStream.start source true) before q →
        q.elEnabled = true) ∧
      ¬Fused m.segments := by
  intro source m
  have hmasked : ofSource source {} none = .ok m := by
    decide +kernel
  have hkinds : ∀ t ∈ (TokenStream.ofSource source {} none none).tokens, t.kind ≠ .directive := by
    decide +kernel
  have hel : ∀ before q, (Page.standard source none 20).Cuts (TokenStream.start source true) before
      q → q.elEnabled = true :=
    fun before q hcuts => TokenStream.elEnabled_of_no_directive hkinds hcuts
  have hlexed : (TokenStream.ofSource m.text {} none (some true)).complete =
      .ok [⟨.templateText, m.text, 0⟩] := by
    decide +kernel
  exact ⟨hmasked, hel, (neutral_iff hmasked hel {} none).1 ⟨_, hlexed, by simp⟩⟩

/-- A dollar sign in front of a short start tag over two lines becomes the mark of an expression. -/
theorem neutral_lost_behind_dollar :
    let source := "$<a:bc\n>x</a:bc>".toList
    let m : Masked :=
      ⟨[.template ['$'], .construct "\x7b/*ʃ\n*/".toList ⟨"<a:bc\n>".toList, .startTag⟩,
        .template ['x'], .construct "\x7d/*ʅʅ*/".toList ⟨"</a:bc>".toList, .endTag⟩]⟩
    ofSource source {} none = .ok m ∧
      (∀ before q, (Page.standard source none 20).Cuts (TokenStream.start source true) before q →
        q.elEnabled = true) ∧
      (TokenStream.ofSource m.text {} none (some true)).complete =
        .ok [⟨.elExpression, "$\x7b/*ʃ\n*/x\x7d".toList, 0⟩,
          ⟨.templateText, "/*ʅʅ*/".toList, 10⟩] := by
  intro source m
  have hmasked : ofSource source {} none = .ok m := by
    decide +kernel
  have hkinds : ∀ t ∈ (TokenStream.ofSource source {} none none).tokens, t.kind ≠ .directive := by
    decide +kernel
  refine ⟨hmasked, fun before q hcuts => TokenStream.elEnabled_of_no_directive hkinds hcuts, ?_⟩
  decide +kernel

end Masked

end Stencil
