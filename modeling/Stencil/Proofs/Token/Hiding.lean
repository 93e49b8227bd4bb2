import Stencil.Proofs.Token.Running

/-!
# Template text hides no construct

Template text goes on as long as no construct starts, so that no two tokens of it lie side by side,
nothing that would start a construct stands inside of it, and what follows it is a construct, though
never an expression of the expression language behind a backslash. What a dollar or hash sign means
depends on the switch for that language, which the start of the token decides.
-/

set_option autoImplicit false

namespace Stencil

open Jsp (Rule startsConstruct templateRun behindBackslash)

namespace Page

variable {source : Text} {file : Option String} {n : Int} {p : Page} {view : View}
  {openTags : List OpenTag} {c : Cursor} {s : Sighting} {q q' : Progress} {t : Token}

/-- Template text is seen where no construct starts, and up to the next one. -/
theorem Sees.of_templateText (h : p.Sees view openTags c (.ok s)) (hkind : s.kind = .templateText) :
    startsConstruct (Jsp.elEnabled.holds view) false c.rest = false ∧
      c.Leads (templateRun (Jsp.elEnabled.holds view) false c.rest) s.stop ∧
      s.attempt.store.view = view := by
  cases h with
  | construct hfirst hkind' =>
      rw [hkind'] at hkind
      exact absurd hkind (kind_of_construct? hfirst)
  | endTag _ hkind' | emptyTag _ _ hkind' | closedTag _ _ _ _ hkind' | startTag _ _ _ _ _ hkind' =>
      rw [hkind'] at hkind
      cases hkind
  | templateText hnone hnot _ hleads _ hview => exact ⟨hnot, hleads, hview⟩

/-- An expression of the expression language is seen behind its mark. -/
theorem Sees.of_elExpression (h : p.Sees view openTags c (.ok s)) (hkind : s.kind = .elExpression) :
    Jsp.delimits (Jsp.elEnabled.holds view) c.rest .elExpressionStart = true := by
  cases h with
  | @construct e s hfirst hkind' =>
      have hall : ∀ e ∈ Jsp.constructs, e.kind = .elExpression →
          e.delimiter = .elExpressionStart := by decide
      have hdelimits := List.find?_some hfirst
      rwa [hall e (List.mem_of_find?_eq_some hfirst) (hkind'.symm.trans hkind)] at hdelimits
  | endTag _ hkind' | emptyTag _ _ hkind' | closedTag _ _ _ _ hkind' | startTag _ _ _ _ _ hkind'
  | templateText _ _ hkind' =>
      rw [hkind'] at hkind
      cases hkind

/-- A token of template text is the run of template text at its place. -/
theorem next_templateText (hq : q.Steady source) (hrest : q.rest ≠ [])
    (h : (standard source file n).next q = .ok (t, q')) (hkind : t.kind = .templateText) :
    startsConstruct q.elEnabled false q.rest = false ∧ q'.elEnabled = q.elEnabled ∧
      t.value = templateRun q.elEnabled false q.rest ∧ q.rest = t.value ++ q'.rest ∧
      t.offset = q.offset ∧ q'.Steady source := by
  obtain ⟨s, hsees, hcuts⟩ := next_cutsOff hq hrest h
  obtain ⟨hnot, hleads, hview⟩ := hsees.of_templateText (hcuts.kind.symm.trans hkind)
  have hvalue := hcuts.leads.unique hleads
  refine ⟨hnot, ?_, hvalue, ?_, hcuts.offset, hcuts.steady⟩
  · rw [Progress.elEnabled, hcuts.store, hview]
    rfl
  · have hplace : q'.rest = s.stop.rest := by rw [← hcuts.place]; rfl
    rw [hplace]
    exact hcuts.leads.rest_eq

/-- Behind template text stands no template text, and no expression of the expression language if
the text ends with a backslash. -/
theorem kind_behind_templateText {t' : Token} {q'' : Progress} (hq : q.Steady source)
    (hrest : q.rest ≠ []) (h : (standard source file n).next q = .ok (t, q'))
    (hkind : t.kind = .templateText) (hrest' : q'.rest ≠ [])
    (h' : (standard source file n).next q' = .ok (t', q'')) :
    t'.kind ≠ .templateText ∧ (t'.kind = .elExpression → ∀ lead, t.value ≠ lead ++ ['\\']) := by
  obtain ⟨hnot, hel, hvalue, hsplit, -, hq'⟩ := next_templateText hq hrest h hkind
  obtain ⟨rest, hsplit', hend⟩ := Jsp.exists_templateRun_append q.elEnabled false q.rest
  have hrest_eq : q'.rest = rest := by
    rw [← hvalue, hsplit] at hsplit'
    exact List.append_cancel_left hsplit'
  rw [← hvalue, ← hrest_eq] at hend
  have hstarts := hend.resolve_left hrest'
  constructor
  · intro hkind'
    obtain ⟨hnot', -⟩ := next_templateText hq' hrest' h' hkind'
    rw [hel, Jsp.startsConstruct_unescaped hstarts] at hnot'
    cases hnot'
  · intro hkind' lead hlead
    obtain ⟨s, hsees, hcuts⟩ := next_cutsOff hq' hrest' h'
    have hdelimits := hsees.of_elExpression (hcuts.kind.symm.trans hkind')
    -- behind a backslash only an angle bracket starts something
    rw [Jsp.behindBackslash_iff.2 ⟨lead, hlead⟩] at hstarts
    have hmark : (q'.place.rest : Text) = q'.rest := rfl
    simp only [Jsp.delimits, Bool.and_eq_true, Bool.or_eq_true, List.isPrefixOf_iff_prefix, hmark]
      at hdelimits
    obtain ⟨-, ⟨rest', heq⟩ | ⟨rest', heq⟩⟩ := hdelimits <;> rw [← heq] at hstarts <;>
      simp [startsConstruct] at hstarts

/-- No construct starts at a character of template text, where a backslash in front of the character
and in the same token counts. -/
theorem not_startsConstruct_in_templateText (hq : q.Steady source) (hrest : q.rest ≠ [])
    (h : (standard source file n).next q = .ok (t, q')) (hkind : t.kind = .templateText)
    {lead behind : Text} {x : Char} (hvalue : t.value = lead ++ x :: behind) :
    startsConstruct q.elEnabled (behindBackslash false lead)
      (x :: source.drop (t.offset + lead.length + 1)) = false := by
  obtain ⟨-, -, hrun, hsplit, hoffset, -⟩ := next_templateText hq hrest h hkind
  rw [hrun] at hsplit hvalue
  have hnot := Jsp.not_startsConstruct_of_run hsplit hvalue
  have hdrop : source.drop (t.offset + lead.length + 1) = behind ++ q'.rest := by
    rw [hoffset, Nat.add_assoc, ← List.drop_drop, ← hq.rest_eq, hsplit, hvalue]
    simp [← List.drop_drop]
  rw [hdrop]
  exact hnot

end Page

/-- What it means that no construct starts at a character: an angle bracket is in front of neither a
percent sign nor a qualified name, with or without a slash, and a dollar or hash sign in front of a
brace stands behind a backslash or where the expression language is off. -/
theorem Jsp.not_startsConstruct_iff {el : Bool} {lead rest : Text} {x : Char} :
    startsConstruct el (behindBackslash false lead) (x :: rest) = false ↔
      (x = '<' → (∀ more, rest ≠ '%' :: more) ∧
        (∀ name more, Text.IsQName name → rest ≠ name ++ more) ∧
        ∀ name more, Text.IsQName name → rest ≠ '/' :: (name ++ more)) ∧
      (x = '$' ∨ x = '#' → (∃ more, rest = '{' :: more) →
        (∃ lead', lead = lead' ++ ['\\']) ∨ el = false) := by
  rw [← Jsp.behindBackslash_iff, ← Jsp.startsBrace_iff, ← Bool.not_eq_true, startsConstruct,
    Bool.or_eq_true, not_or]
  apply and_congr
  · rw [Bool.and_eq_true, beq_iff_eq, not_and, Jsp.startsMarkup_iff, Text.startsQName_iff]
    refine imp_congr_right fun _ => ?_
    simp only [Text.startsQName_iff]
    grind
  · simp only [Jsp.isElMark]
    grind

namespace TokenStream

/-- Template text hides no construct and does not split. In the tokens of a page, also of one that
is not cut to its end, no token of template text is followed by another one. No angle bracket inside
of it is in front of a percent sign, of a qualified name or of a slash and a qualified name in the
source. A dollar or hash sign inside of it that is in front of a brace in the source stands directly
behind a backslash of the same token, or the expression language is off where the token starts. And
no expression of the expression language stands directly behind a backslash of template text. -/
theorem templateText_hides_nothing (source : Text) (settings : Settings) (file : Option String)
    (elEnabled : Option Bool) :
    let page := Page.standard source file settings.excerptLength
    let first := start source (elEnabled.getD settings.elEnabled)
    let tokens := (ofSource source settings file elEnabled).tokens
    (∀ before t t' after, tokens = before ++ t :: t' :: after → t.kind = .templateText →
      t'.kind ≠ .templateText ∧ (t'.kind = .elExpression → ∀ lead, t.value ≠ lead ++ ['\\'])) ∧
    ∀ before t after, tokens = before ++ t :: after → t.kind = .templateText →
      ∃ q, page.Cuts first before q ∧ q.offset = t.offset ∧
        ∀ lead x behind, t.value = lead ++ x :: behind →
          let rest := source.drop (t.offset + lead.length + 1)
          (x = '<' → (∀ more, rest ≠ '%' :: more) ∧
            (∀ name more, Text.IsQName name → rest ≠ name ++ more) ∧
            ∀ name more, Text.IsQName name → rest ≠ '/' :: (name ++ more)) ∧
          (x = '$' ∨ x = '#' → (∃ more, rest = '{' :: more) →
            (∃ lead', lead = lead' ++ ['\\']) ∨ q.elEnabled = false) := by
  intro page first tokens
  obtain ⟨q₀, hcuts, -⟩ := exists_cuts source settings file elEnabled
  have hfirst := steady_start source (elEnabled.getD settings.elEnabled)
  have hsplit {before after : List Token} (h : tokens = before ++ after) :
      ∃ q, page.Cuts first before q ∧ page.Cuts q after q₀ ∧ q.Steady source := by
    have hcuts : page.Cuts first tokens q₀ := hcuts
    rw [h] at hcuts
    obtain ⟨q, hbefore, hafter⟩ := hcuts.of_append
    exact ⟨q, hbefore, hafter, hbefore.steady hfirst⟩
  constructor
  · intro before t t' after htokens hkind
    obtain ⟨q, -, hafter, hq⟩ := hsplit htokens
    cases hafter with
    | cons hrest hnext hafter =>
        cases hafter with
        | cons hrest' hnext' _ =>
            exact Page.kind_behind_templateText hq hrest hnext hkind hrest' hnext'
  · intro before t after htokens hkind
    obtain ⟨q, hbefore, hafter, hq⟩ := hsplit htokens
    cases hafter with
    | cons hrest hnext _ =>
        obtain ⟨-, -, -, -, hoffset, -⟩ := Page.next_templateText hq hrest hnext hkind
        refine ⟨q, hbefore, hoffset.symm, fun lead x behind hvalue => ?_⟩
        exact Jsp.not_startsConstruct_iff.1
          (Page.not_startsConstruct_in_templateText hq hrest hnext hkind hvalue)

/-- An escaped dollar sign and a lone angle bracket in template text, and an expression behind it.
-/
theorem templateText_hides_nothing_of_escape :
    let source := "a\\$\x7bb\x7d<1 $\x7bc\x7d".toList
    let text : Token := ⟨.templateText, "a\\$\x7bb\x7d<1 ".toList, 0⟩
    let expression : Token := ⟨.elExpression, "$\x7bc\x7d".toList, 9⟩
    (ofSource source {} none none).tokens = [text, expression] ∧
      (∀ lead, text.value ≠ lead ++ ['\\']) ∧
      ((∃ lead, "a\\".toList = lead ++ ['\\']) ∨
        (start source true).elEnabled = false) := by
  intro source text expression
  have htokens : (ofSource source {} none none).tokens = [text, expression] := by
    decide +kernel
  obtain ⟨hnext, hinside⟩ := templateText_hides_nothing source {} none none
  obtain ⟨q, hcuts, -, hq⟩ := hinside [] text [expression] htokens rfl
  obtain rfl : q = start source true := Page.cuts_nil_iff.1 hcuts
  refine ⟨htokens, (hnext [] text expression [] htokens rfl).2 rfl, ?_⟩
  exact (hq "a\\".toList '$' "\x7bb\x7d<1 ".toList rfl).2 (.inl rfl) ⟨_, rfl⟩

end TokenStream

end Stencil
