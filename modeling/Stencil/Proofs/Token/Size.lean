import Stencil.Proofs.Text.Slicing
import Stencil.Proofs.Token.Alone
import Stencil.Proofs.Token.Switching

/-!
# How long constructs are

How many characters a construct has at least besides its line breaks and indentation. The fixed
texts of its rule alone are that long, whatever stands between them (`Matcher.Spans`), and a tag has
a name of three characters or more (`TokenStream.leastSigns_le_net`).
-/

set_option autoImplicit false

namespace Stencil

open Jsp (Construct Production Rule endTagStop?)

namespace Text

/-- The number of characters that neither break a line nor indent one. -/
def signCount (t : Text) : Nat := t.countP (!isLayout ·)

/-- The signs of two texts are counted together. -/
theorem signCount_append (s t : Text) : signCount (s ++ t) = signCount s + signCount t :=
  List.countP_append

/-- A text has no more signs than characters. -/
theorem signCount_le_length (t : Text) : signCount t ≤ t.length := List.countP_le_length

/-- Layout alone has no signs. -/
theorem signCount_eq_zero {t : Text} (h : ∀ c ∈ t, isLayout c = true) : signCount t = 0 := by
  rw [signCount, List.countP_eq_zero]
  intro c hc
  simp [h c hc]

/-- What is white space in a name or a tag may belong to the layout, and nothing else does. -/
theorem isXmlSpace_of_isLayout {c : Char} (h : isLayout c = true) : isXmlSpace c = true := by
  have hcases : c = '\r' ∨ c = '\n' ∨ c = ' ' ∨ c = '\t' := by
    simpa [isLayout, isIndent, or_assoc] using h
  rcases hcases with rfl | rfl | rfl | rfl <;> decide

/-- A text without white space is all signs. -/
theorem signCount_eq_length {t : Text} (h : ∀ c ∈ t, isXmlSpace c = false) :
    signCount t = t.length := by
  rw [signCount, List.countP_eq_length]
  intro c hc
  rw [Bool.not_eq_true', ← Bool.not_eq_true]
  intro hlayout
  have hspace := h c hc
  rw [isXmlSpace_of_isLayout hlayout] at hspace
  cases hspace

end Text

namespace Layout

open Text (signCount)

/-- The signs of a text over lines are among those of its slices. -/
theorem signCount_zipWith_le (lines : List LineShape) (later : List Text)
    (h : ∀ line ∈ lines, ∀ c ∈ line.ending ++ line.indent, Text.isLayout c = true) :
    signCount (List.zipWith (fun line slice => line.ending ++ line.indent ++ slice) lines
      later).flatten ≤ (later.map List.length).sum := by
  induction lines generalizing later with
  | nil => exact Nat.zero_le _
  | cons line lines ih =>
      cases later with
      | nil => exact Nat.zero_le _
      | cons slice later =>
          obtain ⟨hline, hlines⟩ := List.forall_mem_cons.1 h
          have hslice := Text.signCount_le_length slice
          have hothers := ih later hlines
          rw [List.zipWith_cons_cons, List.flatten_cons, Text.signCount_append,
            Text.signCount_append, Text.signCount_eq_zero hline, List.map_cons, List.sum_cons]
          omega

/-- Line breaks and indentation are all that a layout leaves out of account. -/
theorem signCount_le_net (t : Text) : signCount t ≤ (Layout.of t).net := by
  obtain ⟨first, later, hlay, hwidths, -⟩ := exists_lay t
  have hlater := signCount_zipWith_le (Layout.of t).later later
    fun line hline c hc => isLayout_of_mem_frame hline hc
  have hfirst := Text.signCount_le_length first
  have hnet : (Layout.of t).net = first.length + (later.map List.length).sum := by
    rw [net_eq_sum, ← hwidths, List.map_cons, List.sum_cons]
  rw [hnet]
  conv_lhs => rw [hlay, lay, Text.signCount_append]
  omega

end Layout

/-! ## What is read has at least so many characters -/

namespace Matcher

variable {ν : Type} {rules : Rules ν} {m : Matcher ν} {ms : List (Matcher ν)} {n k : Nat}

/-- All that is read has at least so many characters that neither break a line nor indent one. -/
def Spans (rules : Rules ν) (n : Nat) (m : Matcher ν) : Prop :=
  ∀ ⦃view c stop view'⦄, m.Parses rules view c (.ends stop view') →
    ∃ t, c.Leads t stop ∧ n ≤ t.signCount

/-- All that is read has at least no signs. -/
theorem spans_zero (m : Matcher ν) : Spans rules 0 m := by
  intro view c stop view' h
  obtain ⟨t, ht⟩ := h.moves
  exact ⟨t, ht, Nat.zero_le _⟩

/-- A fixed text spans its signs. -/
theorem spans_literal {text : Text} {nonempty : text ≠ []} (h : n ≤ text.signCount) :
    Spans rules n (literal text nonempty) :=
  fun _ _ _ _ hparses => ⟨text, leads_of_parses_literal hparses, h⟩

/-- A sequence spans what its parts do together. -/
theorem Spans.sequence_cons (h : Spans rules n m) (hothers : Spans rules k (sequence ms)) :
    Spans rules (n + k) (sequence (m :: ms)) := by
  intro view c stop view' hparses
  obtain ⟨c₁, view₁, hfirst, hrest⟩ := hparses.of_sequence_cons
  obtain ⟨t, ht, hle⟩ := h hfirst
  obtain ⟨t', ht', hle'⟩ := hothers hrest
  refine ⟨t ++ t', ht.trans ht', ?_⟩
  rw [Text.signCount_append]
  omega

/-- What is read up to a terminator spans what the terminator does. -/
theorem Spans.upTo (h : Spans rules n m) (body : Matcher ν) : Spans rules n (upTo body m) := by
  intro view c stop view' hparses
  obtain ⟨t, c₁, view₁, hleads, hending⟩ := hparses.of_upTo
  obtain ⟨t', hleads', hle⟩ := h hending
  refine ⟨t ++ t', hleads.trans hleads', ?_⟩
  rw [Text.signCount_append]
  omega

/-- A choice spans what all its alternatives do. -/
theorem Spans.oneOf (h : ∀ m ∈ ms, Spans rules n m) : Spans rules n (oneOf ms) := by
  intro view c stop view' hparses
  obtain ⟨m, hmem, hm⟩ := hparses.exists_choice
  exact h m hmem hm

/-- A condition changes nothing of what is spanned. -/
theorem Spans.when (h : Spans rules n m) (test : Condition) : Spans rules n (when test m) :=
  fun _ _ _ _ hparses => h hparses.of_when

end Matcher

/-- The fewest characters besides line breaks and indentation that a token of a kind has. -/
def Kind.leastSigns : Kind → Nat
  | .templateText => 0
  | .comment => 8
  | .directive | .declaration | .expression => 5
  | .scriptlet => 4
  | .elExpression => 3
  | .portletNamespace => 20
  | .startTag => 5
  | .endTag | .emptyTag => 6

namespace Jsp

open Matcher (Spans)

/-- A reference spans what its production does. -/
theorem spans_ref {n : Nat} {r : Rule} (h : Spans rules n (production r)) :
    Spans rules n (.ref r) :=
  fun _ _ _ _ hparses => h (parses_ref_iff.1 hparses)

/-- The fixed texts of a construct are as long as its kind says. -/
theorem production_spans {e : Construct Rule} (he : e ∈ constructs) :
    Spans rules e.kind.leastSigns (production e.whole) := by
  have htext {n : Nat} (s : String) (nonempty : s.toList ≠ []) (h : n ≤ Text.signCount s.toList) :
      Spans rules n (text s nonempty) := Matcher.spans_literal h
  have hsingle {n : Nat} {m : Production} (h : Spans rules n m) : Spans rules n (.sequence [m]) :=
    h.sequence_cons (Matcher.spans_zero _)
  simp only [constructs, List.mem_cons, List.not_mem_nil, or_false] at he
  rcases he with rfl | rfl | rfl | rfl | rfl | rfl | rfl
  · have hstart : Spans rules 4 (.ref .commentStart) := spans_ref (htext _ _ (by decide))
    exact hstart.sequence_cons (hsingle ((htext (n := 4) _ _ (by decide)).upTo _))
  · have hstart : Spans rules 3 (.ref .directiveStart) := spans_ref (htext _ _ (by decide))
    have hclose : Spans rules 2 (.ref .close) := spans_ref (htext _ _ (by decide))
    exact hstart.sequence_cons ((Matcher.spans_zero _).sequence_cons
      ((Matcher.spans_zero _).sequence_cons
        ((Matcher.spans_zero _).sequence_cons (hsingle hclose))))
  · have hstart : Spans rules 3 (.ref .declarationStart) := spans_ref (htext _ _ (by decide))
    exact hstart.sequence_cons (hsingle ((htext (n := 2) _ _ (by decide)).upTo _))
  · have hstart : Spans rules 3 (.ref .expressionStart) := spans_ref (htext _ _ (by decide))
    exact hstart.sequence_cons (hsingle ((htext (n := 2) _ _ (by decide)).upTo _))
  · have hstart : Spans rules 2 (.ref .scriptletStart) := spans_ref (htext _ _ (by decide))
    exact hstart.sequence_cons (hsingle ((htext (n := 2) _ _ (by decide)).upTo _))
  · have hstart : Spans rules 2 (.ref .elExpressionStart) := by
      refine spans_ref ((Spans.oneOf ?_).when _)
      simp only [List.forall_mem_cons]
      exact ⟨htext _ _ (by decide), htext _ _ (by decide), by simp⟩
    have hbody : Spans rules 1 (.ref .elBody) :=
      spans_ref ((htext (n := 1) _ _ (by decide)).upTo _)
    exact (hstart.sequence_cons (hsingle hbody)).when _
  · intro view c stop view' hparses
    rw [production, Matcher.parses_pattern_iff, Matcher.ofStop_eq_ends_iff] at hparses
    obtain ⟨blanks, hleads⟩ := Cursor.leads_around (by decide) hparses.1
    refine ⟨_, hleads, ?_⟩
    rw [Text.signCount_append, Text.signCount_append]
    have hfirst : Text.signCount "<portlet:namespace".toList = 18 := by decide
    have hlast : Text.signCount "/>".toList = 2 := by decide
    rw [hfirst, hlast, Kind.leastSigns]
    omega

end Jsp

/-! ## Tags -/

namespace Text

/-- A qualified name has three signs: its colon, and one on each side. -/
theorem IsQName.signCount_ge {name : Text} (h : name.IsQName) : 3 ≤ name.signCount := by
  rw [signCount_eq_length h.not_space]
  obtain ⟨lead, behind, ⟨c, t, rfl, -⟩, ⟨d, t', rfl, -⟩, rfl⟩ := h
  simp only [List.length_append, List.length_cons]
  omega

/-- A start tag has four signs: its bracket, and its name. -/
theorem OpensTag.signCount_ge {name t : Text} (h : OpensTag name t) : 4 ≤ t.signCount := by
  obtain ⟨hname, behind, rfl, -⟩ := h
  have hge := hname.signCount_ge
  have hbracket : signCount ['<'] = 1 := by decide
  rw [← List.singleton_append, signCount_append, signCount_append, hbracket]
  omega

/-- An end tag has three signs besides its name. -/
theorem EndsTag.signCount_ge {name t : Text} (h : EndsTag name t) (hname : 3 ≤ name.signCount) :
    6 ≤ t.signCount := by
  obtain ⟨blanks, -, rfl⟩ := h
  have hopen : signCount ['<', '/'] = 2 := by decide
  have hclose : signCount ['>'] = 1 := by decide
  have hsplit :
      '<' :: '/' :: (name ++ (blanks ++ ['>'])) = ['<', '/'] ++ (name ++ (blanks ++ ['>'])) := rfl
  rw [hsplit, signCount_append, signCount_append, signCount_append, hopen, hclose]
  omega

end Text

/-! ## Tokens -/

namespace TokenStream

/-- A construct is told from tags by its kind, and its fixed texts have their length. -/
theorem leastSigns_le_of_construct {source : Text} {settings : Settings} {file : Option String}
    {elEnabled : Option Bool} {before after : List Token} {t : Token}
    (h : (ofSource source settings file elEnabled).tokens = before ++ t :: after)
    (hkind : t.kind ∈ Jsp.constructs.map fun e => e.kind) :
    t.kind.leastSigns ≤ t.value.signCount := by
  obtain ⟨q, s, q', -, -, hsees, hcuts⟩ := exists_cutsOff h
  obtain ⟨e, hfirst, hsort, hparses⟩ := hsees.exists_construct (hcuts.kind ▸ hkind)
  rw [Jsp.rule, Matcher.parses_labelled_iff] at hparses
  obtain ⟨value, hleads, hle⟩ :=
    Jsp.production_spans (List.mem_of_find?_eq_some hfirst) hparses
  rw [hcuts.kind, hsort, hcuts.leads.unique hleads]
  exact hle

/-- Every token of a page that was cut to its end has as many characters besides line breaks and
indentation as its kind has at least. -/
theorem leastSigns_le_net {source : Text} {settings : Settings} {file : Option String}
    {elEnabled : Option Bool} {tokens : List Token}
    (h : (ofSource source settings file elEnabled).complete = .ok tokens) :
    ∀ t ∈ tokens, t.kind.leastSigns ≤ (Layout.of t.value).net := by
  intro t ht
  refine le_trans ?_ (Layout.signCount_le_net t.value)
  obtain ⟨before, after, rfl⟩ := List.append_of_mem ht
  obtain ⟨justOpened, hfits, -⟩ := (nested_of_complete h).of_append
  cases hkind : t.kind with
  | templateText => exact Nat.zero_le _
  | startTag =>
      obtain ⟨name, ⟨-, opening, hname, hvalue⟩, -⟩ := hfits.opens hkind
      have hbracket : Text.signCount ['>'] = 1 := by decide
      rw [hvalue, Text.signCount_append, hbracket]
      exact Nat.add_le_add_right hname.signCount_ge 1
  | endTag =>
      obtain ⟨-, _, _, name, -, ⟨-, opening, hname, -⟩, -, hends⟩ := hfits.closes hkind
      exact hends.signCount_ge hname.1.signCount_ge
  | emptyTag =>
      obtain ⟨name, -, opening, hname, hvalue⟩ := hfits.both hkind
      have hopening := hname.signCount_ge
      rcases hvalue with hvalue | ⟨ending, hending, hvalue⟩
      · have hslash : Text.signCount "/>".toList = 2 := by decide
        rw [hvalue, Text.signCount_append, hslash]
        exact Nat.add_le_add_right hopening 2
      · have hclose := hending.signCount_ge hname.1.signCount_ge
        have hbracket : Text.signCount ['>'] = 1 := by decide
        rw [hvalue, Text.signCount_append, ← List.singleton_append, Text.signCount_append,
          hbracket, Kind.leastSigns]
        omega
  | _ =>
      rw [← hkind]
      exact leastSigns_le_of_construct (complete_eq_ok_iff.1 h).1 (by rw [hkind]; decide)

end TokenStream

end Stencil
