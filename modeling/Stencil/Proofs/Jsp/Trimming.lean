import Stencil.Proofs.Jsp.Delimiters
import Stencil.Proofs.Matcher.Cutting
import Stencil.Proofs.Token.Delimiting

/-!
# Cutting a page off behind a token: names, scripts and expressions

All constructs but template text end with a bracket or brace. White space and names hold none and so
are tame; scripts and expressions are rigid, since no fixed text holds one but at its end and
nothing that a rule looks ahead for is one.

The maps in hand when the whole page is read and when the token is read alone are not the same. They
agree on whether the expression language is on, and from the start of a tag on also on the names of
its attributes (`Jsp.Alike`).
-/

set_option autoImplicit false

namespace Stencil.Jsp

open Matcher (maybe oneOf pattern ref sequence upTo Misses)
open Text (closesConstruct)

/-! ## Maps that are alike -/

/-- Maps that agree on the switch of the expression language, and on the names of the attributes of
the tag at hand if there is one. -/
structure Alike (inTag : Bool) (view view' : View) : Prop where
  el : elEnabled.holds view' = elEnabled.holds view
  names : inTag = true → attributeNames view' = attributeNames view

/-- A page that is cut off behind a construct. -/
def trim (inTag : Bool) (behind : Text) : Trim Rule := ⟨rules, behind, closesConstruct, Alike inTag⟩

section Alike

variable {inTag : Bool} {view view' : View} {w : Text}

/-- Maps that are alike inside a tag are so outside of it. -/
theorem Alike.leaveTag (h : Alike inTag view view') : Alike false view view' :=
  ⟨h.el, nofun⟩

/-- Maps that are alike stay so under one change. -/
theorem Alike.edit (h : Alike inTag view view') (e : Edit) :
    Alike inTag (view.edit e) (view'.edit e) := by
  obtain ⟨hel, hnames⟩ := h
  simp only [elEnabled, attributeNames] at hel hnames
  constructor
  · cases e <;> simp only [elEnabled, View.edit] <;> split <;> trivial
  · intro htag
    cases e <;> simp only [attributeNames, View.edit] <;> split <;>
      first | rfl | exact hnames htag

/-- Maps that are alike stay so under changes in order. -/
theorem Alike.edits (h : Alike inTag view view') (es : List Edit) :
    Alike inTag (view.edits es) (view'.edits es) := by
  induction es generalizing view view' with
  | nil => exact h
  | cons e es ih => exact ih (h.edit e)

/-- A hook on a match that answers the same to maps that are alike. -/
theorem keeps_of_hook {hook : MatchHook}
    (h : ∀ text view view', Alike inTag view view' → hook text view' = hook text view) :
    (trim inTag w).HooksKeep (Alike inTag) [] [hook] where
  enter _ _ halike := halike
  leave text position position' view view' left halike hleave := by
    simp only [View.leave, h text view view' halike] at hleave ⊢
    split at hleave
    · rename_i es heq
      cases hleave
      exact ⟨_, rfl, halike.edits es⟩
    · cases hleave

/-- Recording the name of an attribute keeps maps alike. -/
theorem keeps_recordAttributeName :
    (trim true w).HooksKeep (Alike true) [] [recordAttributeName] :=
  keeps_of_hook fun text view view' halike => by
    rw [recordAttributeName, recordAttributeName, halike.names rfl]

/-- Recording the name of an attribute of a page directive keeps maps alike. -/
theorem keeps_recordPageAttributeName :
    (trim true w).HooksKeep (Alike true) [] [recordPageAttributeName] :=
  keeps_of_hook fun text view view' halike => by
    rw [recordPageAttributeName, recordPageAttributeName, recordAttributeName, recordAttributeName,
      halike.names rfl]

/-- Checking a library directive keeps maps alike. -/
theorem keeps_checkTaglibAttributes :
    (trim true w).HooksKeep (Alike true) [] [checkTaglibAttributes] :=
  keeps_of_hook fun text view view' halike => by
    rw [checkTaglibAttributes, checkTaglibAttributes, halike.names rfl]

/-- Switching the expression language keeps maps alike. -/
theorem keeps_switchEl (on : Bool) : (trim inTag w).HooksKeep (Alike inTag) [] [switchEl on] :=
  keeps_of_hook fun _ _ _ _ => rfl

/-- Remembering the name of a tag keeps maps alike. -/
theorem keeps_captureTagName : (trim inTag w).HooksKeep (Alike inTag) [] [captureTagName] :=
  keeps_of_hook fun _ _ _ _ => rfl

/-- A tag starts with no names of attributes, whatever was in the map before. -/
theorem keeps_resetAttributeNames {onMatch : List MatchHook}
    (h : (trim true w).HooksKeep (Alike true) [] onMatch) :
    (trim false w).HooksKeep (Alike true) [resetAttributeNames] onMatch where
  enter view view' halike :=
    ⟨(halike.edit (.set attributeNamesKey (.names []))).el, fun _ => rfl⟩
  leave text position position' view view' left halike hleave := by
    obtain ⟨left', hleave', halike'⟩ := h.leave text position position' _ _ _ halike hleave
    exact ⟨left', hleave', halike'.leaveTag⟩

/-- Where there are no hooks, maps stay alike. -/
theorem keeps_nil : (trim inTag w).HooksKeep (Alike inTag) [] [] where
  enter _ _ halike := halike
  leave _ _ _ _ _ _ halike hleave := by
    cases hleave
    exact ⟨_, rfl, halike⟩

end Alike

/-! ## Rules by name -/

section Names

variable {inTag : Bool} {w : Text} {n : Nat} {r : Rule} {P : Text → Prop} {p : Char → Bool}

/-- A rule is rigid if its production is. -/
theorem rigid_ref (h : (trim inTag w).Rigid n (production r)) : (trim inTag w).Rigid n (ref r) :=
  ⟨h.survives.labelled.ref rfl, h.perishes.labelled.ref rfl⟩

/-- A rule survives the cut if its production does. -/
theorem survives_ref (h : (trim inTag w).Survives P n (production r)) :
    (trim inTag w).Survives P n (ref r) :=
  h.labelled.ref rfl

/-- A rule is tame if its production is. -/
theorem tame_ref (h : (trim inTag w).Tame (production r)) : (trim inTag w).Tame (ref r) :=
  h.labelled.ref rfl

/-- A rule needs a first character of a class if its production does. -/
theorem misses_ref (h : Misses rules p (production r)) : Misses rules p (ref r) :=
  (h.labelled _).ref rfl

end Names

/-! ## Characters and names -/

/-- The characters that stand in front of a cut are those that end constructs. -/
theorem closesConstruct_iff {x : Char} : closesConstruct x = true ↔ x = '>' ∨ x = '}' := by
  simp [closesConstruct]

/-- A class without the closing bracket and the closing brace holds no character that ends a
construct. -/
theorem not_closes {isMember : Char → Bool} (hbracket : isMember '>' = false)
    (hbrace : isMember '}' = false) (x : Char) (hx : isMember x = true) :
    closesConstruct x = false := by
  rw [← Bool.not_eq_true, closesConstruct_iff]
  rintro (rfl | rfl)
  · rw [hbracket] at hx
    cases hx
  · rw [hbrace] at hx
    cases hx

section Leaves

variable {inTag : Bool} {w : Text} (n : Nat)

/-- A character is read as before in front of the cut, or the cut is in its place. -/
theorem rigid_char : (trim inTag w).Rigid n (ref .char) :=
  rigid_ref ((Trim.steady_charBefore fun _ _ _ => rfl).rigid n)

/-- What follows a character decides whether an expression starts with it, and a bracket or brace at
the end of a text starts none. -/
theorem rigid_elChar : (trim inTag w).Rigid n (pattern elChar) := by
  refine (Trim.steady_charBefore fun x t hlast => ?_).rigid n
  cases t with
  | nil =>
      have hmark : isElMark x = false := by
        rcases closesConstruct_iff.1 (hlast x rfl) with rfl | rfl <;> rfl
      simp [hmark]
  | cons y t =>
      have hbrace : startsBrace (y :: t ++ w) = startsBrace (y :: t) := by
        simp only [List.cons_append, startsBrace]
        split <;> simp_all
      simp only [trim, hbrace]

/-- A run of white space never comes as far as the cut, which stands behind a bracket or brace. -/
theorem tame_blankRun : (trim inTag w).Tame (pattern blankRun) :=
  Trim.tame_word (not_closes (by decide) (by decide)) (not_closes (by decide) (by decide))

/-- White space never comes as far as the cut. -/
theorem tame_space : (trim inTag w).Tame (ref .space) := tame_ref tame_blankRun

/-- White space fails where no white character stands. -/
theorem misses_space : Misses rules Text.isXmlSpace (ref .space) :=
  misses_ref Matcher.misses_word

/-- White space is read as before in front of the cut. -/
theorem rigid_space : (trim inTag w).Rigid n (ref .space) :=
  tame_space.rigid (takes_ref .space) misses_space n

/-- White space that may be missing survives the cut. -/
theorem survives_maybe_space : (trim inTag w).Survives (fun _ => True) n (maybe (ref .space)) :=
  (rigid_space n).survives.maybe (.inl (rigid_space n).perishes)

/-- A fixed text without a character that ends a construct never comes as far as the cut. -/
theorem tame_text (s : String) (nonempty : s.toList ≠ [])
    (h : s.toList.all fun x => !closesConstruct x) : (trim inTag w).Tame (text s nonempty) :=
  Trim.tame_literal (by simpa [trim] using h)

/-- An equality sign with white space around it never comes as far as the cut. -/
theorem tame_eq : (trim inTag w).Tame (ref .eq) := by
  refine tame_ref ?_
  exact tame_space.maybe.sequence_cons
    ((tame_text "=" (by decide) (by decide)).sequence_cons
      (tame_space.maybe.sequence_cons Trim.tame_sequence_nil))

/-- An equality sign with white space around it survives the cut. -/
theorem survives_eq : (trim inTag w).Survives (fun _ => True) n (ref .eq) :=
  tame_eq.survives (takes_ref .eq) _ n

/-- A name without a colon never comes as far as the cut. -/
theorem tame_ncName : (trim inTag w).Tame (ref .ncName) :=
  tame_ref (Trim.tame_word (not_closes (by decide) (by decide))
    (not_closes (by decide) (by decide)))

/-- A qualified name never comes as far as the cut. -/
theorem tame_qName : (trim inTag w).Tame (ref .qName) :=
  tame_ref (tame_ncName.sequence_cons
    ((tame_text ":" (by decide) (by decide)).sequence_cons
      (tame_ncName.sequence_cons Trim.tame_sequence_nil)))

end Leaves

/-! ## Scripts and expressions -/

/-- Whether a character is a given one. -/
def isChar (x y : Char) : Bool := y == x

section Rigid

variable {inTag : Bool} {w : Text} {n : Nat}

/-- A fixed text fails where its first character does not stand. -/
theorem misses_text {p : Char → Bool} {s : String} {nonempty : s.toList ≠ []}
    (h : s.toList.head?.any p = true) : Misses rules p (text s nonempty) :=
  Matcher.misses_literal h

/-- A fixed text that does not lie across the cut leaves nothing if it is cut off. -/
theorem shadows_text {p : Char → Bool} {s : String} {nonempty : s.toList ≠ []} {m : Production}
    (hclosed : s.toList.dropLast.all fun x => !closesConstruct x) (hm : Misses rules p m) :
    (trim inTag w).Shadows (text s nonempty) m :=
  Trim.shadows_literal (by simpa [trim] using hclosed) hm

/-- A repetition up to a fixed text is rigid if only the end of that text may end a construct. -/
theorem rigid_upTo {body : Production} {s : String} {nonempty : s.toList ≠ []}
    (hbody : (trim inTag w).Rigid n body) (ht : Matcher.Takes rules body)
    (hclosed : s.toList.dropLast.all fun x => !closesConstruct x) :
    (trim inTag w).Rigid n (upTo body (text s nonempty)) :=
  hbody.upTo ht (by simpa [trim] using hclosed)

/-- A script from its start up to a fixed text. -/
theorem rigid_script {start ending : String} {hstart : start.toList ≠ []}
    {hending : ending.toList ≠ []} {r : Rule} (hr : production r = text start hstart)
    (hclosed : ending.toList.dropLast.all fun x => !closesConstruct x) :
    (trim inTag w).Rigid n (sequence [ref r, upTo (ref .char) (text ending hending)]) := by
  refine (rigid_ref ?_).sequence_cons
    (rigid_upTo (rigid_char n) (takes_ref .char) hclosed).sequence_singleton
  rw [hr]
  exact Trim.rigid_literal n

/-- A quote, a body as often as it takes to reach the next quote, and that quote. -/
theorem rigid_between {quote : String} {body : Production} {nonempty : quote.toList ≠ []}
    (hbody : (trim inTag w).Rigid n body) (ht : Matcher.Takes rules body)
    (hquote : quote.toList.dropLast = []) :
    (trim inTag w).Rigid n (between quote body nonempty) :=
  (Trim.rigid_literal n).sequence_cons
    (rigid_upTo hbody ht (by simp [hquote])).sequence_singleton

/-- What stands between quotes fails where no quote stands. -/
theorem misses_between {p : Char → Bool} {quote : String} {body : Production}
    {nonempty : quote.toList ≠ []} (h : quote.toList.head?.any p = true) :
    Misses rules p (between quote body nonempty) :=
  (misses_text h).sequence_cons _

/-- The characters that may stand between quotes, two of which may be escapes. -/
theorem rigid_escapes {first second : String} {hfirst : first.toList ≠ []}
    {hsecond : second.toList ≠ []}
    (hfirst' : first.toList.dropLast.all fun x => !closesConstruct x)
    (hsecond' : second.toList.dropLast.all fun x => !closesConstruct x) :
    (trim inTag w).Rigid n (oneOf [text first hfirst, text second hsecond, ref .char]) := by
  have hnil : Misses rules (fun _ => true) (oneOf [ref .char]) :=
    (misses_ref (Matcher.misses_charBefore fun _ _ _ => rfl)).oneOf_cons Matcher.misses_oneOf_nil
  have htext : Misses rules (fun _ => true) (text second hsecond) :=
    misses_text (by
      obtain ⟨x, t, hcons⟩ := List.exists_cons_of_ne_nil hsecond
      rw [hcons]
      rfl)
  have hothers : (trim inTag w).Rigid n (oneOf [text second hsecond, ref .char]) :=
    (Trim.rigid_literal n).oneOf_cons (rigid_char n).oneOf_singleton (shadows_text hsecond' hnil)
  exact (Trim.rigid_literal n).oneOf_cons hothers
    (shadows_text hfirst' (htext.oneOf_cons hnil))

/-- An escape or a character takes a character. -/
theorem takes_escapes {first second : String} {hfirst : first.toList ≠ []}
    {hsecond : second.toList ≠ []} :
    Matcher.Takes rules (oneOf [text first hfirst, text second hsecond, ref .char]) :=
  Matcher.takes_of_not_nullable (by simp [text, production])

/-- Whether a character is a quote. -/
def isQuote (x : Char) : Bool := x == '\x22' || x == '\x27'

/-- A string in an expression fails where no quote stands. -/
theorem misses_elString : Misses rules isQuote (ref .elString) :=
  misses_ref ((misses_between rfl).oneOf_cons ((misses_between rfl).oneOf_cons
    Matcher.misses_oneOf_nil))

/-- A string in an expression is rigid. -/
theorem rigid_elString (n : Nat) : (trim inTag w).Rigid n (ref .elString) := by
  have hsingle : Misses rules (isChar '\x27')
      (oneOf [between "\x27" (oneOf [text "\\\\", text "\\\x27", ref .char])]) :=
    (misses_between rfl).oneOf_cons Matcher.misses_oneOf_nil
  refine rigid_ref ?_
  refine (rigid_between (rigid_escapes (by decide) (by decide))
    takes_escapes rfl).oneOf_cons ?_ ?_
  · exact (rigid_between (rigid_escapes (by decide) (by decide))
      takes_escapes rfl).oneOf_cons (Trim.rigid_oneOf_nil n)
        Trim.shadows_nil
  · refine (Trim.excludes_of_misses (misses_between (p := isChar '\x22') rfl) hsingle ?_).shadows
    intro x hx
    simp only [isChar, beq_iff_eq] at hx
    subst hx
    rfl

/-- Braces in an expression fail where no brace stands. -/
theorem misses_elBraces : Misses rules (isChar '{') (ref .elBraces) :=
  misses_ref ((misses_text rfl).sequence_cons _)

/-- Between braces stands what is left of an expression behind the first of them. -/
theorem rigid_elBraces (h : ∀ k < n, (trim inTag w).Rigid k (ref .elBodyChar)) :
    (trim inTag w).Rigid n (ref .elBraces) := by
  refine rigid_ref ?_
  refine (Trim.rigid_literal n).sequence_cons_of fun k hle hlt => ?_
  have hk := h k (hlt (Matcher.takes_of_not_nullable (by simp)))
  exact (rigid_upTo hk (takes_ref .elBodyChar) rfl).sequence_singleton

/-- Strings, braces and other characters of an expression start differently. -/
theorem rigid_elBodyChar (n : Nat) : (trim inTag w).Rigid n (ref .elBodyChar) := by
  induction n using Nat.strongRecOn with
  | ind n ih =>
      have helChar : Misses rules (fun x => !(x == '{' || isQuote x)) (oneOf [pattern elChar]) := by
        refine Matcher.Misses.oneOf_cons (Matcher.misses_charBefore fun x t h => ?_)
          Matcher.misses_oneOf_nil
        simp only [Bool.and_eq_true, Bool.not_eq_true', Bool.or_eq_false_iff] at h
        simp [isQuote, h.1]
      have helBraces : Misses rules (fun x => !isQuote x)
          (oneOf [ref .elBraces, pattern elChar]) := by
        refine (misses_elBraces.mono fun x hx => ?_).oneOf_cons (helChar.mono fun x hx => ?_)
        · simp only [isChar, beq_iff_eq] at hx
          subst hx
          rfl
        · simp only [Bool.not_eq_true', Bool.or_eq_false_iff] at hx
          simp [hx.2]
      refine rigid_ref ?_
      refine (rigid_elString n).oneOf_cons ((rigid_elBraces ih).oneOf_cons
        (rigid_elChar n).oneOf_singleton ?_) ?_
      · refine (Trim.excludes_of_misses misses_elBraces helChar fun x hx => ?_).shadows
        simp only [isChar, beq_iff_eq] at hx
        simp [hx]
      · refine (Trim.excludes_of_misses misses_elString helBraces fun x hx => ?_).shadows
        simp [hx]

/-- The start of an expression is rigid. -/
theorem rigid_elExpressionStart (n : Nat) : (trim inTag w).Rigid n (ref .elExpressionStart) := by
  have hhash : Misses rules (isChar '#') (oneOf [text "#\x7b"]) :=
    (misses_text rfl).oneOf_cons Matcher.misses_oneOf_nil
  refine rigid_ref (Trim.Rigid.when ?_ onlyAsks_elEnabled fun _ _ halike => halike.el)
  refine (Trim.rigid_literal n).oneOf_cons
    (Trim.rigid_literal n).oneOf_singleton ?_
  exact shadows_text rfl hhash

/-- An expression of the expression language is found in front of the cut if it ended there, and not
otherwise. -/
theorem rigid_elExpression (n : Nat) : (trim inTag w).Rigid n (production .elExpression) := by
  have hbody : (trim inTag w).Rigid n (ref .elBody) :=
    rigid_ref (rigid_upTo (rigid_elBodyChar n) (takes_ref .elBodyChar) rfl)
  refine Trim.Rigid.when ?_ onlyAsks_elEnabled fun _ _ halike => halike.el
  exact (rigid_elExpressionStart n).sequence_cons hbody.sequence_singleton

/-- A script expression is rigid. -/
theorem rigid_expression (n : Nat) : (trim inTag w).Rigid n (ref .expression) :=
  rigid_ref (rigid_script rfl (by decide))

/-- A quoted script expression fails where its quote does not stand. -/
theorem misses_runtime {p : Char → Bool} {quote : String} {nonempty : quote.toList ≠ []}
    (h : quote.toList.head?.any p = true) :
    Misses rules p (sequence [text quote nonempty, ref .expression, text quote nonempty]) :=
  (misses_text h).sequence_cons _

/-- A quoted script expression is rigid. -/
theorem rigid_runtime {quote : String} {nonempty : quote.toList ≠ []} :
    (trim inTag w).Rigid n (sequence [text quote nonempty, ref .expression, text quote nonempty]) :=
  (Trim.rigid_literal n).sequence_cons ((rigid_expression n).sequence_cons
    (Trim.rigid_literal n).sequence_singleton)

/-- A runtime value, in quotes of either sort, is rigid. -/
theorem rigid_runtimeValue (n : Nat) : (trim inTag w).Rigid n (ref .runtimeValue) := by
  refine rigid_ref (rigid_runtime.oneOf_cons rigid_runtime.oneOf_singleton ?_)
  refine (Trim.excludes_of_misses (misses_runtime (p := isChar '\x22') rfl)
    ((misses_runtime (p := isChar '\x27') rfl).oneOf_cons Matcher.misses_oneOf_nil) ?_).shadows
  intro x hx
  simp only [isChar, beq_iff_eq] at hx
  subst hx
  rfl

end Rigid

end Stencil.Jsp
