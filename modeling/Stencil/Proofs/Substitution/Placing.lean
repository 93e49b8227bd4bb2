import Stencil.Proofs.Placeholder.Building
import Stencil.Substitution

/-!
# Where placeholders are put

`Placed` says what the placeholder of a record may be, given the number of the record and which of
the open custom tags opened a block; `Masks` is substitution as a relation, token by token.
-/

set_option autoImplicit false

namespace Stencil

open Placeholder

/-- The placeholder that was put in the place of a record. The two lists tell for each open custom
tag, the innermost first, whether its placeholder opened a block, in front of the record and behind
it. -/
inductive Placed (number : Nat) : Record → List Bool → Found → List Bool → Prop
  | comment {r : Record} {braced : List Bool} {core : Text}
      (hkind : r.kind.family? = some .comment)
      (hcore : IsComment Sentinel.comment core ∨ IsLineComment core) :
      Placed number r braced ⟨.comment, [], core, []⟩ braced
  | identifier {r : Record} {braced : List Bool} {core trail : Text}
      (hkind : r.kind.family? = some .identifier) (hcore : IsName core)
      (htrail : trail = [] ∨ IsComment Sentinel.identifierEnd trail)
      (hnumber : IsNumbered (core ++ trail) number) :
      Placed number r braced ⟨.identifier, [], core, trail⟩ braced
  | opening {r : Record} {braced : List Bool} {form : OpeningForm} {f : Found}
      (hkind : r.kind.family? = some .opening) (hform : Opens form f)
      (hbuilt : Placeholder.opening (Layout.of r.construct) = some f.text) :
      Placed number r braced f (opensBlock f.text :: braced)
  | closing {r : Record} {isBraced : Bool} {below : List Bool} {core : Text}
      (hkind : r.kind.family? = some .closing) (hcore : IsComment Sentinel.closing core) :
      Placed number r (isBraced :: below)
        ⟨.closing, if isBraced then ['}'] else [], core, []⟩ below

namespace Masked

/-- The labels of identifiers are made of characters that may stand in labels. -/
theorem isLabelChar_of_mem_identifierLabel {k : Kind} {c : Char} (h : c ∈ k.identifierLabel) :
    isLabelChar c = true := by
  have hall : k.identifierLabel.all isLabelChar = true := by
    cases k <;> decide
  exact List.all_eq_true.1 hall c h

/-- The placeholder that a family makes of a token, and which of the open custom tags opened a block
afterwards. -/
inductive Built (source : Text) (settings : Settings) (t : Token) (number : Nat)
    (braced : List Bool) : Family → Text → List Bool → Prop
  | comment {p : Text}
      (hbuilt : Placeholder.comment (Layout.of t.value) (endsLine source settings t) = some p) :
      Built source settings t number braced .comment p braced
  | identifier {p : Text}
      (hbuilt : Placeholder.identifier (Layout.of t.value) t.kind.identifierLabel number = some p) :
      Built source settings t number braced .identifier p braced
  | opening {p : Text} (hbuilt : Placeholder.opening (Layout.of t.value) = some p) :
      Built source settings t number braced .opening p (opensBlock p :: braced)
  | closing {p : Text} {isBraced : Bool} {below : List Bool} (hbraced : braced = isBraced :: below)
      (hbuilt : Placeholder.closing (Layout.of t.value) isBraced = some p) :
      Built source settings t number braced .closing p below

section Placeholder

variable {source : Text} {settings : Settings} {t : Token} {family : Family} {number : Nat}
  {braced braced' : List Bool} {p : Text}

/-- What is put in the place of a construct is built by its family. -/
theorem built_of_placeholder
    (h : placeholder source settings t family number braced = .ok (p, braced')) :
    Built source settings t number braced family p braced' := by
  unfold placeholder at h
  cases family with
  | comment =>
      dsimp only at h
      split at h <;> cases h
      exact .comment ‹_›
  | identifier =>
      dsimp only at h
      split at h <;> cases h
      exact .identifier ‹_›
  | opening =>
      dsimp only at h
      split at h <;> cases h
      exact .opening ‹_›
  | closing =>
      dsimp only at h
      split at h
      · cases h
      · split at h <;> cases h
        exact .closing rfl ‹_›

/-- The placeholder of a construct has the length of the construct. -/
theorem placeholder_spec (hkind : t.kind.family? = some family)
    (h : placeholder source settings t family number braced = .ok (p, braced')) :
    p.length = t.value.length ∧
      ∃ f, f.text = p ∧ Placed number ⟨t.value, t.kind⟩ braced f braced' := by
  cases built_of_placeholder h with
  | comment hbuilt =>
      obtain ⟨hlen, hcore⟩ := comment_spec hbuilt
      exact ⟨hlen, _, by simp [Found.text], .comment hkind hcore⟩
  | identifier hbuilt =>
      obtain ⟨hlen, core, trail, hcore, htrail, rfl, hnumber⟩ :=
        identifier_spec (fun c hc => isLabelChar_of_mem_identifierLabel hc) hbuilt
      exact ⟨hlen, _, by simp [Found.text], .identifier hkind hcore htrail hnumber⟩
  | opening hbuilt =>
      obtain ⟨hlen, form, f, hform, rfl⟩ := opening_spec hbuilt
      exact ⟨hlen, f, rfl, .opening hkind hform hbuilt⟩
  | closing hbraced hbuilt =>
      subst hbraced
      obtain ⟨hlen, core, hcore, rfl⟩ := closing_spec hbuilt
      exact ⟨hlen, _, by simp [Found.text], .closing hkind hcore⟩

end Placeholder

/-- Substitution, token by token: the tokens that are left, the number of the next construct, which
of the open custom tags opened a block, and the segments. -/
inductive Masks (source : Text) (settings : Settings) :
    List Token → Nat → List Bool → List Segment → Prop
  | nil {number : Nat} {braced : List Bool} : Masks source settings [] number braced []
  | template {t : Token} {ts : List Token} {number : Nat} {braced : List Bool}
      {segments : List Segment} (hkind : t.kind.family? = none) (hplain : Text.Plain t.value)
      (hrest : Masks source settings ts number braced segments) :
      Masks source settings (t :: ts) number braced (.template t.value :: segments)
  | construct {t : Token} {ts : List Token} {number : Nat} {braced braced' : List Bool}
      {segments : List Segment} {family : Family} {p : Text}
      (hkind : t.kind.family? = some family)
      (hplaced : placeholder source settings t family number braced = .ok (p, braced'))
      (hrest : Masks source settings ts (number + 1) braced' segments) :
      Masks source settings (t :: ts) number braced (.construct p ⟨t.value, t.kind⟩ :: segments)

/-- A text in which no sentinel is found is plain. -/
theorem plain_of_firstSentinel? {t : Text} (h : firstSentinel? t = none) : Text.Plain t := by
  unfold firstSentinel? at h
  split at h
  · rename_i hdrop
    rw [List.dropWhile_eq_nil_iff] at hdrop
    intro c hc
    simpa using hdrop c hc
  · cases h

/-- Segments that are made of tokens mask them one by one. -/
theorem masks_of_segmentsOf {source : Text} {file : Option String} {settings : Settings}
    {ts : List Token} {number : Nat} {braced : List Bool} {segments : List Segment}
    (h : segmentsOf source file settings ts number braced = .ok segments) :
    Masks source settings ts number braced segments := by
  induction ts generalizing number braced segments with
  | nil =>
      cases h
      exact .nil
  | cons t ts ih =>
      unfold segmentsOf at h
      split at h
      · rename_i hkind
        split at h
        · cases h
        · rename_i hsentinel
          simp only [bind, Except.bind, pure, Except.pure] at h
          split at h
          · cases h
          · rename_i segments' hrest
            cases h
            exact .template hkind (plain_of_firstSentinel? hsentinel) (ih hrest)
      · rename_i family hkind
        simp only [bind, Except.bind, pure, Except.pure] at h
        split at h
        · cases h
        · rename_i answer hplaced
          obtain ⟨p, braced'⟩ := answer
          dsimp only at h
          split at h
          · cases h
          · rename_i segments' hrest
            cases h
            exact .construct hkind hplaced (ih hrest)

/-- A source that can be masked can be cut into tokens, and these are masked one after the other. -/
theorem masks_of_ofSource {source : Text} {settings : Settings} {file : Option String} {m : Masked}
    (h : ofSource source settings file = .ok m) :
    ∃ tokens, (TokenStream.ofSource source settings file none).complete = .ok tokens ∧
      Masks source settings tokens 0 [] m.segments := by
  unfold ofSource at h
  split at h
  · cases h
  · rename_i tokens hcomplete
    split at h
    · cases h
    · rename_i segments hsegments
      cases h
      exact ⟨tokens, hcomplete, masks_of_segmentsOf hsegments⟩

end Masked

end Stencil
