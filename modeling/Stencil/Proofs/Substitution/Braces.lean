import Stencil.Proofs.Placeholder.Braces
import Stencil.Proofs.Restoration.Roundtrip
import Stencil.Proofs.Token.Nesting

/-!
# Braces balance

A formatter indents what stands between braces, so a placeholder that opens a block has to be
matched by one that closes it. Which open tags have opened a block is remembered along the source,
and an end tag is asked to close a block just if its start tag opened one. `Masked.openTags` follows
the start tags that are open along the segments of a masked text; the same tags are open in the
source (`Tracks`), where tags nest.
-/

set_option autoImplicit false

namespace Stencil

open Placeholder

/-- An error comes from the first part, or from the second behind it. -/
theorem error_of_bind {ε α β : Type} {x : Except ε α} {f : α → Except ε β} {e : ε}
    (h : (x >>= f) = .error e) : x = .error e ∨ ∃ v, x = .ok v ∧ f v = .error e := by
  cases x with
  | error e' =>
      cases h
      exact .inl rfl
  | ok v => exact .inr ⟨v, rfl, h⟩

/-- What the placeholder of a record has of braces, and what the record does to the open tags. -/
inductive BracedAs (r : Record) (p : Text) (braced : List Bool) : List Bool → Prop
  | other (hstart : r.kind ≠ .startTag) (hend : r.kind ≠ .endTag) (hp : Text.braces p = []) :
      BracedAs r p braced braced
  | opens (hkind : r.kind = .startTag)
      (hbuilt : Placeholder.opening (Layout.of r.construct) = some p)
      (hp : Text.braces p = if opensBlock p then ['{'] else []) :
      BracedAs r p braced (opensBlock p :: braced)
  | closes {isBraced : Bool} {below : List Bool} (hkind : r.kind = .endTag)
      (hopened : braced = isBraced :: below)
      (hp : Text.braces p = if isBraced then ['}'] else [])
      (hfirst : isBraced = true → p.head? = some '}') : BracedAs r p braced below

/-- A placeholder has the braces that its record asks for. -/
theorem Placed.bracedAs {number : Nat} {r : Record} {braced braced' : List Bool} {f : Found}
    (h : Placed number r braced f braced') : BracedAs r f.text braced braced' := by
  obtain ⟨tag, kind⟩ := r
  cases h with
  | comment hkind hcore =>
      refine .other (by rintro rfl; cases hkind) (by rintro rfl; cases hkind) ?_
      rw [Found.text_core]
      exact hcore.elim (braces_of_isComment rfl) braces_of_isLineComment
  | identifier hkind hcore htrail hnumber =>
      refine .other (by rintro rfl; cases hkind) (by rintro rfl; cases hkind) ?_
      rw [Found.text_trail, Text.braces_append, braces_of_isName hcore]
      rcases htrail with rfl | htrail
      · rfl
      · exact braces_of_isComment rfl htrail
  | opening hkind hform hbuilt =>
      refine .opens ?_ hbuilt hform.braces_text
      cases kind <;> first | rfl | cases hkind
  | @closing isBraced _ core hkind hcore =>
      refine .closes ?_ rfl ?_ ?_
      · cases kind <;> first | rfl | cases hkind
      · rw [Found.text_lead, Text.braces_append, braces_of_isComment rfl hcore, List.append_nil]
        cases isBraced <;> rfl
      · rintro rfl
        rfl

/-- The start tags that are open behind one more segment, the innermost first, each with its
placeholder. -/
def Segment.track (opened : List (Text × Record)) : Segment → List (Text × Record)
  | template _ => opened
  | construct p r =>
    match r.kind with
    | .startTag => (p, r) :: opened
    | .endTag => opened.tail
    | _ => opened

namespace Masked

open Text (braces)

/-- The start tags that a row of segments leaves open, the innermost first, each with its
placeholder. -/
def openTags (segments : List Segment) : List (Text × Record) := segments.foldl Segment.track []

/-- The placeholders of a start tag and of its end tag. They open and close a block, or they hold no
brace, which is so if the start tag has five characters only besides its line breaks and the
indentation of its later lines. -/
inductive Paired (tag p q : Text) : Prop
  | block (hnet : 6 ≤ (Layout.of tag).net) (hopens : braces p = ['{']) (hcloses : braces q = ['}'])
      (hfirst : q.head? = some '}')
  | neutral (hnet : (Layout.of tag).net = 5) (hopens : braces p = []) (hcloses : braces q = [])

/-- The tags that are open in a source, which of their placeholders opened a block, and the tags
that are open in the masked text go together. -/
structure Tracks (unclosed : List Token) (braced : List Bool) (opened : List (Text × Record)) :
    Prop where
  length_eq : unclosed.length = opened.length
  braced_eq : braced = opened.map fun o => opensBlock o.1
  built : ∀ o ∈ opened, o.2.kind = .startTag ∧
    Placeholder.opening (Layout.of o.2.construct) = some o.1 ∧
    braces o.1 = if opensBlock o.1 then ['{'] else []

/-- What is to be said of the placeholders of segments, behind start tags that are open. -/
structure Braces (opened : List (Text × Record)) (braced : List Bool) (segments : List Segment) :
    Prop where
  paired : ∀ before q r after, segments = before ++ .construct q r :: after → r.kind = .endTag →
    ∃ p s below, before.foldl Segment.track opened = (p, s) :: below ∧ s.kind = .startTag ∧
      Paired s.construct p q
  closed : segments.foldl Segment.track opened = []
  others : ∀ p r, .construct p r ∈ segments → r.kind ≠ .startTag → r.kind ≠ .endTag →
    braces p = []
  balanced : Text.Balanced (braced.count true) (segments.filterMap Segment.placeholder?).flatten

section Braces

variable {unclosed : List Token} {justOpened : Bool} {braced braced' : List Bool}
  {opened : List (Text × Record)} {segments : List Segment}

/-- Template text in front. -/
theorem Braces.cons_template (t : Text) (h : Braces opened braced segments) :
    Braces opened braced (.template t :: segments) where
  paired := by
    intro before q r after hsplit hkind
    rcases List.cons_eq_append_iff.1 hsplit with ⟨rfl, heq⟩ | ⟨before', rfl, hrest⟩
    · cases heq
    · exact h.paired before' q r after hrest hkind
  closed := h.closed
  others := by
    intro p r hmem
    rcases List.mem_cons.1 hmem with heq | hmem
    · cases heq
    · exact h.others p r hmem
  balanced := h.balanced

/-- One more construct in front. -/
theorem Braces.cons {p : Text} {r : Record}
    (h : Braces (Segment.track opened (.construct p r)) braced' segments)
    (hpaired : r.kind = .endTag → ∃ q s below, opened = (q, s) :: below ∧ s.kind = .startTag ∧
      Paired s.construct q p)
    (hother : r.kind ≠ .startTag → r.kind ≠ .endTag → braces p = [])
    (hclosed : p.count '}' ≤ braced.count true)
    (hopened : braced.count true + p.count '{' = braced'.count true + p.count '}') :
    Braces opened braced (.construct p r :: segments) where
  paired := by
    intro before q r' after hsplit hkind
    rcases List.cons_eq_append_iff.1 hsplit with ⟨rfl, heq⟩ | ⟨before', rfl, hrest⟩
    · cases heq
      exact hpaired hkind
    · exact h.paired before' q r' after hrest hkind
  closed := h.closed
  others := by
    intro q r' hmem
    rcases List.mem_cons.1 hmem with heq | hmem
    · cases heq
      exact hother
    · exact h.others q r' hmem
  balanced := h.balanced.prepend hclosed hopened

/-- A construct that is no tag of a pair, in front. -/
theorem Braces.cons_other {p : Text} {r : Record} (h : Braces opened braced segments)
    (hstart : r.kind ≠ .startTag) (hend : r.kind ≠ .endTag) (hp : braces p = []) :
    Braces opened braced (.construct p r :: segments) := by
  have htrack : Segment.track opened (.construct p r) = opened := by
    obtain ⟨tag, kind⟩ := r
    cases kind with
    | startTag => exact absurd rfl hstart
    | endTag => exact absurd rfl hend
    | _ => rfl
  have hopens : p.count '{' = 0 := by rw [← Text.count_braces (.inl rfl), hp]; rfl
  have hcloses : p.count '}' = 0 := by rw [← Text.count_braces (.inr rfl), hp]; rfl
  rw [← htrack] at h
  exact h.cons (fun hkind => absurd hkind hend) (fun _ _ => hp) (by omega) (by omega)

/-- A start tag in front. -/
theorem Braces.cons_start {p tag : Text}
    (h : Braces ((p, ⟨tag, .startTag⟩) :: opened) (opensBlock p :: braced) segments)
    (hp : braces p = if opensBlock p then ['{'] else []) :
    Braces opened braced (.construct p ⟨tag, .startTag⟩ :: segments) := by
  have hopens : p.count '{' = if opensBlock p then 1 else 0 := by
    rw [← Text.count_braces (.inl rfl), hp]
    split <;> rfl
  have hcloses : p.count '}' = 0 := by
    rw [← Text.count_braces (.inr rfl), hp]
    split <;> rfl
  refine Braces.cons h nofun (fun hkind => absurd rfl hkind) (by omega) ?_
  rw [hopens, hcloses, List.count_cons]
  cases opensBlock p <;> simp

/-- An end tag in front, behind its start tag. -/
theorem Braces.cons_end {p q tag tag' : Text} (h : Braces opened braced segments)
    (hp : Placeholder.opening (Layout.of tag) = some p)
    (hbraces : braces p = if opensBlock p then ['{'] else [])
    (hq : braces q = if opensBlock p then ['}'] else [])
    (hfirst : opensBlock p = true → q.head? = some '}') :
    Braces ((p, ⟨tag, .startTag⟩) :: opened) (opensBlock p :: braced)
      (.construct q ⟨tag', .endTag⟩ :: segments) := by
  have hopens : q.count '{' = 0 := by
    rw [← Text.count_braces (.inl rfl), hq]
    split <;> rfl
  have hcloses : q.count '}' = if opensBlock p then 1 else 0 := by
    rw [← Text.count_braces (.inr rfl), hq]
    split <;> rfl
  refine Braces.cons h (fun _ => ⟨p, ⟨tag, .startTag⟩, opened, rfl, rfl, ?_⟩)
    (fun _ hkind => absurd rfl hkind) ?_ ?_
  · rcases opening_cases hp with ⟨hblock, hnet⟩ | ⟨hbare, hnet⟩
    · rw [hblock] at hbraces hq
      exact .block hnet hbraces hq (hfirst hblock)
    · rw [hbare] at hbraces hq
      exact .neutral hnet hbraces hq
  · rw [hcloses, List.count_cons]
    cases opensBlock p <;> simp
  · rw [hopens, hcloses, List.count_cons]
    cases opensBlock p <;> simp

/-- Along a row of tokens that nests, the placeholders that are put in their place have braces that
match. -/
theorem braces_of_masks {source : Text} {settings : Settings} {ts : List Token} {number : Nat}
    (h : Masks source settings ts number braced segments)
    (hnested : Token.Nested source unclosed justOpened ts)
    (htracks : Tracks unclosed braced opened) : Braces opened braced segments := by
  induction h generalizing unclosed justOpened opened with
  | nil =>
      obtain ⟨hlength, rfl, -⟩ := htracks
      rw [show unclosed = [] from hnested, List.length_nil] at hlength
      obtain rfl : opened = [] := List.length_eq_zero_iff.1 hlength.symm
      exact ⟨fun before q r after hsplit => by simp at hsplit, rfl, fun p r hmem => by simp at hmem,
        Text.balanced_nil⟩
  | @template t ts number braced segments hkind hplain hrest ih =>
      have htrack : Token.track unclosed t = unclosed := by
        rw [Token.track, Kind.family?_eq_none_iff.1 hkind]
      have hbehind := hnested.2
      rw [htrack] at hbehind
      exact (ih hbehind htracks).cons_template t.value
  | @construct t ts number braced braced' segments family p hkind hplaced hrest ih =>
      have hbehind := hnested.2
      obtain ⟨-, f, rfl, hput⟩ := placeholder_spec hkind hplaced
      obtain ⟨hlength, hbraced, hbuilt⟩ := htracks
      cases hput.bracedAs with
      | other hstart hend hp =>
          have htrack : Token.track unclosed t = unclosed := by
            unfold Token.track
            split <;> first | rfl | contradiction
          rw [htrack] at hbehind
          exact (ih hbehind ⟨hlength, hbraced, hbuilt⟩).cons_other hstart hend hp
      | opens hkind hopening hp =>
          obtain ⟨kind, value, offset⟩ := t
          obtain rfl : kind = .startTag := hkind
          refine Braces.cons_start (ih hbehind ⟨?_, ?_, ?_⟩) hp
          · exact congrArg (· + 1) hlength
          · rw [List.map_cons, ← hbraced]
          · exact List.forall_mem_cons.2 ⟨⟨rfl, hopening, hp⟩, hbuilt⟩
      | closes hkind hopened hq hfirst =>
          obtain ⟨kind, value, offset⟩ := t
          obtain rfl : kind = .endTag := hkind
          rw [hopened] at hbraced
          match opened, hbraced, hbuilt, hlength with
          | (p, ⟨tag, kind⟩) :: opened, hbraced, hbuilt, hlength =>
          obtain ⟨rfl, rfl⟩ := List.cons.inj hbraced
          obtain ⟨⟨rfl, hopening, hp⟩, hbelow⟩ := List.forall_mem_cons.1 hbuilt
          subst hopened
          refine Braces.cons_end (ih hbehind ⟨?_, rfl, hbelow⟩) hopening hp hq hfirst
          rw [Token.track, List.length_tail, hlength]
          rfl

/-- An end tag is placed without complaint where a start tag is open. -/
theorem placeholder_ne_unopenedEnd {source : Text} {settings : Settings} {t : Token}
    {family : Family} {number : Nat} (h : family = .closing → braced ≠ []) :
    placeholder source settings t family number braced ≠ .error .unopenedEnd := by
  intro herror
  unfold placeholder at herror
  cases family with
  | closing =>
      obtain ⟨isBraced, below, rfl⟩ := List.exists_cons_of_ne_nil (h rfl)
      dsimp only at herror
      split at herror <;> cases herror
  | _ =>
      dsimp only at herror
      split at herror <;> cases herror

/-- A token that fits leaves as many tags open in the source as there are blocks to remember. -/
theorem length_track {source : Text} {t : Token} {p : Text}
    (hfits : t.Fits source unclosed justOpened) (hlength : unclosed.length = braced.length)
    (h : BracedAs ⟨t.value, t.kind⟩ p braced braced') :
    (Token.track unclosed t).length = braced'.length := by
  obtain ⟨kind, value, offset⟩ := t
  cases h with
  | other hstart hend hp => cases kind <;> first | exact hlength | contradiction
  | opens hkind hbuilt hp =>
      obtain rfl : kind = .startTag := hkind
      exact congrArg (· + 1) hlength
  | closes hkind hopened hp hfirst =>
      obtain rfl : kind = .endTag := hkind
      rw [Token.track, List.length_tail, hlength, hopened]
      rfl

/-- Where an end tag fits there is a block to close. -/
theorem braced_ne_nil {source : Text} {t : Token} (hfits : t.Fits source unclosed justOpened)
    (hlength : unclosed.length = braced.length) (hkind : t.kind.family? = some .closing) :
    braced ≠ [] := by
  rintro rfl
  have hend : t.kind = .endTag := by
    revert hkind
    cases t.kind <;> simp [Kind.family?]
  obtain ⟨-, start, below, -, rfl, -⟩ := hfits.closes hend
  cases hlength

/-- No end tag is masked where no start tag is open. -/
theorem segmentsOf_ne_unopenedEnd {source : Text} (file : Option String) (settings : Settings)
    {ts : List Token} (number : Nat) (hnested : Token.Nested source unclosed justOpened ts)
    (hlength : unclosed.length = braced.length) :
    segmentsOf source file settings ts number braced ≠ .error .unopenedEnd := by
  induction ts generalizing unclosed justOpened braced number with
  | nil => exact nofun
  | cons t ts ih =>
      intro h
      obtain ⟨hfits, hbehind⟩ := hnested
      unfold segmentsOf at h
      split at h
      · rename_i hkind
        have htrack : Token.track unclosed t = unclosed := by
          rw [Token.track, Kind.family?_eq_none_iff.1 hkind]
        rw [htrack] at hbehind
        split at h
        · cases h
        · rcases error_of_bind h with hrest | ⟨segments, -, hreturn⟩
          · exact ih number hbehind hlength hrest
          · cases hreturn
      · rename_i family hkind
        rcases error_of_bind h with hplaced | ⟨⟨p, braced'⟩, hplaced, h⟩
        · exact placeholder_ne_unopenedEnd
            (fun h => braced_ne_nil hfits hlength (h ▸ hkind)) hplaced
        · obtain ⟨-, f, rfl, hput⟩ := placeholder_spec hkind hplaced
          rcases error_of_bind h with hrest | ⟨segments, -, hreturn⟩
          · exact ih (number + 1) hbehind (length_track hfits hlength hput.bracedAs) hrest
          · cases hreturn

/-- Placeholders balance their braces. Whatever the source and the settings, substitution never
meets an end tag where no start tag is open. If it succeeds, each end tag has a start tag, which is
the innermost one that is open in front of it, and their placeholders open and close a block or hold
no brace, the latter if the start tag has five characters only besides its line breaks and the
indentation of its later lines; at the end no start tag is open; the placeholders of other
constructs hold no brace; and the braces of all placeholders, one after the other, are balanced. -/
theorem braces_balance (source : Text) (settings : Settings) (file : Option String) :
    ofSource source settings file ≠ .error .unopenedEnd ∧
      ∀ m, ofSource source settings file = .ok m →
        (∀ before q r after, m.segments = before ++ .construct q r :: after → r.kind = .endTag →
          ∃ p s below, openTags before = (p, s) :: below ∧ s.kind = .startTag ∧
            Paired s.construct p q) ∧
        openTags m.segments = [] ∧
        (∀ p r, .construct p r ∈ m.segments → r.kind ≠ .startTag → r.kind ≠ .endTag →
          braces p = []) ∧
        Text.Balanced 0 m.placeholders.flatten := by
  constructor
  · intro h
    unfold ofSource at h
    split at h
    · cases h
    · rename_i tokens hcomplete
      split at h
      · rename_i hfailed
        cases h
        exact segmentsOf_ne_unopenedEnd file settings 0 (TokenStream.nested_of_complete hcomplete)
          rfl hfailed
      · cases h
  · intro m h
    obtain ⟨tokens, hcomplete, hmasks⟩ := masks_of_ofSource h
    have htracks : Tracks [] [] [] := ⟨rfl, rfl, fun o ho => absurd ho List.not_mem_nil⟩
    obtain ⟨hpaired, hclosed, hothers, hbalanced⟩ :=
      braces_of_masks hmasks (TokenStream.nested_of_complete hcomplete) htracks
    exact ⟨hpaired, hclosed, hothers, hbalanced⟩

/-- A start tag over two lines, which opens a block, inside one that is too short for that. -/
theorem braces_balance_of_lines :
    let source := "<a:b><c:d\n x='1'>y</c:d></a:b>".toList
    let outer : Record := ⟨"<a:b>".toList, .startTag⟩
    let inner : Record := ⟨"<c:d\n x='1'>".toList, .startTag⟩
    let before : List Segment := [.construct "/*ʃ*/".toList outer,
      .construct "\x7b/*ʃ\n ʃʃʃʃ*/".toList inner, .template ['y']]
    let after : List Segment := [.construct "/*ʅʅ*/".toList ⟨"</a:b>".toList, .endTag⟩]
    let m : Masked :=
      ⟨before ++ .construct "\x7d/*ʅ*/".toList ⟨"</c:d>".toList, .endTag⟩ :: after⟩
    ofSource source {} none = .ok m ∧
      (∃ p s below, openTags before = (p, s) :: below ∧ s.kind = .startTag ∧
        Paired s.construct p "\x7d/*ʅ*/".toList) ∧
      Text.Balanced 0 m.placeholders.flatten := by
  intro source outer inner before after m
  have hmasked : ofSource source {} none = .ok m := by
    decide +kernel
  obtain ⟨-, hmatched⟩ := braces_balance source {} none
  obtain ⟨hpaired, -, -, hbalanced⟩ := hmatched m hmasked
  exact ⟨hmasked, hpaired before _ _ after rfl rfl, hbalanced⟩

end Braces

end Masked

end Stencil
