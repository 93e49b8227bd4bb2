import Stencil.Proofs.Restoration.Extent
import Stencil.Proofs.Text.Fitting

/-!
# The braces of placeholders

The placeholder of a start tag has a brace that opens if it opens a block, and that of an end tag a
brace that closes if it is asked to; no placeholder has any other brace. Whether a start tag opens a
block is a matter of its size alone: the smallest placeholder that does takes six characters, and
one of five is a comment.
-/

set_option autoImplicit false

namespace Stencil

open Placeholder

namespace Text

/-- The braces of a text. -/
def braces (t : Text) : Text := t.filter fun c => c == '{' || c == '}'

/-- Behind so many braces that are left open, no brace closes more than what is open, and at the end
nothing is. -/
structure Balanced (opened : Nat) (t : Text) : Prop where
  sane : ∀ s, s <+: t → s.count '}' ≤ opened + s.count '{'
  settled : t.count '}' = opened + t.count '{'

/-- The braces of two texts come one behind the other. -/
theorem braces_append (s t : Text) : braces (s ++ t) = braces s ++ braces t := List.filter_append ..

/-- A text without a brace has none. -/
theorem braces_eq_nil {t : Text} (h : ∀ c ∈ t, c ≠ '{' ∧ c ≠ '}') : braces t = [] := by
  unfold braces
  rw [List.filter_eq_nil_iff]
  intro c hc
  simp [h c hc]

/-- A text has as many braces of a sort as its braces have. -/
theorem count_braces {t : Text} {c : Char} (hc : c = '{' ∨ c = '}') :
    (braces t).count c = t.count c := by
  refine List.count_filter ?_
  rcases hc with rfl | rfl <;> decide

/-- A text without braces is balanced. -/
theorem balanced_nil : Balanced 0 [] where
  sane := by
    intro s hs
    rw [List.prefix_nil.1 hs]
    exact Nat.le_refl 0
  settled := rfl

/-- In front of a balanced text may stand a text that closes at most what is open. -/
theorem Balanced.prepend {p t : Text} {opened opened' : Nat} (h : Balanced opened' t)
    (hclosed : p.count '}' ≤ opened) (hopened : opened + p.count '{' = opened' + p.count '}') :
    Balanced opened (p ++ t) where
  sane := by
    intro s hs
    rcases List.prefix_or_prefix_of_prefix hs (List.prefix_append p t) with hsp | ⟨s', rfl⟩
    · have hle : s.count '}' ≤ p.count '}' := hsp.sublist.count_le _
      omega
    · have hsane := h.sane s' ((List.prefix_append_right_inj p).1 hs)
      rw [List.count_append, List.count_append]
      omega
  settled := by
    have hsettled := h.settled
    rw [List.count_append, List.count_append]
    omega

end Text

namespace Placeholder

open Text (braces)

section Braces

variable {filler : Char} {t : Text}

/-- A comment of fillers has no brace. -/
theorem braces_of_isComment (hfiller : braces [filler] = []) (h : IsComment filler t) :
    braces t = [] := by
  obtain ⟨body, ⟨honly, -⟩, rfl⟩ := h
  have hbody : braces body = [] := by
    refine Text.braces_eq_nil fun c hc => ?_
    rcases honly c hc with rfl | hblank
    · constructor <;> rintro rfl <;> cases hfiller
    · constructor <;> rintro rfl <;> exact absurd hblank (by decide)
  rw [Text.braces_append, Text.braces_append, hbody]
  rfl

/-- A line comment of fillers has no brace. -/
theorem braces_of_isLineComment (h : IsLineComment t) : braces t = [] := by
  obtain ⟨n, rfl⟩ := h
  have hfillers : braces (List.replicate (n + 1) Sentinel.comment) = [] := by
    refine Text.braces_eq_nil fun c hc => ?_
    rw [List.eq_of_mem_replicate hc]
    decide
  rw [Text.braces_append, hfillers]
  rfl

/-- The name of an identifier has no brace. -/
theorem braces_of_isName (h : IsName t) : braces t = [] := by
  obtain ⟨body, hbody, rfl⟩ := h
  have hnone : braces body = [] := by
    refine Text.braces_eq_nil fun c hc => ?_
    constructor <;> rintro rfl <;> exact absurd (hbody _ hc) (by decide)
  have hsplit : Sentinel.identifierStart :: body ++ [Sentinel.identifierEnd] =
      [Sentinel.identifierStart] ++ body ++ [Sentinel.identifierEnd] := rfl
  rw [hsplit, Text.braces_append, Text.braces_append, hnone]
  rfl

/-- A condition has its brace, and no other. -/
theorem braces_of_isCondition (h : IsCondition t) : braces t = ['{'] := by
  obtain ⟨space, n, space', hspace, hspace', rfl⟩ := h
  have hblanks : ∀ s : Text, Text.Blanks s → braces s = [] := by
    intro s hs
    refine Text.braces_eq_nil fun c hc => ?_
    constructor <;> rintro rfl <;> exact absurd (hs _ hc) (by decide)
  have hfillers : braces ('(' :: List.replicate (n + 1) Sentinel.opening) = [] := by
    refine Text.braces_eq_nil fun c hc => ?_
    rcases List.mem_cons.1 hc with rfl | hc
    · decide
    · rw [List.eq_of_mem_replicate hc]
      decide
  have hsplit : "if".toList ++ space ++ '(' :: List.replicate (n + 1) Sentinel.opening ++
      ')' :: space' ++ ['{'] = "if".toList ++ space ++
        ('(' :: List.replicate (n + 1) Sentinel.opening) ++ ([')'] ++ space') ++ ['{'] := rfl
  rw [hsplit]
  simp only [Text.braces_append, hblanks space hspace, hblanks space' hspace', hfillers]
  rfl

/-- An opening has a brace if it opens a block, and no other. -/
theorem Opens.braces_text {form : OpeningForm} {f : Found} (h : Opens form f) :
    braces f.text = if Placeholder.opensBlock f.text then ['{'] else [] := by
  rw [h.opensBlock]
  have hcomment {core : Text} (hcore : IsComment Sentinel.opening core) : braces core = [] :=
    braces_of_isComment rfl hcore
  cases h with
  | condition hcore =>
      rw [Found.text_core, braces_of_isCondition hcore]
      rfl
  | trailed hcore htrail =>
      rw [Found.text_trail, Text.braces_append, braces_of_isCondition hcore, hcomment htrail]
      rfl
  | braced hcore =>
      rw [Found.text_lead, Text.braces_append, hcomment hcore]
      rfl
  | bare hcore =>
      rw [Found.text_core, hcomment hcore]
      rfl

/-- A shape whose beginning is no comment opens a block. -/
theorem opensBlock_of_fill {t p : Text} {s : Shape} (hfiller : s.filler = [Sentinel.opening])
    (hmin : 0 ≤ s.minFill) (hhead : ∃ c rest, s.head = c :: rest ∧ c ≠ '/')
    (h : (Layout.of t).fill s = some p) : opensBlock p = true := by
  obtain ⟨-, mid, rfl, -⟩ := Layout.fill_spec Sentinel.opening hfiller (by decide) hmin h
  obtain ⟨c, rest, hcons, hc⟩ := hhead
  rw [opensBlock, hcons, after?_eq_none_of_head]
  · rfl
  · simpa using hc

/-- Two shapes that open a block, the second of six characters at least, and a comment for what is
too short for them. -/
theorem firstFit_block_cases {t p : Text} {s s' : Shape} (hfiller : s.filler = [Sentinel.opening])
    (hfiller' : s'.filler = [Sentinel.opening]) (hmin : s.minFill = 1) (hmin' : s'.minFill = 1)
    (hhead : ∃ c rest, s.head = c :: rest ∧ c ≠ '/')
    (hhead' : ∃ c rest, s'.head = c :: rest ∧ c ≠ '/')
    (hsize : 5 ≤ s.head.length + s.tail.length) (hsize' : s'.head.length + s'.tail.length = 5)
    (h : (Layout.of t).firstFit [s, s', commentBehind [] Sentinel.opening] = some p) :
    opensBlock p = true ∧ 6 ≤ (Layout.of t).net ∨
      opensBlock p = false ∧ (Layout.of t).net = 5 := by
  have hfits := Layout.isSome_fill_iff (l := Layout.of t) (s := s) (by omega)
  have hfits' := Layout.isSome_fill_iff (l := Layout.of t) (s := s') (by omega)
  rw [Layout.firstFit, List.findSome?_cons] at h
  split at h
  · rename_i hfill
    cases h
    rw [hfill] at hfits
    have hnet := hfits.1 rfl
    exact .inl ⟨opensBlock_of_fill hfiller (by omega) hhead hfill, by omega⟩
  rw [List.findSome?_cons] at h
  split at h
  · rename_i hfill
    cases h
    rw [hfill] at hfits'
    have hnet := hfits'.1 rfl
    exact .inl ⟨opensBlock_of_fill hfiller' (by omega) hhead' hfill, by omega⟩
  · -- neither has room, but the comment, which is one character shorter, has
    rename_i hnone
    have hshort : ¬6 ≤ (Layout.of t).net := by
      intro hnet
      have hsome := hfits'.2 (by omega)
      rw [hnone] at hsome
      cases hsome
    have hfill : (Layout.of t).fill (commentBehind [] Sentinel.opening) = some p :=
      (firstFit_cons h).resolve_right firstFit_nil
    obtain ⟨-, core, hcore, rfl⟩ := fill_commentBehind [] (by decide) hfill
    have hnet := (Layout.isSome_fill_iff (by decide)).1 (Option.isSome_of_eq_some hfill)
    have hclosed := (Opens.bare hcore).opensBlock
    rw [Found.text_core] at hclosed
    refine .inr ⟨hclosed, ?_⟩
    have hroom : (commentBehind [] Sentinel.opening).minFill +
        (commentBehind [] Sentinel.opening).head.length +
        (commentBehind [] Sentinel.opening).tail.length = 5 := rfl
    omega

/-- A start tag opens a block unless it has five characters only. -/
theorem opening_cases {t p : Text} (h : opening (Layout.of t) = some p) :
    opensBlock p = true ∧ 6 ≤ (Layout.of t).net ∨
      opensBlock p = false ∧ (Layout.of t).net = 5 := by
  unfold opening at h
  split at h
  · exact firstFit_block_cases rfl rfl rfl rfl ⟨'i', _, rfl, by decide⟩ ⟨'i', _, rfl, by decide⟩
      (by decide) rfl h
  · exact firstFit_block_cases rfl rfl rfl rfl ⟨'i', _, rfl, by decide⟩ ⟨'{', _, rfl, by decide⟩
      (by decide) rfl h

end Braces

end Placeholder

end Stencil
