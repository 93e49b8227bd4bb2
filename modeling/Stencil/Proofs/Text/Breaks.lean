import Stencil.Proofs.Text.Filling

/-!
# Line breaks

How many line breaks a text has. They are counted from left to right, and a line feed right behind
a carriage return belongs to it, so the break of one text and the break of the next may become one
when the texts are joined (`Text.breaksFrom_append`).

A layout that is filled keeps its line breaks but may empty a line. Where the line starts behind a
carriage return alone and ends at a line feed alone, and is not indented, the two are then one line
break (`Layout.fused`); this is the only way in which a line break gets lost
(`Layout.breaks_of_fill`).
-/

set_option autoImplicit false

namespace Stencil

namespace Text

/-- The line breaks of a text. -/
def breaks (t : Text) : Nat := (lines t).2.length

/-- The line breaks of a text, counted on from a character that may be a carriage return. -/
def breaksFrom : Bool → Text → Nat
  | _, [] => 0
  | behindReturn, c :: t =>
    if c = '\r' then breaksFrom true t + 1
    else if c = '\n' then breaksFrom false t + if behindReturn then 0 else 1
    else breaksFrom false t

/-- Whether a text ends in a carriage return, or the character in front of an empty text is one. -/
def endsInReturn : Bool → Text → Bool
  | behindReturn, [] => behindReturn
  | _, c :: t => endsInReturn (c == '\r') t

/-- A character that is no part of a line break. -/
def IsPlainChar (c : Char) : Prop := c ≠ '\r' ∧ c ≠ '\n'

instance : DecidablePred IsPlainChar :=
  fun c => inferInstanceAs (Decidable (c ≠ '\r' ∧ c ≠ '\n'))

/-- A text that is checked for line breaks has plain characters alone. -/
theorem isPlainChar_of_all {t : Text} (h : t.all (IsPlainChar ·) = true) :
    ∀ c ∈ t, IsPlainChar c :=
  fun c hc => of_decide_eq_true (List.all_eq_true.1 h c hc)

/-- A text that neither starts with a line feed nor ends with a carriage return, so that no line
break runs over its ends. -/
structure Apart (t : Text) : Prop where
  first : ∃ c, t.head? = some c ∧ c ≠ '\n'
  last : ∃ c, t.getLast? = some c ∧ c ≠ '\r'

/-- Line breaks are counted on from no carriage return. -/
theorem breaks_eq_breaksFrom (t : Text) : breaks t = breaksFrom false t := by
  unfold breaks
  fun_induction lines t with
  | case1 => rfl
  | case2 t line later heq ih =>
      rw [heq] at ih
      simpa [breaksFrom] using ih
  | case3 t hnot line later heq ih =>
      rw [heq] at ih
      have hskip : breaksFrom true t = breaksFrom false t := by
        cases t with
        | nil => rfl
        | cons c t =>
            have hc : c ≠ '\n' := by
              rintro rfl
              exact hnot t rfl
            simp [breaksFrom, hc]
      simpa [breaksFrom, hskip] using ih
  | case4 t line later heq ih =>
      rw [heq] at ih
      simpa [breaksFrom] using ih
  | case5 c t h₁ h₂ h₃ line later heq ih =>
      have hreturn : c ≠ '\r' := h₂
      have hfeed : c ≠ '\n' := h₃
      rw [heq] at ih
      simpa [breaksFrom, hreturn, hfeed] using ih

/-- The line breaks of two texts are counted one behind the other. -/
theorem breaksFrom_append (behindReturn : Bool) (s t : Text) :
    breaksFrom behindReturn (s ++ t) =
      breaksFrom behindReturn s + breaksFrom (endsInReturn behindReturn s) t := by
  induction s generalizing behindReturn with
  | nil => simp [breaksFrom, endsInReturn]
  | cons c s ih =>
      simp only [List.cons_append, breaksFrom, endsInReturn, ih]
      by_cases hreturn : c = '\r'
      · simp only [hreturn, if_true, BEq.rfl]
        omega
      · have hstate : (c == '\r') = false := by simpa using hreturn
        simp only [hreturn, if_false, hstate]
        split <;> omega

/-- In front of a text may stand characters without line breaks. -/
theorem breaksFrom_append_of_plain (behindReturn : Bool) {s : Text} (hs : ∀ c ∈ s, IsPlainChar c)
    (t : Text) : breaksFrom behindReturn (s ++ t) = breaksFrom (behindReturn && s.isEmpty) t := by
  induction s generalizing behindReturn with
  | nil => simp
  | cons c s ih =>
      obtain ⟨⟨hreturn, hfeed⟩, hs⟩ := List.forall_mem_cons.1 hs
      rw [List.cons_append, breaksFrom, if_neg hreturn, if_neg hfeed, ih false hs]
      simp

/-- A text ends in a carriage return if its last character is one. -/
theorem endsInReturn_of_ne_nil (behindReturn : Bool) {t : Text} (h : t ≠ []) :
    endsInReturn behindReturn t = (t.getLast? == some '\r') := by
  induction t generalizing behindReturn with
  | nil => exact absurd rfl h
  | cons c t ih =>
      cases t with
      | nil => rfl
      | cons d t =>
          rw [endsInReturn, ih _ (List.cons_ne_nil d t), List.getLast?_cons_cons]

/-- A text that no line break runs out of adds its own line breaks. -/
theorem Apart.breaksFrom_append {s : Text} (hs : Apart s) (behindReturn : Bool) (t : Text) :
    breaksFrom behindReturn (s ++ t) = breaks s + breaksFrom false t := by
  obtain ⟨⟨c, hfirst, hfeed⟩, ⟨d, hlast, hreturn⟩⟩ := hs
  obtain ⟨rest, rfl⟩ := List.head?_eq_some_iff.1 hfirst
  have hstate : endsInReturn behindReturn (c :: rest) = false := by
    rw [endsInReturn_of_ne_nil _ (List.cons_ne_nil c rest), hlast]
    simpa using hreturn
  have hown : breaksFrom behindReturn (c :: rest) = breaksFrom false (c :: rest) := by
    rw [breaksFrom, breaksFrom, if_neg hfeed, if_neg hfeed]
  rw [Text.breaksFrom_append, hstate, hown, breaks_eq_breaksFrom]

/-- A plain character stands apart. -/
theorem apart_singleton {c : Char} (h : IsPlainChar c) : Apart [c] :=
  ⟨⟨c, rfl, h.2⟩, ⟨c, rfl, h.1⟩⟩

/-- Two texts that stand apart do so together. -/
theorem Apart.append {s t : Text} (hs : Apart s) (ht : Apart t) : Apart (s ++ t) := by
  obtain ⟨c, hfirst, hfeed⟩ := hs.first
  obtain ⟨d, hlast, hreturn⟩ := ht.last
  exact ⟨⟨c, by rw [List.head?_append, hfirst]; rfl, hfeed⟩,
    ⟨d, by rw [List.getLast?_append, hlast]; rfl, hreturn⟩⟩

end Text

/-- A shape of single fillers without line breaks. -/
structure Shape.IsPlain (s : Shape) : Prop where
  filler : ∃ c, s.filler = [c]
  minFill : 0 ≤ s.minFill
  plain : ∀ c ∈ s.head ++ s.filler ++ s.tail, Text.IsPlainChar c

namespace Layout

/-- The line breaks that become one with a line break in front of them when lines get these widths:
those of a line feed alone behind a carriage return alone, with an empty line between them. -/
def fusedFrom : Bool → List LineShape → List Int → Nat
  | behindReturn, line :: lines, width :: widths =>
    (if behindReturn && line.ending == ['\n'] then 1 else 0) +
      fusedFrom (line.ending == ['\r'] && line.indent.isEmpty && width == 0) lines widths
  | _, _, _ => 0

/-- The line breaks of a layout that get lost when its lines get these widths. -/
def fused (l : Layout) (widths : List Int) : Nat := fusedFrom false l.later widths.tail

/-- The shape of a line that a line break starts and blanks and tabs indent. -/
structure IsLine (line : LineShape) : Prop where
  ending : line.ending = ['\r', '\n'] ∨ line.ending = ['\r'] ∨ line.ending = ['\n']
  indent : ∀ c ∈ line.indent, Text.IsPlainChar c

/-- The later lines of a layout are lines. -/
theorem isLine_of_mem_later {t : Text} {line : LineShape} (h : line ∈ (Layout.of t).later) :
    IsLine line := by
  obtain ⟨l, hl, rfl⟩ := List.mem_map.1 h
  refine ⟨Text.ending_of_mem_lines hl, fun c hc => ?_⟩
  have hindent : Text.isIndent c = true := List.mem_takeWhile_imp hc
  constructor <;> rintro rfl <;> cases hindent

/-- An ending is one line break, unless it is a line feed behind a carriage return. -/
theorem IsLine.breaksFrom_ending {line : LineShape} (h : IsLine line) (behindReturn : Bool) :
    Text.breaksFrom behindReturn line.ending =
        (if behindReturn && line.ending == ['\n'] then 0 else 1) ∧
      Text.endsInReturn behindReturn line.ending = (line.ending == ['\r']) := by
  rcases h.ending with heq | heq | heq <;> rw [heq] <;> cases behindReturn <;> decide

/-- The line breaks of a text that is written over lines. -/
theorem breaksFrom_writeLines {body : Text} {lines : List LineShape} {widths : List Int}
    (behindReturn : Bool) (h : Spread body.length lines.length widths)
    (hbody : ∀ c ∈ body, Text.IsPlainChar c) (hlines : ∀ line ∈ lines, IsLine line) :
    Text.breaksFrom behindReturn (writeLines body lines widths) +
      fusedFrom behindReturn lines widths = lines.length := by
  induction lines generalizing behindReturn body widths with
  | nil => simp [writeLines, fusedFrom, Text.breaksFrom]
  | cons line lines ih =>
      cases widths with
      | nil => simpa using h.length_eq
      | cons w widths =>
          obtain ⟨hline, hlines⟩ := List.forall_mem_cons.1 hlines
          obtain ⟨hbreaks, hstate⟩ := hline.breaksFrom_ending behindReturn
          obtain ⟨hw, -⟩ := h.of_cons
          obtain ⟨hle, hdrop⟩ := h.drop
          have hplain : ∀ c ∈ line.indent ++ body.take w.toNat, Text.IsPlainChar c := by
            intro c hc
            rcases List.mem_append.1 hc with hc | hc
            · exact hline.indent c hc
            · exact hbody c (List.mem_of_mem_take hc)
          have hempty : (line.indent ++ body.take w.toNat).isEmpty =
              (line.indent.isEmpty && w == 0) := by
            have htake : body.take w.toNat = [] ↔ w = 0 := by
              rw [← List.length_eq_zero_iff, List.length_take]
              omega
            rw [Bool.eq_iff_iff, Bool.and_eq_true, List.isEmpty_iff, List.isEmpty_iff,
              List.append_eq_nil_iff, htake, beq_iff_eq]
          have hrest := ih (line.ending == ['\r'] && line.indent.isEmpty && w == 0) hdrop
            (fun c hc => hbody c (List.mem_of_mem_drop hc)) hlines
          rw [writeLines, List.append_assoc, List.append_assoc, ← List.append_assoc line.indent,
            Text.breaksFrom_append, hbreaks, hstate, Text.breaksFrom_append_of_plain _ hplain,
            hempty, ← Bool.and_assoc, fusedFrom, List.length_cons]
          split <;> omega

/-- The line breaks of a text that is written in a layout. -/
theorem breaks_write {t body : Text} {widths : List Int}
    (h : Spread body.length ((Layout.of t).later.length + 1) widths)
    (hbody : ∀ c ∈ body, Text.IsPlainChar c) :
    Text.breaks ((Layout.of t).write body widths) + (Layout.of t).fused widths = Text.breaks t := by
  cases widths with
  | nil => simpa using h.length_eq
  | cons first later =>
      obtain ⟨-, hdrop⟩ := h.drop
      have hfirst : ∀ c ∈ body.take first.toNat, Text.IsPlainChar c :=
        fun c hc => hbody c (List.mem_of_mem_take hc)
      have hlater := breaksFrom_writeLines false hdrop
        (fun c hc => hbody c (List.mem_of_mem_drop hc)) fun line hline => isLine_of_mem_later hline
      have hlength : (Layout.of t).later.length = Text.breaks t := List.length_map ..
      rw [Text.breaks_eq_breaksFrom, write, Text.breaksFrom_append_of_plain false hfirst,
        Bool.false_and, fused, List.tail_cons, hlater, hlength]

/-- A layout that is filled keeps its line breaks but those that become one with the one in front of
them. -/
theorem breaks_of_fill {t p : Text} {s : Shape} (hs : s.IsPlain)
    (h : (Layout.of t).fill s = some p) :
    Text.breaks p + (Layout.of t).fused ((Layout.of t).filledWidths s) = Text.breaks t := by
  obtain ⟨n, hnet, -, rfl, -⟩ := fill_eq_some hs.minFill h
  obtain ⟨c, hfiller⟩ := hs.filler
  have hplain := hs.plain
  rw [hfiller] at hplain
  rw [hfiller, List.flatten_replicate_singleton]
  have hlength : (s.head ++ List.replicate n c ++ s.tail).length = (Layout.of t).net := by
    rw [List.length_append, List.length_append, List.length_replicate]
    omega
  have hspread := spread_filledWidths (Layout.of t) s
  rw [← hlength] at hspread
  refine breaks_write hspread fun d hd => hplain d ?_
  simp only [List.mem_append, List.mem_replicate, List.mem_singleton] at hd ⊢
  exact hd.imp_left (Or.imp_right And.right)

/-- Lines of which none that is not indented stands between a carriage return alone and a line feed
alone. -/
def KeepsBreaks (lines : List LineShape) : Prop :=
  lines.IsChain fun line next => line.ending = ['\r'] → line.indent = [] → next.ending ≠ ['\n']

/-- No line break gets lost where none could meet another one. -/
theorem fusedFrom_eq_zero {behindReturn : Bool} {lines : List LineShape} {widths : List Int}
    (hfirst : behindReturn = true → ∀ line ∈ lines.head?, line.ending ≠ ['\n'])
    (h : KeepsBreaks lines) : fusedFrom behindReturn lines widths = 0 := by
  induction lines generalizing behindReturn widths with
  | nil => rfl
  | cons line lines ih =>
      cases widths with
      | nil => rfl
      | cons width widths =>
          obtain ⟨hnext, hlines⟩ := List.isChain_cons.1 h
          have hkept : ¬(behindReturn && line.ending == ['\n']) = true := by
            rw [Bool.and_eq_true, beq_iff_eq]
            exact fun ⟨hreturn, hfeed⟩ => hfirst hreturn line rfl hfeed
          rw [fusedFrom, if_neg hkept, ih _ hlines]
          intro hstate next hmem
          simp only [Bool.and_eq_true, beq_iff_eq, List.isEmpty_iff] at hstate
          exact hnext next hmem hstate.1.1 hstate.1.2

/-- Whatever the widths, no line break gets lost unless a line that is not indented stands between a
carriage return alone and a line feed alone. -/
theorem fused_eq_zero {l : Layout} (h : KeepsBreaks l.later) (widths : List Int) :
    l.fused widths = 0 :=
  fusedFrom_eq_zero nofun h

end Layout

end Stencil
