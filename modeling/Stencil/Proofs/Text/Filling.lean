import Mathlib
import Stencil.Text.Layout

/-!
# Filling a layout

A layout that is filled keeps the length of the text that it is the layout of. What is written
starts with the head of the shape and ends with its tail, and between them stand the fillers, with
nothing but line breaks and indentation among them.

Moving characters between lines changes neither their number nor the number of lines, which is
`Layout.Spread`; `Layout.fill_spec` is the statement about `Layout.fill`.
-/

set_option autoImplicit false

namespace Stencil

namespace Text

/-- Whether a character belongs to the layout of a text: it breaks a line or indents one. -/
def isLayout (c : Char) : Bool := c == '\r' || c == '\n' || isIndent c

/-- A text is its first line and its later lines, each behind its line break. -/
theorem lines_join (t : Text) : (lines t).1 ++ (lines t).2.flatMap (fun l => l.1 ++ l.2) = t := by
  fun_induction lines t with
  | case1 => rfl
  | case2 t line later heq ih => simpa [heq] using ih
  | case3 t _ line later heq ih => simpa [heq] using ih
  | case4 t line later heq ih => simpa [heq] using ih
  | case5 c t _ _ _ line later heq ih => simpa [heq] using ih

/-- A later line starts with one of the three line breaks. -/
theorem ending_of_mem_lines {t : Text} {l : Text × Text} (h : l ∈ (lines t).2) :
    l.1 = ['\r', '\n'] ∨ l.1 = ['\r'] ∨ l.1 = ['\n'] := by
  fun_induction lines t with
  | case1 => simp at h
  | case2 t line later heq ih =>
      rcases List.mem_cons.1 h with rfl | h
      · exact .inl rfl
      · exact ih (by simpa [heq] using h)
  | case3 t _ line later heq ih =>
      rcases List.mem_cons.1 h with rfl | h
      · exact .inr (.inl rfl)
      · exact ih (by simpa [heq] using h)
  | case4 t line later heq ih =>
      rcases List.mem_cons.1 h with rfl | h
      · exact .inr (.inr rfl)
      · exact ih (by simpa [heq] using h)
  | case5 c' t _ _ _ line later heq ih => exact ih (by simpa [heq] using h)

/-- A line break belongs to the layout. -/
theorem isLayout_of_mem_ending {t : Text} {l : Text × Text} (h : l ∈ (lines t).2) {c : Char}
    (hc : c ∈ l.1) : isLayout c = true := by
  rcases ending_of_mem_lines h with hl | hl | hl <;> rw [hl] at hc <;> simp at hc
  · rcases hc with rfl | rfl <;> decide
  · subst hc
    decide
  · subst hc
    decide

end Text

namespace Layout

/-- Widths of lines: as many as there are lines, none of them negative, and so many characters in
all. -/
structure Spread (total : Int) (count : Nat) (widths : List Int) : Prop where
  length_eq : widths.length = count
  sum_eq : widths.sum = total
  nonneg : ∀ w ∈ widths, 0 ≤ w

/-- The first width is not negative, and the others spread what is left. -/
theorem Spread.of_cons {total : Int} {count : Nat} {w : Int} {widths : List Int}
    (h : Spread total (count + 1) (w :: widths)) :
    0 ≤ w ∧ Spread (total - w) count widths := by
  have hsum := h.sum_eq
  have hlen := h.length_eq
  simp only [List.sum_cons] at hsum
  simp only [List.length_cons] at hlen
  exact ⟨h.nonneg w (List.mem_cons_self ..), by omega, by omega,
    fun w' hw' => h.nonneg w' (List.mem_cons_of_mem _ hw')⟩

/-- A width that is not negative in front of a spread of what is left is a spread. -/
theorem Spread.cons {total : Int} {count : Nat} {w : Int} {widths : List Int} (hw : 0 ≤ w)
    (h : Spread (total - w) count widths) : Spread total (count + 1) (w :: widths) := by
  have hsum := h.sum_eq
  have hlen := h.length_eq
  refine ⟨by simp [hlen], by simp only [List.sum_cons]; omega, ?_⟩
  intro w' hw'
  rcases List.mem_cons.1 hw' with rfl | hw'
  · exact hw
  · exact h.nonneg w' hw'

/-- A spread from the last line to the first is one. -/
theorem Spread.reverse {total : Int} {count : Nat} {widths : List Int}
    (h : Spread total count widths) : Spread total count widths.reverse :=
  ⟨by simp [h.length_eq], by simp [List.sum_reverse, h.sum_eq],
    fun w hw => h.nonneg w (List.mem_reverse.1 hw)⟩

/-- What is spread is not negative. -/
theorem Spread.total_nonneg {total : Int} {count : Nat} {widths : List Int}
    (h : Spread total count widths) : 0 ≤ total := by
  rw [← h.sum_eq]
  exact List.sum_nonneg h.nonneg

/-- The last of the widths is no more than all of them. -/
theorem Spread.getLast_le {total : Int} {count : Nat} {widths : List Int}
    (h : Spread total count widths) {last : Int} (hlast : widths.getLast? = some last) :
    last ≤ total := by
  rw [← h.sum_eq]
  exact List.single_le_sum h.nonneg last (List.mem_of_getLast? hlast)

/-- What is drawn from lines is missing there. -/
theorem draw_spec (need : Int) {floor total : Int} {count : Nat} {widths : List Int}
    (hfloor : 0 ≤ floor) (h : Spread total count widths) :
    0 ≤ (draw need floor widths).1 ∧
      Spread (total - (draw need floor widths).1) count (draw need floor widths).2 := by
  induction widths generalizing need total count with
  | nil =>
      obtain rfl : 0 = count := by simpa using h.length_eq
      obtain rfl : 0 = total := by simpa using h.sum_eq
      exact ⟨le_refl 0, ⟨rfl, rfl, by simp [draw]⟩⟩
  | cons width widths ih =>
      cases count with
      | zero => exact absurd h.length_eq (by simp)
      | succ count =>
          obtain ⟨hwidth, hrest⟩ := h.of_cons
          cases widths with
          | nil =>
              simp only [draw]
              obtain rfl : 0 = count := by simpa using hrest.length_eq
              have hsum := hrest.sum_eq
              simp only [List.sum_nil] at hsum
              refine ⟨by omega, rfl, by simp only [List.sum_singleton]; omega, ?_⟩
              intro w hw
              rw [List.mem_singleton] at hw
              omega
          | cons next widths =>
              simp only [draw]
              obtain ⟨hmore, hspread⟩ := ih (need - max 0 (min need width)) hrest
              refine ⟨by omega, Spread.cons (by omega) ?_⟩
              have heq : ∀ taken more : Int,
                  total - (taken + more) - (width - taken) = total - width - more := by
                intro taken more
                omega
              rw [heq]
              exact hspread

/-- Filling the first line moves characters and loses none. -/
theorem fillFirst_spec {head tail total : Int} {count : Nat} {widths : List Int}
    (htail : 0 ≤ tail) (h : Spread total count widths) :
    Spread total count (fillFirst head tail widths) := by
  cases widths with
  | nil => exact h
  | cons first later =>
      cases count with
      | zero => exact absurd h.length_eq (by simp)
      | succ count =>
          obtain ⟨hfirst, hlater⟩ := h.of_cons
          obtain ⟨htaken, hrest⟩ := draw_spec (head - first) htail hlater
          unfold fillFirst
          refine Spread.cons (by omega) ?_
          have heq : total - (first + (draw (head - first) tail later).1) =
              total - first - (draw (head - first) tail later).1 := by omega
          rw [heq]
          exact hrest

/-- Rebalancing moves characters between lines and loses none. -/
theorem rebalance_spec {head tail total : Int} {count : Nat} {widths : List Int}
    (hhead : 0 ≤ head) (htail : 0 ≤ tail) (h : Spread total count widths) :
    Spread total count (rebalance head tail widths) := by
  unfold rebalance
  exact (fillFirst_spec hhead (fillFirst_spec htail h).reverse).reverse

/-- The room of a layout is that of its lines together. -/
theorem net_eq_sum (l : Layout) : l.net = l.widths.sum := rfl

/-- The widths of a layout spread its room over its lines. -/
theorem spread_widths (l : Layout) :
    Spread l.net (l.later.length + 1) (l.widths.map Int.ofNat) := by
  refine ⟨by simp [widths], ?_, ?_⟩
  · rw [net_eq_sum]
    induction l.widths with
    | nil => rfl
    | cons w ws ih =>
        simp only [List.map_cons, List.sum_cons, Nat.cast_add, ih]
        rfl
  · intro w hw
    obtain ⟨n, -, rfl⟩ := List.mem_map.1 hw
    exact Int.natCast_nonneg n

/-- The widths for a shape spread the same room over the same lines. -/
theorem spread_filledWidths (l : Layout) (s : Shape) :
    Spread l.net (l.later.length + 1) (l.filledWidths s) := by
  unfold filledWidths
  dsimp only
  split
  · exact spread_widths l
  · exact rebalance_spec (by omega) (by omega) (spread_widths l)

/-- The characters of the line breaks and the indentation. -/
def frame (lines : List LineShape) : Nat := (lines.map fun l => (l.ending ++ l.indent).length).sum

/-- What is left for the later lines when a line has been written. -/
theorem Spread.drop {body : Text} {count : Nat} {w : Int} {widths : List Int}
    (h : Spread body.length (count + 1) (w :: widths)) :
    w.toNat ≤ body.length ∧ Spread (body.drop w.toNat).length count widths := by
  obtain ⟨hw, hrest⟩ := h.of_cons
  have hle := hrest.total_nonneg
  have hlen : ((body.drop w.toNat).length : Int) = body.length - w := by
    rw [List.length_drop]
    omega
  refine ⟨by omega, ?_⟩
  rw [hlen]
  exact hrest

/-- What is written over lines is as long as the body and the layout together. -/
theorem length_writeLines {body : Text} {lines : List LineShape} {widths : List Int}
    (h : Spread body.length lines.length widths) :
    (writeLines body lines widths).length = body.length + frame lines := by
  induction lines generalizing body widths with
  | nil =>
      obtain rfl : widths = [] := by simpa using h.length_eq
      have hbody : body.length = 0 := by
        have hsum := h.sum_eq
        simp only [List.sum_nil] at hsum
        omega
      simp [writeLines, frame, hbody]
  | cons line lines ih =>
      cases widths with
      | nil => simpa using h.length_eq
      | cons w widths =>
          obtain ⟨hle, hdrop⟩ := h.drop
          have hrun := ih hdrop
          simp only [writeLines, List.length_append, List.length_take, hrun, List.length_drop]
          simp only [frame, List.length_append, List.map_cons, List.sum_cons]
          omega

/-- A text whose end fits on the last line is written with that end on it. -/
theorem writeLines_append {x tail : Text} {lines : List LineShape} {widths : List Int}
    (hne : lines ≠ []) (h : Spread (x ++ tail).length lines.length widths)
    (hlast : ∀ last, widths.getLast? = some last → (tail.length : Int) ≤ last)
    (hframe : ∀ line ∈ lines, ∀ c ∈ line.ending ++ line.indent, Text.isLayout c = true) :
    ∃ mid, writeLines (x ++ tail) lines widths = mid ++ tail ∧
      mid.filter (!Text.isLayout ·) = x.filter (!Text.isLayout ·) := by
  induction lines generalizing x widths with
  | nil => exact absurd rfl hne
  | cons line lines ih =>
      cases widths with
      | nil => simpa using h.length_eq
      | cons w widths =>
          obtain ⟨hle, hdrop⟩ := h.drop
          have hline : (line.ending ++ line.indent).filter (!Text.isLayout ·) = [] := by
            rw [List.filter_eq_nil_iff]
            intro c hc
            simp [hframe line (List.mem_cons_self ..) c hc]
          cases lines with
          | nil =>
              obtain rfl : widths = [] := List.length_eq_zero_iff.1 hdrop.length_eq
              have hsum := hdrop.sum_eq
              rw [List.sum_nil, List.length_drop] at hsum
              have htake : (x ++ tail).take w.toNat = x ++ tail :=
                List.take_of_length_le (by omega)
              refine ⟨line.ending ++ line.indent ++ x, ?_, ?_⟩
              · simp [writeLines, htake]
              · rw [List.filter_append, hline, List.nil_append]
          | cons line' lines =>
              have hne' : widths ≠ [] := by
                rintro rfl
                simpa using hdrop.length_eq
              have hlast' : ∀ last, widths.getLast? = some last → (tail.length : Int) ≤ last := by
                intro last hsome
                refine hlast last ?_
                rw [List.getLast?_cons_of_ne_nil hne', hsome]
              have hwx : w.toNat ≤ x.length := by
                have hsome := List.getLast?_eq_some_getLast hne'
                have htail := hlast' _ hsome
                have hlastle := hdrop.getLast_le hsome
                rw [List.length_append] at hle
                rw [List.length_drop, List.length_append] at hlastle
                omega
              have htake : (x ++ tail).take w.toNat = x.take w.toNat :=
                List.take_append_of_le_length hwx
              rw [List.drop_append_of_le_length hwx] at hdrop
              obtain ⟨mid, hmid, hfilter⟩ := ih (List.cons_ne_nil _ _) hdrop hlast'
                fun line'' hline'' => hframe line'' (List.mem_cons_of_mem _ hline'')
              refine ⟨line.ending ++ line.indent ++ x.take w.toNat ++ mid, ?_, ?_⟩
              · rw [writeLines, htake, List.drop_append_of_le_length hwx, hmid]
                simp only [List.append_assoc]
              · rw [List.filter_append, List.filter_append, hline, hfilter, List.nil_append,
                  ← List.filter_append, List.take_append_drop]

section Write

variable {l : Layout} {widths : List Int}

/-- What is written over a layout is as long as the body and the layout together. -/
theorem length_write {body : Text} (h : Spread body.length (l.later.length + 1) widths) :
    (l.write body widths).length = body.length + frame l.later := by
  cases widths with
  | nil => simpa using h.length_eq
  | cons first later =>
      obtain ⟨hle, hdrop⟩ := h.drop
      rw [write, List.length_append, length_writeLines hdrop, List.length_take, List.length_drop]
      omega

/-- On a single line the body is written as it is. -/
theorem write_of_isSingleLine {body : Text} (hl : l.isSingleLine = true)
    (h : Spread body.length (l.later.length + 1) widths) : l.write body widths = body := by
  have hnone : l.later = [] := List.isEmpty_iff.1 hl
  rw [hnone] at h
  cases widths with
  | nil => simpa using h.length_eq
  | cons first later =>
      obtain ⟨hle, hdrop⟩ := h.drop
      obtain rfl : later = [] := List.length_eq_zero_iff.1 hdrop.length_eq
      have hsum := hdrop.sum_eq
      rw [List.sum_nil, List.length_drop] at hsum
      rw [write, hnone, writeLines, List.append_nil]
      · exact List.take_of_length_le (by omega)
      · exact fun _ _ _ _ h => by cases h

/-- What `holds?` says of several lines. -/
theorem holds?_cons {head tail first : Int} {later : List Int} (hne : later ≠ [])
    (h : holds? head tail (first :: later) = some true) :
    head ≤ first ∧ ∀ last, later.getLast? = some last → tail ≤ last := by
  have hsome := List.getLast?_eq_some_getLast hne
  rw [holds?, List.head?_cons, List.getLast?_cons_of_ne_nil hne, hsome] at h
  simp only [Option.some.injEq, Bool.and_eq_true, decide_eq_true_eq] at h
  refine ⟨h.1, fun last hlast => ?_⟩
  rw [hsome, Option.some.injEq] at hlast
  rw [← hlast]
  exact h.2

/-- A text whose beginning fits on the first of several lines, and whose end on the last, is
written with both whole. -/
theorem write_append {head x tail : Text} (hl : l.later ≠ [])
    (h : Spread (head ++ x ++ tail).length (l.later.length + 1) widths)
    (hholds : holds? head.length tail.length widths = some true)
    (hframe : ∀ line ∈ l.later, ∀ c ∈ line.ending ++ line.indent, Text.isLayout c = true) :
    ∃ mid, l.write (head ++ x ++ tail) widths = head ++ mid ++ tail ∧
      mid.filter (!Text.isLayout ·) = x.filter (!Text.isLayout ·) := by
  cases widths with
  | nil => simpa using h.length_eq
  | cons first later =>
      obtain ⟨hle, hdrop⟩ := h.drop
      have hne : later ≠ [] := by
        rintro rfl
        exact hl (List.length_eq_zero_iff.1 hdrop.length_eq.symm)
      obtain ⟨hhead, htail⟩ := holds?_cons hne hholds
      have hsome := List.getLast?_eq_some_getLast hne
      have hlast := htail _ hsome
      have hlastle := hdrop.getLast_le hsome
      rw [List.length_append, List.length_append] at hle
      rw [List.length_drop, List.length_append, List.length_append] at hlastle
      -- the first line takes the head and some of the rest, and leaves the tail
      have hfirst : head.length ≤ first.toNat := by omega
      have hcut : first.toNat - head.length ≤ x.length := by omega
      have htake : (head ++ x ++ tail).take first.toNat =
          head ++ x.take (first.toNat - head.length) := by
        rw [List.append_assoc, List.take_append, List.take_of_length_le hfirst,
          List.take_append_of_le_length hcut]
      have hrest : (head ++ x ++ tail).drop first.toNat =
          x.drop (first.toNat - head.length) ++ tail := by
        rw [List.append_assoc, List.drop_append, List.drop_of_length_le hfirst, List.nil_append,
          List.drop_append_of_le_length hcut]
      rw [hrest] at hdrop
      obtain ⟨mid, hmid, hmarks⟩ := writeLines_append hl hdrop htail hframe
      refine ⟨x.take (first.toNat - head.length) ++ mid, ?_, ?_⟩
      · rw [write, htake, hrest, hmid]
        simp only [List.append_assoc]
      · rw [List.filter_append, hmarks, ← List.filter_append, List.take_append_drop]

end Write

/-- Later lines are as long as their layout and their widths together. -/
theorem frame_map_ofLine (later : List (Text × Text)) :
    (later.flatMap fun l => l.1 ++ l.2).length =
      frame (later.map ofLine) + (later.map fun l => (ofLine l).width).sum := by
  induction later with
  | nil => rfl
  | cons l later ih =>
      have hsplit : l.2.length =
          (l.2.takeWhile Text.isIndent).length + (l.2.dropWhile Text.isIndent).length := by
        rw [← List.length_append, List.takeWhile_append_dropWhile]
      simp only [List.flatMap_cons, List.length_append, ih, frame, List.map_cons, List.sum_cons]
      simp only [ofLine]
      omega

/-- The layout of a text accounts for all of its characters. -/
theorem length_eq_net_add_frame (t : Text) :
    t.length = (Layout.of t).net + frame (Layout.of t).later := by
  have hjoin := congrArg List.length (Text.lines_join t)
  rw [List.length_append, frame_map_ofLine] at hjoin
  have hwidths : ((Text.lines t).2.map ofLine).map (·.width) =
      (Text.lines t).2.map fun l => (ofLine l).width := List.map_map
  simp only [net_eq_sum, widths, Layout.of, List.sum_cons, hwidths]
  omega

/-- Line breaks and indentation belong to the layout. -/
theorem isLayout_of_mem_frame {t : Text} {line : LineShape} (h : line ∈ (Layout.of t).later)
    {c : Char} (hc : c ∈ line.ending ++ line.indent) : Text.isLayout c = true := by
  obtain ⟨l, hl, rfl⟩ := List.mem_map.1 h
  rcases List.mem_append.1 hc with hc | hc
  · exact Text.isLayout_of_mem_ending hl hc
  · have hindent : Text.isIndent c = true := List.mem_takeWhile_imp hc
    simp [Text.isLayout, hindent]

/-- What stands between the head and the tail when a layout is filled: at least the fewest fillers,
as many as the layout has room for, and among them nothing but line breaks and indentation. -/
structure Filling (l : Layout) (s : Shape) (filler : Char) (mid : Text) : Prop where
  enough : s.minFill + s.head.length + s.tail.length ≤ l.net
  marks : mid.filter (!Text.isLayout ·) =
    List.replicate (l.net - s.head.length - s.tail.length) filler
  plain : l.isSingleLine = true →
    mid = List.replicate (l.net - s.head.length - s.tail.length) filler

/-- A shape that fills a layout has as many fillers as there is room for, at least the fewest, and
is written over the lines. -/
theorem fill_eq_some {l : Layout} {s : Shape} {p : Text} (hmin : 0 ≤ s.minFill)
    (h : l.fill s = some p) :
    ∃ n : Nat, l.net = n + s.head.length + s.tail.length ∧ s.minFill ≤ n ∧
      p = l.write (s.head ++ (List.replicate n s.filler).flatten ++ s.tail) (l.filledWidths s) ∧
      (l.isSingleLine = true ∨
        holds? s.head.length s.tail.length (l.filledWidths s) = some true) := by
  unfold fill at h
  dsimp only at h
  split at h
  · cases h
  rename_i hcount
  split at h
  swap
  · cases h
  rename_i hroom
  cases h
  refine ⟨(l.net - s.head.length - s.tail.length : Int).toNat, by omega, by omega, rfl, ?_⟩
  simpa using hroom

/-- A filled layout has the length of the text that it is the layout of, and is the head, a filling
and the tail. -/
theorem fill_spec {t p : Text} {s : Shape} (filler : Char) (hshape : s.filler = [filler])
    (hfiller : Text.isLayout filler = false) (hmin : 0 ≤ s.minFill)
    (h : (Layout.of t).fill s = some p) :
    p.length = t.length ∧
      ∃ mid, p = s.head ++ mid ++ s.tail ∧ (Layout.of t).Filling s filler mid := by
  obtain ⟨n, hnet, henough, rfl, hroom⟩ := fill_eq_some hmin h
  have hsub : (Layout.of t).net - s.head.length - s.tail.length = n := by omega
  have hkeep : (List.replicate n filler).filter (!Text.isLayout ·) = List.replicate n filler := by
    simp [hfiller]
  have hbody : (s.head ++ List.replicate n filler ++ s.tail).length = (Layout.of t).net := by
    rw [List.length_append, List.length_append, List.length_replicate]
    omega
  have hspread := spread_filledWidths (Layout.of t) s
  rw [← hbody] at hspread
  rw [hshape, List.flatten_replicate_singleton]
  refine ⟨?_, ?_⟩
  · rw [length_write hspread, hbody, length_eq_net_add_frame t]
  cases hsingle : (Layout.of t).isSingleLine with
  | true =>
      refine ⟨List.replicate n filler, write_of_isSingleLine hsingle hspread, by omega, ?_, ?_⟩
      · rw [hsub, hkeep]
      · exact fun _ => by rw [hsub]
  | false =>
      have hholds := hroom.resolve_left (by simp [hsingle])
      have hsome : (Layout.of t).later ≠ [] := by
        simpa [isSingleLine] using hsingle
      obtain ⟨mid, hmid, hmarks⟩ := write_append hsome hspread hholds
        fun line hline c hc => isLayout_of_mem_frame hline hc
      refine ⟨mid, hmid, by omega, ?_, ?_⟩
      · rw [hmarks, hkeep, hsub]
      · intro h
        rw [hsingle] at h
        cases h

end Layout

end Stencil
