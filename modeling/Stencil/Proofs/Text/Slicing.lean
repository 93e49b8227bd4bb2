import Stencil.Proofs.Text.Fitting

/-!
# The slices of a filled layout

A layout that is filled is a row of slices, one for each line behind its line break and indentation.
The slices of the text itself hold what belongs to no line break and no indentation. Those of what
is filled in make up the head, the fillers and the tail: the first slice begins with the whole head
and the last one ends with the whole tail. Whether there is such a text is a matter of size alone,
and characters change their lines only where the first or the last line has no room
(`Layout.fill_slices`).
-/

set_option autoImplicit false

namespace Stencil.Layout

/-- A text over the lines of a layout: a slice on each line, behind the line break and the
indentation of the line. -/
def lay (l : Layout) (first : Text) (later : List Text) : Text :=
  first ++
    (List.zipWith (fun line slice => line.ending ++ line.indent ++ slice) l.later later).flatten

/-! ## The slices of the text itself -/

/-- No line of a text holds a character that breaks lines. -/
theorem not_break_of_mem_lines (t : Text) :
    (∀ c ∈ (Text.lines t).1, c ≠ '\r' ∧ c ≠ '\n') ∧
      ∀ line ∈ (Text.lines t).2, ∀ c ∈ line.2, c ≠ '\r' ∧ c ≠ '\n' := by
  fun_induction Text.lines t with
  | case1 => simp
  | case2 t first later heq ih | case3 t _ first later heq ih | case4 t first later heq ih =>
      rw [heq] at ih
      exact ⟨by simp, List.forall_mem_cons.2 ih⟩
  | case5 c t _ hreturn hfeed first later heq ih =>
      rw [heq] at ih
      exact ⟨List.forall_mem_cons.2 ⟨⟨hreturn, hfeed⟩, ih.1⟩, ih.2⟩

/-- Lines put together again are the lines. -/
theorem zipWith_lines (later : List (Text × Text)) :
    (List.zipWith (fun line slice => line.ending ++ line.indent ++ slice) (later.map ofLine)
      (later.map fun line => line.2.dropWhile Text.isIndent)).flatten =
      later.flatMap fun line => line.1 ++ line.2 := by
  induction later with
  | nil => rfl
  | cons line later ih =>
      simp only [List.map_cons, List.zipWith_cons_cons, List.flatten_cons, List.flatMap_cons, ih]
      simp only [ofLine, List.append_assoc]
      rw [← List.append_assoc (List.takeWhile _ _), List.takeWhile_append_dropWhile]

/-- What lies over a layout has the characters of its slices and those of the line breaks and the
indentation. -/
theorem length_lay {l : Layout} {first : Text} {later : List Text}
    (h : later.length = l.later.length) :
    (l.lay first later).length = (first ++ later.flatten).length + frame l.later := by
  obtain ⟨width, lines⟩ := l
  dsimp only at h
  rw [lay, List.length_append, List.length_append, Nat.add_assoc, Nat.add_left_cancel_iff]
  dsimp only
  induction lines generalizing later with
  | nil =>
      obtain rfl : later = [] := List.length_eq_zero_iff.1 h
      rfl
  | cons line lines ih =>
      cases later with
      | nil => cases h
      | cons slice later =>
          simp only [List.zipWith_cons_cons, List.flatten_cons, List.length_append,
            ih (Nat.succ.inj h), frame, List.map_cons, List.sum_cons]
          omega

/-- A text lies over its own lines: its slices have the widths of the layout, no line break is in
any of them, and the later ones do not start with indentation. -/
theorem exists_lay (t : Text) :
    ∃ first later, t = (Layout.of t).lay first later ∧
      (first :: later).map List.length = (Layout.of t).widths ∧
      (∀ slice ∈ first :: later, ∀ c ∈ slice, c ≠ '\r' ∧ c ≠ '\n') ∧
      ∀ slice ∈ later, ∀ c ∈ slice.head?, Text.isIndent c = false := by
  refine ⟨(Text.lines t).1, (Text.lines t).2.map fun line => line.2.dropWhile Text.isIndent,
    ?_, ?_, ?_, ?_⟩
  · rw [lay, Layout.of, zipWith_lines, Text.lines_join]
  · simp [widths, Layout.of, ofLine]
  · simp only [List.forall_mem_cons, List.forall_mem_map]
    obtain ⟨hfirst, hlater⟩ := not_break_of_mem_lines t
    exact ⟨hfirst, fun line hline c hc =>
      hlater line hline c ((List.dropWhile_sublist _).subset hc)⟩
  · simp only [List.forall_mem_map]
    intro line _ c hc
    have hnot := List.head?_dropWhile_not Text.isIndent line.2
    rw [Option.mem_def] at hc
    rw [hc] at hnot
    exact hnot

/-! ## The slices of what is filled in -/

/-- A text cut into slices of given widths. -/
def slices (body : Text) : List Int → List Text
  | [] => []
  | width :: widths => body.take width.toNat :: slices (body.drop width.toNat) widths

/-- Writing over lines is slicing the body and putting each slice on its line. -/
theorem writeLines_eq (body : Text) (lines : List LineShape) (widths : List Int) :
    writeLines body lines widths =
      (List.zipWith (fun line slice => line.ending ++ line.indent ++ slice) lines
        (slices body widths)).flatten := by
  induction lines generalizing body widths with
  | nil => simp [writeLines]
  | cons line lines ih =>
      cases widths with
      | nil => simp [writeLines, slices]
      | cons width widths =>
          simp [writeLines, slices, ih]

/-- A text is written over a layout slice by slice. -/
theorem write_eq_lay (l : Layout) (body : Text) (first : Int) (later : List Int) :
    l.write body (first :: later) =
      l.lay (body.take first.toNat) (slices (body.drop first.toNat) later) := by
  rw [write, lay, writeLines_eq]

section Slices

variable {body : Text} {count : Nat} {widths : List Int}

/-- Widths that account for all characters cut a text into slices that make it up. -/
theorem flatten_slices (h : Spread body.length count widths) :
    (slices body widths).flatten = body := by
  induction widths generalizing body count with
  | nil =>
      have hsum := h.sum_eq
      rw [List.sum_nil] at hsum
      have hempty : body = [] := List.length_eq_zero_iff.1 (by omega)
      rw [hempty]
      rfl
  | cons width widths ih =>
      obtain rfl : widths.length + 1 = count := h.length_eq
      rw [slices, List.flatten_cons, ih h.drop.2, List.take_append_drop]

/-- The slices are as long as the widths say. -/
theorem length_slices (h : Spread body.length count widths) :
    (slices body widths).map (fun slice => (slice.length : Int)) = widths := by
  induction widths generalizing body count with
  | nil => rfl
  | cons width widths ih =>
      obtain rfl : widths.length + 1 = count := h.length_eq
      obtain ⟨hwidth, -⟩ := h.of_cons
      obtain ⟨hle, hdrop⟩ := h.drop
      rw [slices, List.map_cons, ih hdrop, List.length_take]
      congr 1
      omega

/-- The last slice ends with all that a text ends with and that it has room for. -/
theorem suffix_getLast_slices {tail last : Text} (h : Spread body.length count widths)
    (htail : tail <:+ body) (hlast : (slices body widths).getLast? = some last)
    (hroom : ∀ width, widths.getLast? = some width → (tail.length : Int) ≤ width) :
    tail <:+ last := by
  obtain ⟨front, hfront⟩ := List.getLast?_eq_some_iff.1 hlast
  have hsuffix : last <:+ body := by
    rw [← flatten_slices h, hfront, List.flatten_append, List.flatten_singleton]
    exact List.suffix_append _ _
  have hwidth : widths.getLast? = some (last.length : Int) := by
    rw [← length_slices h, List.getLast?_map, hlast, Option.map_some]
  have hle := hroom _ hwidth
  exact List.suffix_of_suffix_length_le htail hsuffix (by omega)

end Slices

/-! ## Lines that keep their lengths -/

/-- Nothing is drawn where nothing is needed. -/
theorem draw_of_nonpos {need : Int} (h : need ≤ 0) (floor : Int) (widths : List Int) :
    draw need floor widths = (0, widths) := by
  have hnone (room : Int) : max 0 (min need room) = 0 := by omega
  induction widths with
  | nil => rfl
  | cons width widths ih =>
      cases widths with
      | nil => simp only [draw, hnone, Int.sub_zero]
      | cons next widths =>
          simp only [draw, hnone, Int.sub_zero, Int.zero_add]
          rw [ih]

/-- A first line with room for the head stays as it is. -/
theorem fillFirst_of_le {head first : Int} (h : head ≤ first) (tail : Int) (later : List Int) :
    fillFirst head tail (first :: later) = first :: later := by
  rw [fillFirst, draw_of_nonpos (by omega)]
  simp

/-- Where the first line has room for the head and the last line for the tail, nothing is moved. -/
theorem rebalance_of_le {head tail first last : Int} {later : List Int} (hhead : head ≤ first)
    (hlast : (first :: later).getLast? = some last) (htail : tail ≤ last) :
    rebalance head tail (first :: later) = first :: later := by
  obtain ⟨front, hfront⟩ := List.getLast?_eq_some_iff.1 hlast
  rw [rebalance, fillFirst_of_le hhead, hfront, List.reverse_append, List.reverse_singleton,
    List.singleton_append, fillFirst_of_le htail]
  simp

/-- Where the head fits on the first line and the tail on the last, all lines stay as they are. -/
theorem filledWidths_of_le {l : Layout} {s : Shape} {last : Nat} (hhead : s.head.length ≤ l.first)
    (hlast : l.widths.getLast? = some last) (htail : s.tail.length ≤ last) :
    l.filledWidths s = l.widths.map Int.ofNat := by
  unfold filledWidths
  dsimp only
  split
  · rfl
  · have hlast' : (l.widths.map Int.ofNat).getLast? = some (last : Int) := by
      rw [List.getLast?_map, hlast]
      rfl
    exact rebalance_of_le (Int.ofNat_le.2 hhead) hlast' (Int.ofNat_le.2 htail)

/-! ## Filling -/

/-- The widths of a layout that is filled have room for the head and the tail, be there one line or
several. -/
theorem room_of_fill {l : Layout} {s : Shape} {first : Int} {later : List Int}
    (hwidths : l.filledWidths s = first :: later)
    (hnet : s.head.length + s.tail.length ≤ l.net)
    (hroom : l.isSingleLine = true ∨
      holds? s.head.length s.tail.length (first :: later) = some true) :
    (s.head.length : Int) ≤ first ∧
      ∀ width, (first :: later).getLast? = some width → (s.tail.length : Int) ≤ width := by
  have hspread := spread_filledWidths l s
  rw [hwidths] at hspread
  rcases hroom with hsingle | hholds
  · have hnone : l.later = [] := List.isEmpty_iff.1 hsingle
    obtain rfl : later = [] := by
      have hlength := hspread.length_eq
      rw [hnone] at hlength
      simpa using hlength
    have hsum := hspread.sum_eq
    rw [List.sum_singleton] at hsum
    refine ⟨by omega, fun width hwidth => ?_⟩
    obtain rfl : first = width := by simpa using hwidth
    omega
  · obtain ⟨last, hlast⟩ : ∃ last, (first :: later).getLast? = some last :=
      ⟨_, List.getLast?_eq_some_getLast (List.cons_ne_nil _ _)⟩
    rw [holds?, List.head?_cons, hlast] at hholds
    simp only [Option.some.injEq, Bool.and_eq_true, decide_eq_true_eq] at hholds
    refine ⟨hholds.1, fun width hwidth => ?_⟩
    rw [hlast, Option.some.injEq] at hwidth
    rw [← hwidth]
    exact hholds.2

/-- What is filled in are slices of the head, the fillers and the tail, with the whole head on the
first line and the whole tail on the last. -/
theorem lay_of_fill {l : Layout} {s : Shape} {filler : Char} {p : Text}
    (hfiller : s.filler = [filler]) (hmin : 0 ≤ s.minFill) (h : l.fill s = some p) :
    ∃ first later, p = l.lay first later ∧ later.length = l.later.length ∧
      first ++ later.flatten =
        s.head ++ List.replicate (l.net - s.head.length - s.tail.length) filler ++ s.tail ∧
      s.head <+: first ∧ (∀ last, (first :: later).getLast? = some last → s.tail <:+ last) ∧
      (first :: later).map (fun slice => (slice.length : Int)) = l.filledWidths s := by
  obtain ⟨n, hnet, henough, rfl, hroom⟩ := fill_eq_some hmin h
  have hsub : l.net - s.head.length - s.tail.length = n := by omega
  rw [hfiller, List.flatten_replicate_singleton, hsub]
  generalize hbody : s.head ++ List.replicate n filler ++ s.tail = body
  have hlength : body.length = l.net := by
    rw [← hbody, List.length_append, List.length_append, List.length_replicate]
    omega
  have hspread := spread_filledWidths l s
  rw [← hlength] at hspread
  cases hwidths : l.filledWidths s with
  | nil =>
      rw [hwidths] at hspread
      cases hspread.length_eq
  | cons first later =>
      rw [hwidths] at hspread hroom
      obtain ⟨hhead, htail⟩ := room_of_fill hwidths (by omega) hroom
      have hcut : slices body (first :: later) =
        body.take first.toNat :: slices (body.drop first.toNat) later := rfl
      refine ⟨_, _, write_eq_lay l body first later, ?_, ?_, ?_, fun last hlast => ?_, ?_⟩
      · have hcount := congrArg List.length (length_slices hspread.drop.2)
        rw [List.length_map] at hcount
        rw [hcount]
        exact Nat.succ.inj hspread.length_eq
      · rw [← List.flatten_cons, ← hcut, flatten_slices hspread]
      · refine List.prefix_take_iff.2 ⟨?_, by omega⟩
        rw [← hbody, List.append_assoc]
        exact List.prefix_append _ _
      · rw [← hcut] at hlast
        exact suffix_getLast_slices hspread ⟨_, hbody⟩ hlast htail
      · rw [← hcut, length_slices hspread]

/-- How a layout is filled. A text lies in slices over its lines, behind line breaks and indentation
of its own, and what is filled in lies in slices over the same lines. There is none exactly if the
slices of the text together are shorter than the head, the tail and the fewest fillers. Otherwise it
is as long as the text, its slices make up the head, as many fillers as there is room for and the
tail, the first slice begins with the whole head, the last one ends with the whole tail, and if the
first line has room for the head and the last line for the tail every line keeps its length. -/
theorem fill_slices (t head tail : Text) (filler : Char) (minFill : Nat) :
    let l := Layout.of t
    let s : Shape := { head, filler := [filler], tail, minFill }
    (∃ first later, t = l.lay first later ∧ (first :: later).map List.length = l.widths ∧
      (∀ slice ∈ first :: later, ∀ c ∈ slice, c ≠ '\r' ∧ c ≠ '\n') ∧
      (∀ slice ∈ later, ∀ c ∈ slice.head?, Text.isIndent c = false) ∧
      ∀ line ∈ l.later, line.ending ∈ [['\r', '\n'], ['\r'], ['\n']] ∧
        ∀ c ∈ line.indent, Text.isIndent c = true) ∧
    (l.fill s = none ↔ l.widths.sum < head.length + tail.length + minFill) ∧
    ∀ p, l.fill s = some p →
      p.length = t.length ∧ ∃ first later, p = l.lay first later ∧
        later.length = l.later.length ∧
        first ++ later.flatten =
          head ++ List.replicate (l.widths.sum - head.length - tail.length) filler ++ tail ∧
        head <+: first ∧ (∀ last, (first :: later).getLast? = some last → tail <:+ last) ∧
        (head.length ≤ l.first →
          (∀ width, l.widths.getLast? = some width → tail.length ≤ width) →
          (first :: later).map List.length = l.widths) := by
  intro l s
  have hmin : 0 ≤ s.minFill := Int.natCast_nonneg minFill
  have hiff : (l.fill s).isSome ↔ (minFill : Int) + head.length + tail.length ≤ l.net :=
    isSome_fill_iff hmin
  refine ⟨?_, ?_, fun p hp => ?_⟩
  · obtain ⟨first, later, hlay, hwidths, hbreaks, hindents⟩ := exists_lay t
    refine ⟨first, later, hlay, hwidths, hbreaks, hindents, fun line hline => ?_⟩
    obtain ⟨line, hmem, rfl⟩ := List.mem_map.1 hline
    refine ⟨?_, fun c hc => List.mem_takeWhile_imp hc⟩
    simpa [ofLine] using Text.ending_of_mem_lines hmem
  · rw [← Option.not_isSome_iff_eq_none, hiff, net_eq_sum]
    omega
  · obtain ⟨first, later, hlay, hcount, hbody, hhead, htail, hwidths⟩ := lay_of_fill rfl hmin hp
    refine ⟨?_, first, later, hlay, hcount, hbody, hhead, htail, fun hfirst hlast => ?_⟩
    · have hroom : minFill + head.length + tail.length ≤ l.net := by
        exact_mod_cast hiff.1 (by rw [hp]; rfl)
      have hlength : t.length = l.net + frame l.later := length_eq_net_add_frame t
      have hfilled : (head ++ List.replicate (l.net - head.length - tail.length) filler ++
          tail).length = l.net := by
        simp only [List.length_append, List.length_replicate]
        omega
      rw [hlay, length_lay hcount, hbody, hfilled, hlength]
    · obtain ⟨last, hlast'⟩ : ∃ last, l.widths.getLast? = some last :=
        ⟨_, List.getLast?_eq_some_getLast (List.cons_ne_nil _ _)⟩
      rw [filledWidths_of_le hfirst hlast' (hlast _ hlast')] at hwidths
      refine List.map_injective_iff.2 (fun _ _ => Int.ofNat.inj) ?_
      rw [List.map_map]
      exact hwidths

/-- A text of three lines, the second of them indented, whose first line gets characters from the
second. -/
theorem fill_slices_of_short_line :
    let t := "ab\n  cdef\r\nghi".toList
    let p := "if(x\n  xx\r\nx);".toList
    (Layout.of t).fill
        { head := "if(x".toList, filler := ['x'], tail := ");".toList, minFill := 3 } = some p ∧
      p.length = t.length ∧ ∃ first later, p = (Layout.of t).lay first later ∧
        first ++ later.flatten = "if(xxxx);".toList ∧ "if(x".toList <+: first := by
  intro t p
  have hfill : (Layout.of t).fill
      { head := "if(x".toList, filler := ['x'], tail := ");".toList, minFill := 3 } = some p := by
    decide
  obtain ⟨hlength, first, later, hlay, -, hbody, hhead, -⟩ :=
    (fill_slices t "if(x".toList ");".toList 'x' 3).2.2 p hfill
  exact ⟨hfill, hlength, first, later, hlay, hbody, hhead⟩

end Stencil.Layout
