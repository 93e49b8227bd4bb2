import Stencil.Proofs.Text.Filling

/-!
# Which shapes fit

Moving characters between lines finds the room that there is: if a layout has as many characters
as the beginning and the end of a shape take together, the first line comes to hold the beginning
and the last line the end. So a layout can be filled in some way just if it is large enough,
however its characters are spread over its lines (`Layout.isSome_fill_iff`).
-/

set_option autoImplicit false

namespace Stencil.Layout

/-- Drawing takes what is needed, up to all the characters but those that the last line keeps. -/
theorem draw_eq (need : Int) {floor last : Int} {widths : List Int}
    (hnonneg : ∀ w ∈ widths, 0 ≤ w) (hlast : widths.getLast? = some last) :
    (draw need floor widths).1 = max 0 (min need (widths.sum - min floor last)) ∧
      ∃ last', (draw need floor widths).2.getLast? = some last' ∧ min floor last ≤ last' := by
  induction widths generalizing need with
  | nil => cases hlast
  | cons width widths ih =>
      obtain ⟨hwidth, hrest⟩ := List.forall_mem_cons.1 hnonneg
      cases widths with
      | nil =>
          obtain rfl : width = last := by simpa using hlast
          refine ⟨?_, width - max 0 (min need (width - floor)), rfl, by omega⟩
          rw [draw, List.sum_singleton]
          omega
      | cons next widths =>
          rw [List.getLast?_cons_cons] at hlast
          have hle : last ≤ (next :: widths).sum :=
            List.single_le_sum hrest last (List.mem_of_getLast? hlast)
          obtain ⟨hmore, last', hlast', hkept⟩ := ih (need - max 0 (min need width)) hrest hlast
          simp only [draw]
          rw [hmore, List.sum_cons (l := next :: widths)]
          generalize (next :: widths).sum = total at hle
          exact ⟨by omega, last', by rw [List.getLast?_cons, hlast', Option.getD_some], hkept⟩

/-- Filling the first of several lines: it holds the beginning if there are characters enough for
both, and the last line keeps what it holds of the end. -/
theorem fillFirst_eq (head tail : Int) {first last : Int} {later : List Int}
    (hnonneg : ∀ w ∈ later, 0 ≤ w) (hlast : later.getLast? = some last)
    (hroom : head + tail ≤ first + later.sum) :
    ∃ first' later' last', fillFirst head tail (first :: later) = first' :: later' ∧
      head ≤ first' ∧ later'.getLast? = some last' ∧ min tail last ≤ last' := by
  obtain ⟨htaken, last', hlast', hkept⟩ := draw_eq (head - first) hnonneg hlast
  refine ⟨_, _, last', rfl, ?_, hlast', hkept⟩
  show head ≤ first + (draw (head - first) tail later).1
  omega

/-- Widths of several lines that have room for beginning and end come to hold both. -/
theorem holds?_rebalance {head tail total : Int} {count : Nat} {widths : List Int}
    (htail : 0 ≤ tail) (h : Spread total (count + 2) widths) (hroom : head + tail ≤ total) :
    holds? head tail (rebalance head tail widths) = some true := by
  have hfilled : Spread total (count + 2) (fillFirst head tail widths).reverse :=
    (fillFirst_spec htail h).reverse
  match widths, h with
  | first :: next :: later, h =>
    obtain ⟨last, hlast⟩ : ∃ last, (next :: later).getLast? = some last :=
      ⟨_, List.getLast?_eq_some_getLast (List.cons_ne_nil _ _)⟩
    have hsum : first + (next :: later).sum = total := by
      rw [← h.sum_eq, List.sum_cons (l := next :: later)]
    have hlater : ∀ w ∈ next :: later, 0 ≤ w := (List.forall_mem_cons.1 h.nonneg).2
    obtain ⟨first', later', last', hfirst, hle, hlast', -⟩ :=
      fillFirst_eq head tail hlater hlast (by rw [hsum]; exact hroom)
    -- the last line is filled as the first one was, with the lines in reverse
    obtain ⟨body, rfl⟩ := List.getLast?_eq_some_iff.1 hlast'
    have hback : (first' :: (body ++ [last'])).reverse = last' :: (body.reverse ++ [first']) := by
      simp
    rw [hfirst, hback] at hfilled
    have hsum' : last' + (body.reverse ++ [first']).sum = total := by
      rw [← hfilled.sum_eq, List.sum_cons]
    obtain ⟨last'', body', first'', hlast'', hle', hfirst'', hkept⟩ :=
      fillFirst_eq tail head (List.forall_mem_cons.1 hfilled.nonneg).2 List.getLast?_concat
        (by rw [hsum']; omega)
    rw [rebalance, hfirst, hback, hlast'', holds?, List.head?_reverse, List.getLast?_reverse,
      List.getLast?_cons, hfirst'']
    simp only [Option.getD_some, List.head?_cons, Option.some.injEq, Bool.and_eq_true,
      decide_eq_true_eq]
    omega

/-- A layout can be filled in some way just if it is large enough. -/
theorem isSome_fill_iff {l : Layout} {s : Shape} (hmin : 0 ≤ s.minFill) :
    (l.fill s).isSome ↔ s.minFill + s.head.length + s.tail.length ≤ l.net := by
  constructor
  · intro h
    obtain ⟨p, hp⟩ := Option.isSome_iff_exists.1 h
    obtain ⟨n, hnet, henough, -⟩ := fill_eq_some hmin hp
    omega
  · intro hnet
    have hroom : l.isSingleLine = true ∨
        holds? s.head.length s.tail.length (l.filledWidths s) = some true := by
      cases hsingle : l.isSingleLine with
      | true => exact .inl rfl
      | false =>
          obtain ⟨line, later, hlater⟩ : ∃ line later, l.later = line :: later :=
            List.exists_cons_of_ne_nil (by simpa [isSingleLine] using hsingle)
          have hspread := spread_widths l
          rw [hlater, List.length_cons] at hspread
          right
          rw [filledWidths, if_neg (by simp [hsingle])]
          exact holds?_rebalance (by omega) hspread (by omega)
    unfold fill
    dsimp only
    rw [if_neg (by omega), if_pos (by simpa using hroom)]
    rfl

end Stencil.Layout
