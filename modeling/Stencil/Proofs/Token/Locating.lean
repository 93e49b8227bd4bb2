import Stencil.Proofs.Token.Running

/-!
# Locations are faithful

A line starts behind a line feed, so that line and column together say how many characters lie in
front of a place (`Location.lineStart?_ofOffset`). Two places of one line lie in the order of their
columns, and no line comes back once it is over; so lines and columns are in the order of the
offsets, first by line (`Location.ofOffset_lt`).

Every exit of cutting hands its cause and an offset to the same function (`Page.Stops.eq_fault`).
What it makes of them are parts of one location, so they cannot disagree
(`LexError.located_faithful`).
-/

set_option autoImplicit false

namespace Stencil

/-! ## The starts of lines -/

namespace Text

/-- The offset of the first character behind so many line feeds, if there are as many. -/
def lineStart? : Text → Nat → Option Nat
  | _, 0 => some 0
  | [], _ + 1 => none
  | c :: t, n + 1 => (lineStart? t (if c = '\n' then n else n + 1)).map (· + 1)

/-- No later line starts with the text. -/
theorem lineStart?_succ_ne_zero (t : Text) (n : Nat) : lineStart? t (n + 1) ≠ some 0 := by
  cases t <;> simp [lineStart?]

/-- A line but the first starts behind a line feed, and as many line feeds stand in front of that as
there are lines in front of the line before. -/
theorem lineStart?_succ_iff {t : Text} {n i : Nat} :
    lineStart? t (n + 1) = some (i + 1) ↔ t[i]? = some '\n' ∧ (t.take i).count '\n' = n := by
  induction t generalizing n i with
  | nil => simp [lineStart?]
  | cons c t ih =>
      have htail : lineStart? (c :: t) (n + 1) = some (i + 1) ↔
          lineStart? t (if c = '\n' then n else n + 1) = some i := by
        simp [lineStart?]
      rw [htail]
      by_cases hfeed : c = '\n'
      · rw [if_pos hfeed]
        cases i with
        | zero =>
            cases n with
            | zero => simp [lineStart?, hfeed]
            | succ n => simp [lineStart?_succ_ne_zero]
        | succ i =>
            cases n with
            | zero => simp [lineStart?, hfeed]
            | succ n => simp [ih, hfeed]
      · rw [if_neg hfeed]
        cases i with
        | zero => simp [lineStart?_succ_ne_zero, hfeed]
        | succ i => simp [ih, hfeed]

/-- Behind a text that is empty or ends with a line feed a line starts. -/
theorem lineStart?_append {front : Text} (h : ∀ c ∈ front.getLast?, c = '\n') (rest : Text) :
    lineStart? (front ++ rest) (front.count '\n') = some front.length := by
  rcases List.eq_nil_or_concat front with rfl | ⟨init, c, rfl⟩
  · cases rest <;> rfl
  · obtain rfl : c = '\n' := h c (by simp)
    rw [List.concat_eq_append, List.count_append, List.length_append]
    exact lineStart?_succ_iff.2 (by simp)

end Text

namespace Location

variable {source : Text}

/-- What stands in front of a place is what stands in front of its line, and behind that as many
characters without a line feed as its column says. -/
theorem exists_front (source : Text) {o : Nat} (h : o ≤ source.length) :
    let l := ofOffset source o
    ∃ front line, source.take o = front ++ line ∧ (∀ c ∈ front.getLast?, c = '\n') ∧
      '\n' ∉ line ∧ l.line = front.count '\n' + 1 ∧ l.column = line.length + 1 := by
  intro l
  have hbefore : source.take (min (o : Int).toNat source.length) = source.take o := by simp [h]
  have hsplit := List.takeWhile_append_dropWhile (p := (· != '\n')) (l := (source.take o).reverse)
  have hline : '\n' ∉ (source.take o).reverse.takeWhile (· != '\n') := by
    intro hmem
    simpa using List.mem_takeWhile_imp hmem
  refine ⟨((source.take o).reverse.dropWhile (· != '\n')).reverse,
    ((source.take o).reverse.takeWhile (· != '\n')).reverse, ?_, ?_, ?_, ?_, ?_⟩
  · rw [← List.reverse_append, hsplit, List.reverse_reverse]
  · intro c hc
    rw [List.getLast?_reverse] at hc
    have hnot := List.head?_dropWhile_not (· != '\n') (source.take o).reverse
    rw [Option.mem_def.1 hc] at hnot
    simpa using hnot
  · rwa [List.mem_reverse]
  · have hcount := congrArg (List.count '\n') hsplit
    rw [List.count_append, List.count_eq_zero.2 hline, List.count_reverse, Nat.zero_add] at hcount
    rw [List.count_reverse, hcount, ← hbefore]
    rfl
  · rw [List.length_reverse, ← hbefore]
    rfl

/-- Line and column count from one and say how many characters lie in front of a place: those in
front of its line, and those in front of its column, between which no line ends. -/
theorem lineStart?_ofOffset {o : Nat} (h : o ≤ source.length) :
    let l := ofOffset source o
    1 ≤ l.line ∧ 1 ≤ l.column ∧ ∃ s, source.lineStart? (l.line - 1) = some s ∧
      s + l.column - 1 = o ∧ '\n' ∉ (source.take o).drop s := by
  intro l
  obtain ⟨front, line, hbefore, hfront, hfeed, hline, hcolumn⟩ := exists_front source h
  have hsource : source = front ++ (line ++ source.drop o) := by
    rw [← List.append_assoc, ← hbefore, List.take_append_drop]
  refine ⟨hline ▸ Nat.le_add_left 1 _, hcolumn ▸ Nat.le_add_left 1 _, front.length, ?_, ?_, ?_⟩
  · rw [hline, hsource]
    exact Text.lineStart?_append hfront _
  · have hlength := congrArg List.length hbefore
    rw [List.length_take, List.length_append] at hlength
    rw [hcolumn]
    omega
  · rwa [hbefore, List.drop_left]

/-- Behind a place the lines and columns are larger, first by line. -/
theorem ofOffset_lt {o o' : Nat} (hlt : o < o') (hle : o' ≤ source.length) :
    let l := ofOffset source o
    let l' := ofOffset source o'
    l.line < l'.line ∨ l.line = l'.line ∧ l.column < l'.column := by
  intro l l'
  obtain ⟨-, -, s, hstart, hplace, -⟩ := lineStart?_ofOffset (hlt.le.trans hle)
  obtain ⟨-, -, s', hstart', hplace', -⟩ := lineStart?_ofOffset hle
  have hlines : l.line ≤ l'.line := by
    have htake : source.take (min (o : Int).toNat source.length) <+:
        source.take (min (o' : Int).toNat source.length) :=
      List.take_prefix_take_left (by omega)
    exact Nat.succ_le_succ (htake.sublist.count_le '\n')
  rcases hlines.lt_or_eq with hless | heq
  · exact .inl hless
  · refine .inr ⟨heq, ?_⟩
    rw [show ofOffset source o = l from rfl, heq] at hstart
    obtain rfl : s = s' := Option.some.inj (hstart.symm.trans hstart')
    show (ofOffset source o).column < (ofOffset source o').column
    omega

/-- Offsets that are clamped to the same place have the same location. -/
theorem ofOffset_congr {o o' : Int} (h : min o.toNat source.length = min o'.toNat source.length) :
    ofOffset source o = ofOffset source o' := by
  simp only [ofOffset, h]

/-- An offset outside the source is moved to its nearer end. -/
theorem ofOffset_outside (o : Int) :
    (o < 0 → ofOffset source o = ofOffset source 0) ∧
      (source.length ≤ o → ofOffset source o = ofOffset source source.length) :=
  ⟨fun h => ofOffset_congr (by omega), fun h => ofOffset_congr (by omega)⟩

/-- A location is the location of its own offset. -/
theorem ofOffset_offset (o : Int) :
    ofOffset source (ofOffset source o).offset = ofOffset source o :=
  ofOffset_congr (by simp only [ofOffset]; omega)

end Location

/-! ## The errors of a run -/

/-- An error that is located at an offset has the parts of the location there, and its excerpt is
what stands there. -/
theorem LexError.located_faithful (cause : Cause) (source : Text) (offset : Nat)
    (file : Option String) (count : Int) :
    let e := located cause source offset file count
    ∃ o line column : Nat, o ≤ source.length ∧ e.offset = some (o : Int) ∧
      e.line = some (line : Int) ∧ e.column = some (column : Int) ∧
      Location.ofOffset source o = ⟨line, column, o⟩ ∧
      (0 ≤ count → e.excerpt = (source.drop o).take count.toNat) := by
  intro e
  have hle := Location.offset_ofOffset_le source offset
  refine ⟨_, _, _, hle, rfl, rfl, rfl, Location.ofOffset_offset offset, fun hcount => ?_⟩
  obtain ⟨count, rfl⟩ := Int.eq_ofNat_of_zero_le hcount
  exact Text.excerpt_ofNat source _ count

namespace TokenStream

/-- Locations are faithful. For every offset inside a source line and column, which count from one,
are those of its place: the offset of the first character behind as many line feeds as there are
lines in front, and the characters in front of the column, add up to the offset, and between the two
places no line ends; so the larger the offset is the larger they
are, first by line. Offsets outside are moved to the nearer end. So wherever the tokens of a source
end early, offset, line and column of the error are those of one place, and unless the length of
excerpts is negative the excerpt is the text that stands at this place, cut to that length. -/
theorem locations_faithful (source : Text) :
    (∀ o : Nat, o ≤ source.length →
      let l := Location.ofOffset source o
      l.offset = o ∧ 1 ≤ l.line ∧ 1 ≤ l.column ∧
        ∃ s, source.lineStart? (l.line - 1) = some s ∧ s + l.column - 1 = o ∧
          '\n' ∉ (source.take o).drop s) ∧
    (∀ o o' : Nat, o < o' → o' ≤ source.length →
      let l := Location.ofOffset source o
      let l' := Location.ofOffset source o'
      l.line < l'.line ∨ l.line = l'.line ∧ l.column < l'.column) ∧
    (∀ o : Int, (o < 0 → Location.ofOffset source o = Location.ofOffset source 0) ∧
      (source.length ≤ o →
        Location.ofOffset source o = Location.ofOffset source source.length)) ∧
    ∀ settings file elEnabled failure,
      (ofSource source settings file elEnabled).failure = some failure →
      ∃ e, ∃ o line column : Nat, failure = .error e ∧ o ≤ source.length ∧
        e.offset = some (o : Int) ∧ e.line = some (line : Int) ∧ e.column = some (column : Int) ∧
        Location.ofOffset source o = ⟨line, column, o⟩ ∧
        1 ≤ line ∧ 1 ≤ column ∧
        (∃ s, source.lineStart? (line - 1) = some s ∧ s + column - 1 = o ∧
          '\n' ∉ (source.take o).drop s) ∧
        (0 ≤ settings.excerptLength →
          e.excerpt = (source.drop o).take settings.excerptLength.toNat) := by
  refine ⟨fun o h => ⟨Location.offset_ofOffset h, Location.lineStart?_ofOffset h⟩,
    fun o o' => Location.ofOffset_lt, Location.ofOffset_outside, ?_⟩
  intro settings file elEnabled failure hfailure
  obtain ⟨q, hcuts, hstops⟩ := exists_cuts source settings file elEnabled
  rw [hfailure] at hstops
  obtain ⟨cause, offset, rfl⟩ := hstops.eq_fault (hcuts.steady (steady_start source _))
  obtain ⟨o, line, column, hle, hoffset, hline, hcolumn, hplace, hexcerpt⟩ :=
    LexError.located_faithful cause source offset file settings.excerptLength
  have hstart := Location.lineStart?_ofOffset hle
  rw [hplace] at hstart
  obtain ⟨hone, hone', hstart⟩ := hstart
  exact ⟨_, o, line, column, rfl, hle, hoffset, hline, hcolumn, hplace, hone, hone', hstart,
    hexcerpt⟩

/-- A start tag on the second line that nothing closes. -/
theorem locations_faithful_of_unclosed :
    let source : Text := "a\n<b:c>d".toList
    let e := LexError.located (.endTag "b:c".toList .missing) source 2 none 4
    let before := Location.ofOffset source 1
    let behind := Location.ofOffset source 2
    (ofSource source { excerptLength := 4 } none none).failure = some (.error e) ∧
      (before.line < behind.line ∨ before.line = behind.line ∧ before.column < behind.column) ∧
      (1 ≤ behind.line ∧ 1 ≤ behind.column ∧
        ∃ s, source.lineStart? (behind.line - 1) = some s ∧ s + behind.column - 1 = 2 ∧
          '\n' ∉ (source.take 2).drop s) ∧
      e.excerpt = "<b:c".toList := by
  intro source e before behind
  obtain ⟨hplaces, hless, -, herrors⟩ := locations_faithful source
  have hfailure : (ofSource source { excerptLength := 4 } none none).failure =
      some (.error e) := by
    decide +kernel
  obtain ⟨e', o, line, column, heq, -, hoffset, -, -, -, -, -, -, hexcerpt⟩ :=
    herrors _ _ _ _ hfailure
  obtain rfl : e = e' := LexFailure.error.inj heq
  have hplace : some (2 : Int) = some (o : Int) := hoffset
  obtain rfl : 2 = o := Int.ofNat.inj (Option.some.inj hplace)
  exact ⟨hfailure, hless 1 2 (by decide) (by decide), (hplaces 2 (by decide)).2,
    hexcerpt (by decide)⟩

end TokenStream

end Stencil
