import Stencil.Placeholder.Build
import Stencil.Proofs.Placeholder.Form
import Stencil.Proofs.Text.Filling

/-!
# What is built

Every placeholder has the length of the construct that it is made for and one of the forms that can
be recognised: a comment, a condition with or without a comment behind it, a name. The number in a
name, where one can be read, is the number that was written there.
-/

set_option autoImplicit false

namespace Stencil

namespace Text

/-- Line breaks and indentation are white space. -/
theorem isBlank_of_isLayout {c : Char} (h : isLayout c = true) : isBlank c = true := by
  simp only [isLayout, isIndent, Bool.or_eq_true, beq_iff_eq] at h
  rcases h with (rfl | rfl) | rfl | rfl <;> decide

/-- The digits of a number are worth the number. -/
theorem decimalValue_ofNat (n : Nat) : decimalValue (ofNat n) = n := by
  have hdigits : ∀ c ∈ ofNat n, c.isDigit = true :=
    fun c hc => Nat.isDigit_of_mem_toDigits (by decide) (by decide) hc
  have hfold : ∀ (digits : List Char) (init : Nat), (∀ c ∈ digits, c.isDigit = true) →
      digits.foldl (fun n c => 10 * n + (digitValue? c).getD 0) init =
        Nat.ofDigitChars 10 digits init := by
    intro digits
    induction digits with
    | nil =>
        intro init _
        rw [List.foldl_nil, Nat.ofDigitChars_nil]
    | cons c digits ih =>
        intro init hall
        rw [List.foldl_cons, Nat.ofDigitChars_cons,
          ih _ fun x hx => hall x (List.mem_cons_of_mem _ hx),
          digitValue?_of_isDigit (hall c (List.mem_cons_self ..))]
        rfl
  unfold decimalValue
  rw [hfold _ _ hdigits]
  exact Nat.ofDigitChars_ten_toDigits

/-- The digits of a number are decimal digits. -/
theorem isDecimal_of_mem_ofNat {n : Nat} {c : Char} (h : c ∈ ofNat n) : isDecimal c = true := by
  have hdigit : c.isDigit = true := Nat.isDigit_of_mem_toDigits (by decide) (by decide) h
  simp [isDecimal, digitValue?_of_isDigit hdigit]

end Text

namespace Layout

/-- A filling has fillers, line breaks and indentation, and nothing else. -/
theorem Filling.mem {l : Layout} {s : Shape} {filler : Char} {mid : Text}
    (h : l.Filling s filler mid) {c : Char} (hc : c ∈ mid) :
    c = filler ∨ Text.isLayout c = true := by
  cases hlayout : Text.isLayout c with
  | true => exact Or.inr rfl
  | false =>
      have hmem : c ∈ mid.filter (!Text.isLayout ·) := by
        rw [List.mem_filter]
        exact ⟨hc, by simp [hlayout]⟩
      rw [h.marks] at hmem
      exact Or.inl (List.eq_of_mem_replicate hmem)

/-- A filling with a filler in it is what stands in a comment. -/
theorem Filling.fillers {l : Layout} {s : Shape} {filler : Char} {mid : Text}
    (h : l.Filling s filler mid) (hmin : 1 ≤ s.minFill) : Placeholder.Fillers filler mid := by
  refine ⟨fun c hc => (h.mem hc).imp_right Text.isBlank_of_isLayout, ?_⟩
  have hmem : filler ∈ mid.filter (!Text.isLayout ·) := by
    rw [h.marks, List.mem_replicate]
    have := h.enough
    exact ⟨by omega, rfl⟩
  exact (List.mem_filter.1 hmem).1

end Layout

namespace Placeholder

/-- The forms of the placeholders of start tags. -/
inductive OpeningForm where
  /-- A condition. -/
  | condition
  /-- A condition with a comment behind it. -/
  | trailed
  /-- A brace in front of a comment. -/
  | braced
  /-- A comment alone, which opens no block. -/
  | bare
  deriving DecidableEq, Repr

/-- An opening as it is built in a form. -/
inductive Opens : OpeningForm → Found → Prop
  | condition {core : Text} (hcore : IsCondition core) : Opens .condition ⟨.opening, [], core, []⟩
  | trailed {core trail : Text} (hcore : IsCondition core)
      (htrail : IsComment Sentinel.opening trail) : Opens .trailed ⟨.opening, [], core, trail⟩
  | braced {core : Text} (hcore : IsComment Sentinel.opening core) :
      Opens .braced ⟨.opening, ['{'], core, []⟩
  | bare {core : Text} (hcore : IsComment Sentinel.opening core) :
      Opens .bare ⟨.opening, [], core, []⟩

/-- If a number can be read in an identifier it is this one. -/
def IsNumbered (t : Text) (n : Nat) : Prop :=
  ∀ taken digits, ordinal? t = some (taken, digits) → Text.decimalValue digits = n

/-- An identifier: a name, perhaps with a comment behind it. -/
def IsIdentifier (t : Text) (n : Nat) : Prop :=
  ∃ core trail, IsName core ∧ (trail = [] ∨ IsComment Sentinel.identifierEnd trail) ∧
    t = core ++ trail ∧ IsNumbered t n

/-- What fits first is the first shape, or the first of the others. -/
theorem firstFit_cons {l : Layout} {s : Shape} {shapes : List Shape} {p : Text}
    (h : l.firstFit (s :: shapes) = some p) : l.fill s = some p ∨ l.firstFit shapes = some p := by
  unfold Layout.firstFit at h ⊢
  rw [List.findSome?_cons] at h
  split at h
  · rename_i p' hfill
    rw [hfill]
    exact Or.inl h
  · exact Or.inr h

/-- Nothing fits without a shape. -/
theorem firstFit_nil {l : Layout} {p : Text} : l.firstFit [] ≠ some p := by
  simp [Layout.firstFit]

/-- A layout that is filled with a comment behind something. -/
theorem fill_commentBehind {t p : Text} (head : Text) {filler : Char}
    (hfiller : Text.isLayout filler = false)
    (h : (Layout.of t).fill (commentBehind head filler) = some p) :
    p.length = t.length ∧ ∃ core, IsComment filler core ∧ p = head ++ core := by
  obtain ⟨hlen, mid, rfl, hmid⟩ :=
    Layout.fill_spec filler rfl hfiller (by simp [commentBehind]) h
  refine ⟨hlen, "/*".toList ++ mid ++ "*/".toList, ⟨mid, hmid.fillers (le_refl 1), rfl⟩, ?_⟩
  simp [commentBehind]

/-- A layout of one line that is filled. -/
theorem fill_singleLine {t p : Text} {s : Shape} (filler : Char) (hshape : s.filler = [filler])
    (hfiller : Text.isLayout filler = false) (hmin : 0 ≤ s.minFill)
    (hsingle : (Layout.of t).isSingleLine = true) (h : (Layout.of t).fill s = some p) :
    p.length = t.length ∧
      ∃ n : Nat, s.minFill ≤ n ∧ p = s.head ++ List.replicate n filler ++ s.tail := by
  obtain ⟨hlen, mid, rfl, hmid⟩ := Layout.fill_spec filler hshape hfiller hmin h
  have henough := hmid.enough
  refine ⟨hlen, (Layout.of t).net - s.head.length - s.tail.length, by omega, ?_⟩
  rw [hmid.plain hsingle]

/-- A condition that fills a single line is one as it is recognised. -/
theorem fill_condition {t p : Text} (space : Text) (hspace : Text.Blanks space)
    (hsingle : (Layout.of t).isSingleLine = true)
    (h : (Layout.of t).fill
      { head := "if".toList ++ space ++ ['(']
        filler := [Sentinel.opening]
        tail := ')' :: space ++ ['{'] } = some p) :
    p.length = t.length ∧ IsCondition p := by
  obtain ⟨hlen, n, hn, rfl⟩ := fill_singleLine Sentinel.opening rfl (by decide) (by simp) hsingle h
  obtain ⟨m, rfl⟩ : ∃ m, n = m + 1 := ⟨n - 1, by simp at hn; omega⟩
  exact ⟨hlen, space, m, space, hspace, hspace, by simp⟩

/-- Comments are built with the length of their constructs, and can be recognised. -/
theorem comment_spec {t p : Text} {asLineComment : Bool}
    (h : comment (Layout.of t) asLineComment = some p) :
    p.length = t.length ∧ (IsComment Sentinel.comment p ∨ IsLineComment p) := by
  unfold comment at h
  split at h
  · rename_i hline
    have hsingle : (Layout.of t).isSingleLine = true := by
      rw [Bool.and_eq_true] at hline
      exact hline.2
    rcases firstFit_cons h with h | h
    · obtain ⟨hlen, n, hn, rfl⟩ :=
        fill_singleLine Sentinel.comment rfl (by decide) (by simp) hsingle h
      obtain ⟨m, rfl⟩ : ∃ m, n = m + 1 := ⟨n - 1, by simp at hn; omega⟩
      exact ⟨hlen, Or.inr ⟨m, by simp⟩⟩
    · exact absurd h firstFit_nil
  · rcases firstFit_cons h with h | h
    · obtain ⟨hlen, core, hcore, rfl⟩ := fill_commentBehind [] (by decide) h
      exact ⟨hlen, Or.inl hcore⟩
    · exact absurd h firstFit_nil

/-- Openings are built with the length of their constructs, in one of four forms. -/
theorem opening_spec {t p : Text} (h : opening (Layout.of t) = some p) :
    p.length = t.length ∧ ∃ form f, Opens form f ∧ f.text = p := by
  have hbare : (Layout.of t).fill (commentBehind [] Sentinel.opening) = some p →
      p.length = t.length ∧ ∃ form f, Opens form f ∧ f.text = p := by
    intro h
    obtain ⟨hlen, core, hcore, rfl⟩ := fill_commentBehind [] (by decide) h
    exact ⟨hlen, _, _, .bare hcore, by simp [Found.text]⟩
  unfold opening at h
  split at h
  · rename_i hsingle
    rcases firstFit_cons h with h | h
    · obtain ⟨hlen, hcore⟩ := fill_condition [' '] (Text.blanks_of_all (by decide)) hsingle h
      exact ⟨hlen, _, _, .condition hcore, by simp [Found.text]⟩
    rcases firstFit_cons h with h | h
    · obtain ⟨hlen, hcore⟩ := fill_condition [] (Text.blanks_of_all (by decide)) hsingle h
      exact ⟨hlen, _, _, .condition hcore, by simp [Found.text]⟩
    rcases firstFit_cons h with h | h
    · exact hbare h
    · exact absurd h firstFit_nil
  · rcases firstFit_cons h with h | h
    · obtain ⟨hlen, trail, htrail, rfl⟩ := fill_commentBehind _ (by decide) h
      have hcore : IsCondition ("if (".toList ++ Sentinel.opening :: ") \x7b".toList) :=
        ⟨[' '], 0, [' '], Text.blanks_of_all (by decide), Text.blanks_of_all (by decide), rfl⟩
      exact ⟨hlen, _, _, .trailed hcore htrail, by simp [Found.text]⟩
    rcases firstFit_cons h with h | h
    · obtain ⟨hlen, core, hcore, rfl⟩ := fill_commentBehind _ (by decide) h
      exact ⟨hlen, _, _, .braced hcore, by simp [Found.text]⟩
    rcases firstFit_cons h with h | h
    · exact hbare h
    · exact absurd h firstFit_nil

/-- Closings are built with the length of their constructs. -/
theorem closing_spec {t p : Text} {braced : Bool} (h : closing (Layout.of t) braced = some p) :
    p.length = t.length ∧
      ∃ core, IsComment Sentinel.closing core ∧ p = (if braced then ['}'] else []) ++ core := by
  unfold closing at h
  rcases firstFit_cons h with h | h
  · exact fill_commentBehind _ (by decide) h
  · exact absurd h firstFit_nil

/-- What is read of an identifier: a label, perhaps empty, and digits behind it. -/
theorem ordinal?_cons_eq_some_iff {t taken digits : Text} :
    ordinal? (Sentinel.identifierStart :: t) = some (taken, digits) ↔
      ∃ label rest rest',
        Scan.runWith isLabelChar (fun taken => taken.isEmpty || isLabel taken) t =
          some (label, rest) ∧
        Scan.run1 Text.isDecimal rest = some (digits, rest') ∧
        taken = Sentinel.identifierStart :: label ++ digits := by
  unfold ordinal?
  dsimp only
  constructor
  · intro h
    split at h
    · cases h
    rename_i taken' rest hscan
    obtain ⟨⟨digits', rest'⟩, hdigits, heq⟩ := Option.map_eq_some_iff.1 h
    cases heq
    simp only [Scan.all_cons_eq_some_iff, Scan.all_nil_eq_some_iff, Scan.text_eq_some_iff] at hscan
    obtain ⟨_, _, _, ⟨rfl, hstart⟩, ⟨label, _, _, hrun, ⟨rfl, rfl⟩, rfl⟩, rfl⟩ := hscan
    obtain ⟨-, rfl⟩ := List.cons.inj hstart
    exact ⟨label, _, rest', hrun, hdigits, by simp⟩
  · rintro ⟨label, rest, rest', hrun, hdigits, rfl⟩
    have hscan : Scan.all [.text [Sentinel.identifierStart],
        Scan.runWith isLabelChar fun taken => taken.isEmpty || isLabel taken]
        (Sentinel.identifierStart :: t) = some (Sentinel.identifierStart :: label, rest) := by
      simp only [Scan.all_cons_eq_some_iff, Scan.all_nil_eq_some_iff, Scan.text_eq_some_iff]
      exact ⟨_, t, label, ⟨rfl, rfl⟩, ⟨label, rest, [], hrun, ⟨rfl, rfl⟩, by simp⟩, rfl⟩
    rw [hscan]
    dsimp only
    rw [hdigits]
    rfl

/-- Digits behind a label are read as their number, if no digit follows. -/
theorem isNumbered_of_digits {label rest : Text} (n : Nat)
    (hlabel : ∀ c ∈ label, isLabelChar c = true)
    (hrest : ∀ c, rest.head? = some c → Text.isDecimal c = false) :
    IsNumbered (Sentinel.identifierStart :: (label ++ (Text.ofNat n ++ rest))) n := by
  intro taken digits h
  obtain ⟨_, _, _, hrun, hdigits, -⟩ := ordinal?_cons_eq_some_iff.1 h
  have hstop : ∀ c, (Text.ofNat n ++ rest).head? = some c → isLabelChar c = false := by
    intro c hc
    have hmem : c ∈ Text.ofNat n := by
      cases hnat : Text.ofNat n with
      | nil => exact absurd hnat Nat.toDigits_ne_nil
      | cons d ds =>
          rw [hnat] at hc
          obtain rfl : d = c := by simpa using hc
          exact List.mem_cons_self ..
    have hdigit : c.isDigit = true := Nat.isDigit_of_mem_toDigits (by decide) (by decide) hmem
    cases hlabelChar : isLabelChar c with
    | false => rfl
    | true =>
        simp only [isLabelChar, Bool.or_eq_true, beq_iff_eq] at hlabelChar
        rcases hlabelChar with hupper | rfl
        · simp only [Char.isDigit, Char.isUpper, Bool.and_eq_true, decide_eq_true_eq, ge_iff_le,
            UInt32.le_iff_toNat_le] at hdigit hupper
          have hnine : '9'.val.toNat = 57 := rfl
          have hA : 'A'.val.toNat = 65 := rfl
          omega
        · exact absurd hdigit (by decide)
  obtain ⟨-, rfl, -⟩ := Scan.runWith_append hlabel hstop hrun
  obtain ⟨rfl, -, -⟩ :=
    Scan.runWith_append (fun c hc => Text.isDecimal_of_mem_ofNat hc) hrest hdigits
  exact Text.decimalValue_ofNat n

/-- A label without a number behind it has none that could be read. -/
theorem isNumbered_of_label {label rest : Text} {c : Char} (n : Nat)
    (hlabel : ∀ c ∈ label, isLabelChar c = true) (hc : isLabelChar c = false)
    (hc' : Text.isDecimal c = false) :
    IsNumbered (Sentinel.identifierStart :: (label ++ c :: rest)) n := by
  intro taken digits h
  obtain ⟨_, _, _, hrun, hdigits, -⟩ := ordinal?_cons_eq_some_iff.1 h
  have hstop : ∀ d, (c :: rest).head? = some d → isLabelChar d = false := by
    intro d hd
    cases hd
    exact hc
  obtain ⟨-, rfl, -⟩ := Scan.runWith_append hlabel hstop hrun
  have hnone : ∀ d, (c :: rest).head? = some d → Text.isDecimal d = false := by
    intro d hd
    cases hd
    exact hc'
  obtain ⟨-, -, hempty⟩ := Scan.runWith_append (s := [])
    (fun d hd => absurd hd List.not_mem_nil) hnone hdigits
  cases hempty

/-- A label may stand in an identifier. -/
theorem isIdentifierChar_of_isLabelChar {c : Char} (h : isLabelChar c = true) :
    isIdentifierChar c = true := by
  simp only [isLabelChar, isIdentifierChar, Bool.or_eq_true, Char.isAlphanum, Char.isAlpha] at h ⊢
  exact h.imp (fun h => Or.inl (Or.inl h)) id

/-- The labels of identifiers: with a number behind a low line, the number alone, and nothing. -/
inductive IsLabel (n : Nat) : Text → Prop
  | tag {label : Text} (hlabel : ∀ c ∈ label, isLabelChar c = true) : IsLabel n (tag label n)
  | number : IsLabel n (Text.ofInt n)
  | empty : IsLabel n []

/-- The labels of identifiers may stand in them, numbers included. -/
theorem IsLabel.isIdentifierChar {n : Nat} {label : Text} (h : IsLabel n label) {c : Char}
    (hc : c ∈ label) : isIdentifierChar c = true := by
  have hnumber : c ∈ Text.ofInt n → Placeholder.isIdentifierChar c = true := by
    intro hc
    have hdigit : c.isDigit = true := Nat.isDigit_of_mem_toDigits (by decide) (by decide) hc
    simp [Placeholder.isIdentifierChar, Char.isAlphanum, hdigit]
  cases h with
  | tag hlabel =>
      rcases List.mem_append.1 hc with hc | hc
      · exact isIdentifierChar_of_isLabelChar (hlabel c hc)
      rcases List.mem_cons.1 hc with rfl | hc
      · decide
      · exact hnumber hc
  | number => exact hnumber hc
  | empty => exact absurd hc List.not_mem_nil

/-- Behind a label come low lines and the half ring, so the number is all that can be read. -/
theorem IsLabel.isNumbered {n : Nat} {label : Text} (h : IsLabel n label) (count : Nat)
    (rest : Text) :
    IsNumbered (Sentinel.identifierStart ::
      (label ++ (List.replicate count '_' ++ Sentinel.identifierEnd :: rest))) n := by
  have hrest : ∀ c, (List.replicate count '_' ++ Sentinel.identifierEnd :: rest).head? = some c →
      Text.isDecimal c = false := by
    intro c hc
    cases count with
    | zero =>
        obtain rfl : Sentinel.identifierEnd = c := by simpa using hc
        decide
    | succ count =>
        obtain rfl : '_' = c := by simpa [List.replicate_succ] using hc
        decide
  cases h with
  | @tag label hlabel =>
      have hall : ∀ c ∈ label ++ ['_'], isLabelChar c = true := by
        intro c hc
        rcases List.mem_append.1 hc with hc | hc
        · exact hlabel c hc
        · obtain rfl := List.mem_singleton.1 hc
          decide
      have hnumbered := isNumbered_of_digits n hall hrest
      have heq : Placeholder.tag label n = label ++ ['_'] ++ Text.ofNat n := by
        rw [List.append_assoc, List.singleton_append]
        rfl
      rw [heq, List.append_assoc (label ++ ['_'])]
      exact hnumbered
  | number =>
      have hnil : ∀ c ∈ ([] : Text), isLabelChar c = true :=
        fun c hc => absurd hc List.not_mem_nil
      have hnumbered := isNumbered_of_digits n hnil hrest
      exact hnumbered
  | empty =>
      refine isNumbered_of_label n (fun c hc => ?_) (by decide) (by decide)
      obtain rfl := List.eq_of_mem_replicate hc
      decide

/-- The number in an identifier does not depend on what stands behind the name. -/
theorem IsName.isNumbered {core trail : Text} {n : Nat} (h : IsName core)
    (hnumber : IsNumbered (core ++ trail) n) (trail' : Text) : IsNumbered (core ++ trail') n := by
  obtain ⟨body, -, rfl⟩ := h
  have hsplit : ∀ t : Text, Sentinel.identifierStart :: body ++ [Sentinel.identifierEnd] ++ t =
      Sentinel.identifierStart :: (body ++ Sentinel.identifierEnd :: t) := by
    intro t
    simp
  intro taken digits hread
  rw [hsplit] at hread hnumber
  obtain ⟨label, rest, rest', hlabel, hdigits, rfl⟩ := ordinal?_cons_eq_some_iff.1 hread
  obtain ⟨s, rfl, hlabel'⟩ := Scan.runWith_stop (by decide) hlabel trail
  obtain ⟨s', rfl, hdigits'⟩ := Scan.runWith_stop (by decide) hdigits trail
  exact hnumber _ digits
    (ordinal?_cons_eq_some_iff.2 ⟨label, _, _, hlabel', hdigits', rfl⟩)

/-- Identifiers on one line. -/
theorem fill_named {t p label : Text} {n : Nat} {minFill : Int} (hmin : 0 ≤ minFill)
    (hlabel : IsLabel n label) (hsingle : (Layout.of t).isSingleLine = true)
    (h : (Layout.of t).fill (namedShape label minFill) = some p) :
    p.length = t.length ∧ IsName p ∧ IsNumbered p n := by
  obtain ⟨hlen, count, -, rfl⟩ := fill_singleLine '_' rfl (by decide) hmin hsingle h
  have hbody : (namedShape label minFill).head ++ List.replicate count '_' ++
      (namedShape label minFill).tail = Sentinel.identifierStart ::
        (label ++ (List.replicate count '_' ++ Sentinel.identifierEnd :: [])) := by
    simp [namedShape]
  rw [hbody] at hlen ⊢
  refine ⟨hlen, ⟨label ++ List.replicate count '_', ?_, by simp⟩, hlabel.isNumbered count []⟩
  intro c hc
  rcases List.mem_append.1 hc with hc | hc
  · exact hlabel.isIdentifierChar hc
  · obtain rfl := List.eq_of_mem_replicate hc
    decide

/-- Identifiers with a comment behind them. -/
theorem fill_trailed {t p label : Text} {n : Nat} (hlabel : IsLabel n label)
    (h : (Layout.of t).fill (trailedShape label) = some p) :
    p.length = t.length ∧ ∃ core trail, IsName core ∧ IsComment Sentinel.identifierEnd trail ∧
      p = core ++ trail ∧ IsNumbered p n := by
  obtain ⟨hlen, mid, rfl, hmid⟩ :=
    Layout.fill_spec Sentinel.identifierEnd rfl (by decide) (by simp [trailedShape]) h
  have hbody : (trailedShape label).head ++ mid ++ (trailedShape label).tail =
      (Sentinel.identifierStart :: label ++ [Sentinel.identifierEnd]) ++
        ("/*".toList ++ mid ++ "*/".toList) := by
    simp [trailedShape]
  rw [hbody] at hlen ⊢
  refine ⟨hlen, _, _, ⟨label, fun c hc => hlabel.isIdentifierChar hc, rfl⟩,
    ⟨mid, hmid.fillers (le_refl 1), rfl⟩, rfl, ?_⟩
  have hnumbered := hlabel.isNumbered 0 ("/*".toList ++ mid ++ "*/".toList)
  simpa using hnumbered

/-- Identifiers are built with the length of their constructs, and with their numbers. -/
theorem identifier_spec {t p label : Text} {n : Nat} (hlabel : ∀ c ∈ label, isLabelChar c = true)
    (h : identifier (Layout.of t) label n = some p) : p.length = t.length ∧ IsIdentifier p n := by
  have hnamed : ∀ (name : Text) (minFill : Int), 0 ≤ minFill → IsLabel n name →
      (Layout.of t).isSingleLine = true →
      (Layout.of t).fill (namedShape name minFill) = some p →
      p.length = t.length ∧ IsIdentifier p n := by
    intro name minFill hmin hname hsingle h
    obtain ⟨hlen, hcore, hnumbered⟩ := fill_named hmin hname hsingle h
    exact ⟨hlen, p, [], hcore, Or.inl rfl, (List.append_nil p).symm, hnumbered⟩
  have htrailed : ∀ name : Text, IsLabel n name →
      (Layout.of t).fill (trailedShape name) = some p →
      p.length = t.length ∧ IsIdentifier p n := by
    intro name hname h
    obtain ⟨hlen, core, trail, hcore, htrail, hp, hnumbered⟩ := fill_trailed hname h
    exact ⟨hlen, core, trail, hcore, Or.inr htrail, hp, hnumbered⟩
  unfold identifier at h
  split at h
  · rename_i hsingle
    rcases firstFit_cons h with h | h
    · exact hnamed _ 0 (le_refl 0) (.tag hlabel) hsingle h
    rcases firstFit_cons h with h | h
    · exact hnamed _ 0 (le_refl 0) .number hsingle h
    rcases firstFit_cons h with h | h
    · exact hnamed _ 1 (by decide) .empty hsingle h
    · exact absurd h firstFit_nil
  · rcases firstFit_cons h with h | h
    · exact htrailed _ (.tag hlabel) h
    rcases firstFit_cons h with h | h
    · exact htrailed _ .number h
    rcases firstFit_cons h with h | h
    · exact htrailed _ .empty h
    · exact absurd h firstFit_nil

end Placeholder

end Stencil
