import Mathlib
import Stencil.Text.Scan

/-!
# What scans take

A scan that answers has taken the text of a certain form from the start. Each combinator has one
equivalence that says so, and `Text.firstMatch?` finds the first place at which there is something.
-/

set_option autoImplicit false

namespace Stencil

namespace Text

variable {p : Char → Bool} {s t : Text}

/-- A run of a class ends in front of a character of another one. -/
theorem takeWhile_append_of_stop (hs : ∀ x ∈ s, p x = true) (ht : ∀ x ∈ t.head?, p x = false) :
    (s ++ t).takeWhile p = s := by
  rw [List.takeWhile_append_of_pos hs]
  cases t with
  | nil => exact List.append_nil s
  | cons x t => rw [List.takeWhile_cons_of_neg (by simp [ht x rfl]), List.append_nil]

/-- Dropping stops where the first other character stands. -/
theorem dropWhile_append_of_stop (hs : ∀ x ∈ s, p x = true) (ht : ∀ x ∈ t.head?, p x = false) :
    (s ++ t).dropWhile p = t := by
  rw [List.dropWhile_append_of_pos hs]
  cases t with
  | nil => rfl
  | cons x t => exact List.dropWhile_cons_of_neg (by simp [ht x rfl])

end Text

namespace Scan

/-- A word is taken where it stands. -/
theorem text_eq_some_iff {word t taken rest : Text} :
    text word t = some (taken, rest) ↔ taken = word ∧ t = word ++ rest := by
  unfold text
  constructor
  · intro h
    obtain ⟨rest', hafter, heq⟩ := Option.map_eq_some_iff.1 h
    cases heq
    exact ⟨rfl, Text.after?_eq_some_iff.1 hafter⟩
  · rintro ⟨rfl, h⟩
    rw [Text.after?_eq_some_iff.2 h]
    rfl

/-- A run with a condition is taken as far as it goes, if the condition holds of it. -/
theorem runWith_eq_some_iff {isMember : Char → Bool} {ok : Text → Bool} {t taken rest : Text} :
    runWith isMember ok t = some (taken, rest) ↔
      ok taken = true ∧ (∀ c ∈ taken, isMember c = true) ∧
        (∀ c, rest.head? = some c → isMember c = false) ∧ t = taken ++ rest := by
  unfold runWith run
  constructor
  · intro h
    split at h
    · rename_i hok
      cases h
      refine ⟨hok, fun c hc => List.mem_takeWhile_imp hc, fun c hc => ?_,
        List.takeWhile_append_dropWhile.symm⟩
      have hnot := List.head?_dropWhile_not isMember t
      rw [hc] at hnot
      simpa using hnot
    · cases h
  · rintro ⟨hok, htaken, hrest, rfl⟩
    rw [Text.takeWhile_append_of_stop htaken hrest, Text.dropWhile_append_of_stop htaken hrest,
      if_pos hok]

/-- A run ends where a character of another class follows. -/
theorem runWith_append {isMember : Char → Bool} {ok : Text → Bool} {s t taken rest : Text}
    (hs : ∀ c ∈ s, isMember c = true) (ht : ∀ c, t.head? = some c → isMember c = false)
    (h : runWith isMember ok (s ++ t) = some (taken, rest)) :
    taken = s ∧ rest = t ∧ ok s = true := by
  unfold runWith run at h
  rw [Text.takeWhile_append_of_stop hs ht, Text.dropWhile_append_of_stop hs ht] at h
  split at h
  · rename_i hok
    cases h
    exact ⟨rfl, rfl, hok⟩
  · cases h

/-- A run that ends in front of a character of another class does not depend on what follows. -/
theorem runWith_stop {isMember : Char → Bool} {ok : Text → Bool} {s t taken rest : Text} {c : Char}
    (hc : isMember c = false) (h : runWith isMember ok (s ++ c :: t) = some (taken, rest))
    (t' : Text) :
    ∃ s', rest = s' ++ c :: t ∧
      runWith isMember ok (s ++ c :: t') = some (taken, s' ++ c :: t') := by
  obtain ⟨hok, htaken, hrest, heq⟩ := runWith_eq_some_iff.1 h
  obtain ⟨s', rfl, rfl⟩ : ∃ s', s = taken ++ s' ∧ rest = s' ++ c :: t := by
    rcases List.append_eq_append_iff.1 heq with ⟨more, rfl, hmore⟩ | ⟨s', rfl, rfl⟩
    · cases more with
      | nil => exact ⟨[], by simp, by simpa using hmore.symm⟩
      | cons d more =>
          obtain ⟨rfl, -⟩ := List.cons.inj hmore
          rw [htaken c (by simp)] at hc
          cases hc
    · exact ⟨s', rfl, rfl⟩
  refine ⟨s', rfl, runWith_eq_some_iff.2 ⟨hok, htaken, ?_, List.append_assoc ..⟩⟩
  cases s' with
  | nil =>
      intro d hd
      cases hd
      exact hc
  | cons d s' => exact hrest

/-- A run is taken as far as it goes. -/
theorem run_eq_some_iff {isMember : Char → Bool} {t taken rest : Text} :
    run isMember t = some (taken, rest) ↔
      (∀ c ∈ taken, isMember c = true) ∧ (∀ c, rest.head? = some c → isMember c = false) ∧
        t = taken ++ rest := by
  have h : runWith isMember (fun _ => true) t = some (taken, rest) ↔ _ := runWith_eq_some_iff
  simpa [runWith] using h

/-- One scan behind another one takes what both take. -/
theorem andThen_eq_some_iff {first second : Scan} {t taken rest : Text} :
    andThen first second t = some (taken, rest) ↔
      ∃ taken₁ rest₁ taken₂, first t = some (taken₁, rest₁) ∧
        second rest₁ = some (taken₂, rest) ∧ taken = taken₁ ++ taken₂ := by
  unfold andThen
  constructor
  · intro h
    split at h
    · cases h
    · rename_i taken₁ rest₁ hfirst
      obtain ⟨⟨taken₂, rest₂⟩, hsecond, heq⟩ := Option.map_eq_some_iff.1 h
      cases heq
      exact ⟨taken₁, rest₁, taken₂, hfirst, hsecond, rfl⟩
  · rintro ⟨taken₁, rest₁, taken₂, hfirst, hsecond, rfl⟩
    rw [hfirst]
    dsimp only
    rw [hsecond]
    rfl

/-- No scans take nothing. -/
theorem all_nil_eq_some_iff {t taken rest : Text} :
    all [] t = some (taken, rest) ↔ taken = [] ∧ t = rest := by
  simp only [all, Option.some.injEq, Prod.mk.injEq, eq_comm]

/-- Scans in a row take what the first takes, and the others behind it. -/
theorem all_cons_eq_some_iff {s : Scan} {ss : List Scan} {t taken rest : Text} :
    all (s :: ss) t = some (taken, rest) ↔
      ∃ taken₁ rest₁ taken₂, s t = some (taken₁, rest₁) ∧
        all ss rest₁ = some (taken₂, rest) ∧ taken = taken₁ ++ taken₂ :=
  andThen_eq_some_iff

end Scan

namespace Text

/-- What is recognised behind a text is the first match if nothing is recognised inside it. -/
theorem firstMatch?_append {α : Type} {recognise : Text → Option α} {before t : Text} {a : α}
    (hfound : recognise t = some a)
    (hnone : ∀ x y, before = x ++ y → y ≠ [] → recognise (y ++ t) = none) :
    firstMatch? recognise (before ++ t) = some (before, a) := by
  induction before with
  | nil =>
      rw [List.nil_append]
      cases t with
      | nil => simp [firstMatch?, hfound]
      | cons c t => simp [firstMatch?, hfound]
  | cons c before ih =>
      have hhere : recognise (c :: before ++ t) = none := hnone [] (c :: before) rfl (by simp)
      have hrest := ih fun x y hxy hne => hnone (c :: x) y (by rw [hxy]; rfl) hne
      rw [List.cons_append] at hhere ⊢
      rw [firstMatch?, hhere]
      dsimp only
      rw [hrest]
      rfl

/-- The first match: nothing is recognised in front of it. -/
theorem firstMatch?_eq_some {α : Type} {recognise : Text → Option α} {t before : Text} {a : α}
    (h : firstMatch? recognise t = some (before, a)) :
    ∃ rest, t = before ++ rest ∧ recognise rest = some a ∧
      ∀ x y, before = x ++ y → y ≠ [] → recognise (y ++ rest) = none := by
  induction t generalizing before with
  | nil =>
      obtain ⟨a', hhere, heq⟩ := Option.map_eq_some_iff.1 h
      cases heq
      refine ⟨[], rfl, hhere, fun x y hxy hne => ?_⟩
      exact absurd (List.append_eq_nil_iff.1 hxy.symm).2 hne
  | cons c t ih =>
      rw [firstMatch?] at h
      split at h
      · rename_i a' hhere
        cases h
        refine ⟨c :: t, rfl, hhere, fun x y hxy hne => ?_⟩
        exact absurd (List.append_eq_nil_iff.1 hxy.symm).2 hne
      · rename_i hhere
        obtain ⟨⟨before', a'⟩, hrest, heq⟩ := Option.map_eq_some_iff.1 h
        cases heq
        obtain ⟨rest, rfl, hfound, hnone⟩ := ih hrest
        refine ⟨rest, rfl, hfound, fun x y hxy hne => ?_⟩
        cases x with
        | nil =>
            rw [← List.nil_append y, ← hxy]
            exact hhere
        | cons d x =>
            rw [List.cons_append, List.cons.injEq] at hxy
            exact hnone x y hxy.2 hne

/-- Nothing is found where nothing is recognised. -/
theorem firstMatch?_eq_none {α : Type} {recognise : Text → Option α} {t : Text}
    (hnone : ∀ x y, t = x ++ y → recognise y = none) : firstMatch? recognise t = none := by
  induction t with
  | nil => simp [firstMatch?, hnone [] [] rfl]
  | cons c t ih =>
      have hhere := hnone [] (c :: t) rfl
      have hrest := ih fun x y hxy => hnone (c :: x) y (by rw [hxy]; rfl)
      rw [firstMatch?, hhere]
      dsimp only
      rw [hrest]
      rfl

end Text

end Stencil
