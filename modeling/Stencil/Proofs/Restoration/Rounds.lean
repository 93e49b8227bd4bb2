import Stencil.Proofs.Restoration.Pieces
import Stencil.Proofs.Restoration.Step

/-!
# The rounds of restoring

Restoring goes in rounds: a placeholder is found, the next record is compared with it and put in its
place, and the search goes on behind it. The text may say anything, since a formatter has had it. In
every round the records can be classified and their openings built again, because masking did both
(`Recoverable`), and what was found can be taken apart, because of what can be found at all
(`Readable`). A round takes at least one character, so there are no more rounds than characters.
-/

set_option autoImplicit false

namespace Stencil

open Placeholder

/-! ## What is found can be taken apart -/

namespace Placeholder

/-- Where the comment starts in what was found: behind a brace, if there is one in front, and else
at the start. There is no answer for a brace without a comment. -/
def commentStart? (found : Text) : Option Nat :=
  match found.head? with
  | some '{' | some '}' =>
    (Text.firstMatch? (Text.after? "/*".toList) found).map fun (before, _) => before.length
  | _ => some 0

end Placeholder

namespace Found

/-- What is read in a placeholder that was found can be read: where its comment starts, and its
number. -/
structure Readable (f : Found) : Prop where
  comment : commentStart? f.text = some f.lead.length
  number : ∀ taken digits, ordinal? f.text = some (taken, digits) →
    digits ≠ [] ∧ ∀ c ∈ digits, Text.isDecimal c = true

/-- Without a brace in front the comment starts where the placeholder does. -/
theorem commentStart?_of_head {t : Text} {c : Char} (h : t.head? = some c) (hopen : c ≠ '{')
    (hclose : c ≠ '}') : commentStart? t = some 0 := by
  unfold commentStart?
  rw [h]
  split
  · exact absurd (Option.some.inj ‹_›) hopen
  · exact absurd (Option.some.inj ‹_›) hclose
  · rfl

/-- Behind a brace the comment is found, since white space stands in between. -/
theorem commentStart?_of_isLead {mark filler : Char} {lead core : Text}
    (hmark : mark = '{' ∨ mark = '}') (hlead : IsLead mark lead) (hcore : IsComment filler core) :
    commentStart? (lead ++ core) = some lead.length := by
  obtain ⟨space, hspace, rfl⟩ := hlead
  obtain ⟨body, -, rfl⟩ := hcore
  have hslash : '/' ∉ mark :: space := by
    intro hmem
    rcases List.mem_cons.1 hmem with heq | hmem
    · rcases hmark with rfl | rfl <;> cases heq
    · exact absurd (hspace '/' hmem) (by decide)
  have hfound : Text.firstMatch? (Text.after? "/*".toList)
      (mark :: space ++ ("/*".toList ++ body ++ "*/".toList)) =
        some (mark :: space, body ++ "*/".toList) := by
    refine Text.firstMatch?_append (Text.after?_eq_some_iff.2 (by simp)) fun x y hxy hne => ?_
    refine after?_eq_none_of_head fun hhead => hslash ?_
    obtain ⟨c, y, rfl⟩ := List.exists_cons_of_ne_nil hne
    cases hhead
    rw [hxy]
    exact List.mem_append_right _ (List.mem_cons_self ..)
  unfold commentStart?
  rcases hmark with rfl | rfl
  · dsimp only [List.cons_append, List.head?_cons]
    rw [← List.cons_append, hfound]
    rfl
  · dsimp only [List.cons_append, List.head?_cons]
    rw [← List.cons_append, hfound]
    rfl

/-- The comment of a proper placeholder starts behind its lead. -/
theorem Proper.commentStart? {f : Found} (hf : f.Proper) :
    commentStart? f.text = some f.lead.length := by
  cases hf with
  | condition hcore =>
      obtain ⟨space, n, space', -, -, rfl⟩ := hcore
      exact commentStart?_of_head rfl (by decide) (by decide)
  | @comment family lead core hfamily hlead hcore =>
      rw [Found.text_lead]
      rcases hlead with rfl | ⟨mark, hmark, hlead⟩
      · exact commentStart?_of_head hcore.head (by decide) (by decide)
      · exact commentStart?_of_isLead (Family.mark?_cases hmark) hlead hcore
  | lineComment hcore =>
      rw [Found.text_core]
      exact commentStart?_of_head hcore.head (by decide) (by decide)
  | name hcore =>
      obtain ⟨body, -, rfl⟩ := hcore
      exact commentStart?_of_head rfl (by decide) (by decide)

end Found

/-- A number that is read has digits and nothing else. -/
theorem Placeholder.digits_of_ordinal? {t taken digits : Text}
    (h : ordinal? t = some (taken, digits)) :
    digits ≠ [] ∧ ∀ c ∈ digits, Text.isDecimal c = true := by
  unfold ordinal? at h
  dsimp only at h
  split at h
  · cases h
  · obtain ⟨⟨digits', rest⟩, hrun, heq⟩ := Option.map_eq_some_iff.1 h
    cases heq
    obtain ⟨hsome, hdigits, -, -⟩ := Scan.runWith_eq_some_iff.1 hrun
    exact ⟨by simpa using hsome, hdigits⟩

/-- A proper placeholder can be read. -/
theorem Found.Proper.readable {f : Found} (hf : f.Proper) : f.Readable :=
  ⟨hf.commentStart?, fun _ _ => digits_of_ordinal?⟩

/-! ## Records of masked texts -/

/-- What restoring asks of a record: it has a family, and its opening can be built again. -/
structure Record.Recoverable (r : Record) : Prop where
  family : ∃ family, r.kind.family? = some family
  opening : r.kind.family? = some .opening →
    ∃ p, Placeholder.opening (Layout.of r.construct) = some p

/-- A record that has a placeholder can be restored. -/
theorem Placed.recoverable {number : Nat} {r : Record} {braced braced' : List Bool} {f : Found}
    (h : Placed number r braced f braced') : r.Recoverable := by
  refine ⟨⟨_, h.kind_family⟩, fun hopening => ?_⟩
  cases h with
  | opening _ _ hbuilt => exact ⟨_, hbuilt⟩
  | comment hkind => cases hopening.symm.trans hkind
  | identifier hkind => cases hopening.symm.trans hkind
  | closing hkind => cases hopening.symm.trans hkind

/-- Records that have placeholders can be restored. -/
theorem PlacedAll.recoverable {number : Nat} {braced : List Bool} {rs : List Record}
    {gs : List Found} (h : PlacedAll number braced rs gs) : ∀ r ∈ rs, r.Recoverable := by
  induction h with
  | nil => exact fun r hr => absurd hr List.not_mem_nil
  | cons hplaced hrest ih => exact List.forall_mem_cons.2 ⟨hplaced.recoverable, ih⟩

/-- Masking leaves records that restoring can work with. -/
theorem Masked.recoverable_of_ofSource {source : Text} {settings : Settings} {file : Option String}
    {m : Masked} (h : ofSource source settings file = .ok m) : ∀ r ∈ m.ledger, r.Recoverable := by
  obtain ⟨tokens, -, hmasks⟩ := masks_of_ofSource h
  obtain ⟨gs, hplaced, -⟩ := hmasks.placedAll
  exact hplaced.recoverable

namespace Restoration

/-! ## Rounds -/

/-- Where restoring has come to. -/
structure Search where
  /-- How many records have been put back. -/
  number : Nat
  /-- For each open custom tag, the innermost first, whether its placeholder opened a block. -/
  braced : List Bool
  /-- The text that is left. -/
  rest : Text

/-- One round: the next record is put in the place of what is found next. -/
inductive Round (ledger : Ledger) : Search → Search → Prop
  | step {number : Nat} {braced : List Bool} {t before after : Text} {f : Found} {r : Record}
      {e : Extent} (hnext : next? t = some (before, f, after)) (hrecord : ledger[number]? = some r)
      (hextent : extent f r number braced = .ok e) :
      Round ledger ⟨number, braced, t⟩ ⟨number + 1, e.braced, e.after ++ after⟩

/-- Rounds, one after the other. -/
def Reaches (ledger : Ledger) : Search → Search → Prop := Relation.ReflTransGen (Round ledger)

/-- How the rounds end, with an error if there is one. -/
inductive Stops (ledger : Ledger) : Search → Option RestorationError → Prop
  | done {number : Nat} {braced : List Bool} {t : Text} (hnext : next? t = none)
      (hrecord : ledger[number]? = none) : Stops ledger ⟨number, braced, t⟩ none
  | surplus {number : Nat} {braced : List Bool} {t before after : Text} {f : Found}
      (hnext : next? t = some (before, f, after)) (hrecord : ledger[number]? = none) :
      Stops ledger ⟨number, braced, t⟩ (some (.surplus ledger.length f.text))
  | shortage {number : Nat} {braced : List Bool} {t : Text} {r : Record} (hnext : next? t = none)
      (hrecord : ledger[number]? = some r) :
      Stops ledger ⟨number, braced, t⟩ (some (.shortage ledger.length number))
  | refused {number : Nat} {braced : List Bool} {t before after : Text} {f : Found} {r : Record}
      {e : RestorationError} (hnext : next? t = some (before, f, after))
      (hrecord : ledger[number]? = some r) (hextent : extent f r number braced = .error e) :
      Stops ledger ⟨number, braced, t⟩ (some e)

/-- The error of an outcome. -/
def failure? : Except RestorationError Text → Option RestorationError
  | .ok _ => none
  | .error e => some e

/-- Text in front of the outcome makes no difference to whether there is an error. -/
theorem failure?_bind_pure (front : Text) (answer : Except RestorationError Text) :
    failure? (answer >>= fun rest => pure (front ++ rest)) = failure? answer := by
  cases answer <;> rfl

/-- What is found lies in the text, and is a placeholder. -/
theorem next?_spec {t before after : Text} {f : Found} (h : next? t = some (before, f, after)) :
    f.Proper ∧ t = before ++ (f.text ++ after) := by
  obtain ⟨rest, rfl, hfound, -⟩ := Text.firstMatch?_eq_some h
  obtain ⟨hf, rfl⟩ := found?_spec hfound
  exact ⟨hf, rfl⟩

section Ledger

variable {ledger : Ledger} {s s' : Search}

/-- A round takes at least one character. -/
theorem Round.advances (h : Round ledger s s') :
    ∃ taken, taken ≠ [] ∧ s.rest = taken ++ s'.rest := by
  cases h with
  | @step number braced t before after f r e hnext hrecord hextent =>
      obtain ⟨hf, rfl⟩ := next?_spec hnext
      obtain ⟨piece, hpiece, -, ⟨g, hfound, -⟩, -⟩ := extent_spec hf hextent
      refine ⟨before ++ e.before ++ piece, fun hnil => ?_, ?_⟩
      · obtain rfl : piece = [] := (List.append_eq_nil_iff.1 hnil).2
        rw [found?_of_plain Text.plain_nil] at hfound
        cases hfound
      · rw [hpiece]
        simp only [List.append_assoc]

/-- A round takes the next record, and there is one. -/
theorem Round.number_eq (h : Round ledger s s') :
    s'.number = s.number + 1 ∧ s.number < ledger.length := by
  cases h with
  | step hnext hrecord hextent =>
      obtain ⟨hlt, -⟩ := List.getElem?_eq_some_iff.1 hrecord
      exact ⟨rfl, hlt⟩

/-- There are no more rounds than characters, and no more than records. -/
theorem Reaches.bounded (h : Reaches ledger s s') (hs : s.number ≤ ledger.length) :
    s'.number + s'.rest.length ≤ s.number + s.rest.length ∧ s'.number ≤ ledger.length := by
  induction h with
  | refl => exact ⟨le_refl _, hs⟩
  | tail hreaches hround ih =>
      obtain ⟨taken, hne, htaken⟩ := hround.advances
      obtain ⟨hnumber, hlt⟩ := hround.number_eq
      have hlength := congrArg List.length htaken
      have hpos := List.length_pos_of_ne_nil hne
      rw [List.length_append] at hlength
      exact ⟨by omega, by omega⟩

/-- The rounds come to an end, and their end is the outcome. -/
theorem stops_restoreFrom {done rs : Ledger} (number : Nat) (hnumber : number = done.length)
    (hledger : ledger = done ++ rs) (braced : List Bool) (t : Text) :
    ∃ s, Reaches ledger ⟨number, braced, t⟩ s ∧
      Stops ledger s (failure? (restoreFrom ledger.length rs number braced t)) := by
  induction rs generalizing done number braced t with
  | nil =>
      have hrecord : ledger[number]? = none := by
        rw [hledger, hnumber, List.append_nil, List.getElem?_eq_none_iff]
      refine ⟨_, .refl, ?_⟩
      unfold restoreFrom
      split
      · exact .done ‹_› hrecord
      · exact .surplus ‹_› hrecord
  | cons r rs ih =>
      have hrecord : ledger[number]? = some r := by
        rw [hledger, hnumber, List.getElem?_append_right (le_refl _), Nat.sub_self]
        rfl
      unfold restoreFrom
      split
      · exact ⟨_, .refl, .shortage ‹_› hrecord⟩
      · rename_i before f after hnext
        cases hextent : extent f r number braced with
        | error e => exact ⟨_, .refl, .refused hnext hrecord hextent⟩
        | ok e =>
            have hnumber' : number + 1 = (done ++ [r]).length := by
              rw [List.length_append, ← hnumber]
              rfl
            have hledger' : ledger = done ++ [r] ++ rs := by
              rw [hledger, List.append_assoc, List.singleton_append]
            obtain ⟨s, hreaches, hstops⟩ :=
              ih (number + 1) hnumber' hledger' e.braced (e.after ++ after)
            refine ⟨s, .head (.step hnext hrecord hextent) hreaches, ?_⟩
            rw [← failure?_bind_pure (before ++ e.before ++ r.construct)] at hstops
            exact hstops

/-- A record that can be restored is refused only for what was found. -/
theorem isMismatch_of_extent {f : Found} {r : Record} {number : Nat} {braced : List Bool}
    {e : RestorationError} (hr : r.Recoverable) (h : extent f r number braced = .error e) :
    e.isMismatch = true := by
  obtain ⟨family, hfamily⟩ := hr.family
  unfold extent at h
  rw [hfamily] at h
  dsimp only at h
  split at h
  · cases h
    rfl
  · cases family with
    | comment => cases h
    | identifier =>
        dsimp only at h
        split at h
        · split at h
          · cases h
            rfl
          · cases h
        · cases h
    | opening =>
        obtain ⟨p, hp⟩ := hr.opening hfamily
        rw [hp] at h
        cases h
    | closing => cases h

/-- An error that ends the rounds is a mismatch, if the records can be restored. -/
theorem Stops.isMismatch (hledger : ∀ r ∈ ledger, r.Recoverable) {e : RestorationError}
    (h : Stops ledger s (some e)) : e.isMismatch = true := by
  cases h with
  | surplus => rfl
  | shortage => rfl
  | refused hnext hrecord hextent =>
      exact isMismatch_of_extent (hledger _ (List.mem_of_getElem? hrecord)) hextent

end Ledger

/-- Whatever a formatter makes of a masked text, restoring it comes to an end. It gives a text, or
it says that the placeholders are not those of the records, and never anything else. In every round
that is reached what was found can be taken apart, and the record that it is compared with has a
family and an opening that can be built again if it is a start tag. A round takes at least one
character, and there are no more rounds than characters and records. -/
theorem restore_or_mismatch {source : Text} {settings : Settings} {file : Option String}
    {m : Masked} (h : Masked.ofSource source settings file = .ok m) (t : Text) :
    ((∃ out, restore t m.ledger = .ok out) ∨
      ∃ e, restore t m.ledger = .error e ∧ e.isMismatch = true) ∧
    (∃ s, Reaches m.ledger ⟨0, [], t⟩ s ∧ Stops m.ledger s (failure? (restore t m.ledger))) ∧
    ∀ s, Reaches m.ledger ⟨0, [], t⟩ s →
      s.number + s.rest.length ≤ t.length ∧ s.number ≤ m.ledger.length ∧
      (∀ before f after, next? s.rest = some (before, f, after) → f.Readable) ∧
      (∀ r, m.ledger[s.number]? = some r → r.Recoverable) ∧
      ∀ s', Round m.ledger s s' → ∃ taken, taken ≠ [] ∧ s.rest = taken ++ s'.rest := by
  have hledger := Masked.recoverable_of_ofSource h
  obtain ⟨s, hreaches, hstops⟩ := stops_restoreFrom 0 rfl (List.nil_append m.ledger).symm [] t
  refine ⟨?_, ⟨s, hreaches, hstops⟩, fun s' hs' => ?_⟩
  · cases houtcome : restore t m.ledger with
    | ok out => exact .inl ⟨out, rfl⟩
    | error e =>
        rw [show restoreFrom m.ledger.length m.ledger 0 [] t = .error e from houtcome] at hstops
        exact .inr ⟨e, rfl, hstops.isMismatch hledger⟩
  · obtain ⟨hlength, hnumber⟩ := hs'.bounded (Nat.zero_le _)
    rw [Nat.zero_add] at hlength
    exact ⟨hlength, hnumber, fun before f after hnext => (next?_spec hnext).1.readable,
      fun r hr => hledger r (List.mem_of_getElem? hr), fun s'' hround => hround.advances⟩

/-- A text that no formatter should give: a brace and a comment in the place of the first comment,
and an identifier with the number of another record. -/
theorem restore_or_mismatch_of_displaced :
    let source := "<a:b>$\x7be\x7d</a:b>".toList
    let m : Masked := ⟨[.construct "/*ʃ*/".toList ⟨"<a:b>".toList, .startTag⟩,
      .construct "ʾ1_ʿ".toList ⟨"$\x7be\x7d".toList, .elExpression⟩,
      .construct "/*ʅʅ*/".toList ⟨"</a:b>".toList, .endTag⟩]⟩
    let t := "\x7b /*ʃ*/x ʾEL_07ʿ".toList
    Masked.ofSource source {} none = .ok m ∧
      restore t m.ledger = .error (.displaced "ʾEL_07ʿ".toList 1) ∧
      (∃ s, Reaches m.ledger ⟨0, [], t⟩ s ∧ Stops m.ledger s (failure? (restore t m.ledger))) ∧
      ∀ s, Reaches m.ledger ⟨0, [], t⟩ s → s.number + s.rest.length ≤ t.length := by
  intro source m t
  have hmasked : Masked.ofSource source {} none = .ok m := by
    decide +kernel
  have houtcome : restore t m.ledger = .error (.displaced "ʾEL_07ʿ".toList 1) := by
    decide +kernel
  obtain ⟨-, hstops, hrounds⟩ := restore_or_mismatch hmasked t
  exact ⟨hmasked, houtcome, hstops, fun s hs => (hrounds s hs).1⟩

end Restoration

end Stencil
