import Stencil.Proofs.Matcher.Trimming
import Stencil.Proofs.Token.Ending

/-!
# Scripts and how they end

Comments, declarations, expressions and scriptlets are opaque up to a fixed text. Behind its opener
a script either meets its terminator, or breaks off at a character that no document may hold, or
runs out of text (`Jsp.extent`). The three cases leave the engine in three states: it has matched,
it has failed, or it has failed and taken note that the text ended in front of the terminator, which
decides later what the failure is called.
-/

set_option autoImplicit false

namespace Stencil

open Jsp (Construct Production Rule delimits)

namespace Jsp

open Matcher (pattern ref sequence upTo)

/-! ## Terminators -/

/-- A text stands at a place of another one for the first time. -/
structure FirstAt (word t : Text) (k : Nat) : Prop where
  stands : word <+: t.drop k
  first : ∀ j < k, ¬word <+: t.drop j

/-- How far a script reaches in the text behind its opener. -/
inductive Extent where
  /-- It meets its terminator behind so many characters. -/
  | ends (k : Nat)
  /-- The text ends in front of the terminator. -/
  | runsOut
  /-- A character comes first that no document may hold. -/
  | breaksOff
  deriving DecidableEq, Repr

/-- The same seen from one character further to the front. -/
def Extent.behindChar : Extent → Extent
  | .ends k => .ends (k + 1)
  | .runsOut => .runsOut
  | .breaksOff => .breaksOff

/-- How far a script with a terminator reaches. -/
def extent (terminator : Text) : Text → Extent
  | [] => .runsOut
  | x :: t =>
    if terminator <+: x :: t then .ends 0
    else if Text.isXmlChar x then (extent terminator t).behindChar
    else .breaksOff

section Extent

variable {terminator t : Text} {k : Nat}

/-- Seen from one character further to the front a script ends one further on. -/
theorem Extent.behindChar_eq_ends_iff {e : Extent} :
    e.behindChar = .ends k ↔ ∃ n, e = .ends n ∧ k = n + 1 := by
  cases e <;> simp [behindChar, eq_comm]

/-- Seen from one character further to the front a script runs out if it did. -/
theorem Extent.behindChar_eq_runsOut_iff {e : Extent} : e.behindChar = .runsOut ↔ e = .runsOut := by
  cases e <;> simp [behindChar]

/-- A terminator stands at the very start for the first time if it stands there. -/
theorem firstAt_zero_iff : FirstAt terminator t 0 ↔ terminator <+: t :=
  ⟨fun h => h.stands, fun h => ⟨h, nofun⟩⟩

/-- A terminator stands further on for the first time if it does not stand here and is the first
behind. -/
theorem firstAt_cons_succ_iff {x : Char} :
    FirstAt terminator (x :: t) (k + 1) ↔ ¬terminator <+: x :: t ∧ FirstAt terminator t k := by
  constructor
  · intro h
    exact ⟨h.first 0 (Nat.succ_pos k), h.stands, fun j hj => h.first (j + 1) (Nat.succ_lt_succ hj)⟩
  · rintro ⟨hnot, hstands, hfirst⟩
    refine ⟨hstands, fun j hj => ?_⟩
    cases j with
    | zero => exact hnot
    | succ j => exact hfirst j (Nat.lt_of_succ_lt_succ hj)

/-- No terminator stands in an empty text. -/
theorem not_firstAt_nil (hterminator : terminator ≠ []) : ¬FirstAt terminator [] k := by
  intro h
  have hstands := h.stands
  rw [List.drop_nil, List.prefix_nil] at hstands
  exact hterminator hstands

/-- A script meets the first terminator if only characters of documents come before it. -/
theorem extent_eq_ends_iff (hterminator : terminator ≠ []) :
    extent terminator t = .ends k ↔
      FirstAt terminator t k ∧ ∀ x ∈ t.take k, Text.isXmlChar x = true := by
  induction t generalizing k with
  | nil => simp [extent, not_firstAt_nil hterminator]
  | cons x t ih =>
      by_cases hstands : terminator <+: x :: t
      · rw [extent, if_pos hstands, Extent.ends.injEq]
        cases k with
        | zero => simp [firstAt_zero_iff, hstands]
        | succ k => simp [firstAt_cons_succ_iff, hstands]
      · rw [extent, if_neg hstands]
        cases k with
        | zero =>
            simp only [firstAt_zero_iff, hstands, false_and, iff_false]
            split
            · simp [Extent.behindChar_eq_ends_iff]
            · nofun
        | succ k =>
            simp only [firstAt_cons_succ_iff, List.take_succ_cons, List.forall_mem_cons, hstands,
              not_false_eq_true, true_and]
            split
            · rename_i hx
              simp [Extent.behindChar_eq_ends_iff, ih, hx]
            · rename_i hx
              simp [hx]

/-- A script runs out of text if there is no terminator and nothing else to break off at. -/
theorem extent_eq_runsOut_iff (hterminator : terminator ≠ []) :
    extent terminator t = .runsOut ↔
      ¬terminator <:+: t ∧ ∀ x ∈ t, Text.isXmlChar x = true := by
  induction t with
  | nil => simp [extent, hterminator]
  | cons x t ih =>
      rw [extent, List.infix_cons_iff, List.forall_mem_cons]
      by_cases hstands : terminator <+: x :: t
      · simp [hstands]
      · rw [if_neg hstands]
        split
        · rename_i hx
          simp [Extent.behindChar_eq_runsOut_iff, ih, hstands, hx]
        · rename_i hx
          simp [hx]

end Extent

/-! ## The engine -/

/-- Where a script ends, if it does. -/
def Extent.stop? (terminator : Text) (c : Cursor) : Extent → Option Cursor
  | .ends k => some (c.advance (k + terminator.length))
  | _ => none

/-- The note behind a script: a new one where the text ended, and else that from before. -/
def Extent.shortfall (note : Shortfall) (before : Option Shortfall) : Extent → Option Shortfall
  | .runsOut => some note
  | _ => before

/-- One character more in front of a script. -/
theorem Extent.stop?_behindChar {terminator : Text} (front : Text) (x : Char) (t : Text)
    (e : Extent) :
    e.behindChar.stop? terminator ⟨front, x :: t, 0⟩ = e.stop? terminator ⟨x :: front, t, 0⟩ := by
  cases e with
  | ends k =>
      have hlength : k + 1 + terminator.length = k + terminator.length + 1 :=
        Nat.add_right_comm k 1 _
      simp [behindChar, stop?, Cursor.advance, hlength]
  | runsOut => rfl
  | breaksOff => rfl

/-- The note behind a script does not depend on where it is seen from. -/
theorem Extent.shortfall_behindChar {note : Shortfall} {before : Option Shortfall} (e : Extent) :
    e.behindChar.shortfall note before = e.shortfall note before := by
  cases e <;> rfl

/-- An outcome without a cause reported, and with a note behind it or none. -/
def Answers (outcome : Outcome) (found : Option Cursor) (shortfall : Option Shortfall) : Prop :=
  ∃ a, outcome = .ok (found, a) ∧ a.fatal = none ∧ a.shortfall = shortfall

section Engine

variable {a : Attempt} {c : Cursor} {s : String} {nonempty : s.toList ≠ []}

/-- The engine takes a fixed text where it stands. -/
theorem step_text (ha : a.fatal = none) (depth : Nat) :
    (text s nonempty).step rules (depth + 1) a c = .ok (c.after? s.toList, a) := by
  unfold Matcher.step
  exact Step.guarded_of_clean ha _

/-- The engine does with a rule as with its production, one level deeper. -/
theorem step_rule {r : Rule} (ha : a.fatal = none) (depth : Nat) :
    (rule r).step rules (depth + 1) a c = (production r).step rules depth a c := by
  unfold rule
  conv_lhs => unfold Matcher.step
  exact Step.guarded_of_clean ha _

/-- The engine does with a reference as with the production, two levels deeper. -/
theorem step_ref {r : Rule} (ha : a.fatal = none) (depth : Nat) :
    (ref r : Production).step rules (depth + 2) a c = (production r).step rules depth a c := by
  rw [← step_rule ha]
  conv_lhs => unfold Matcher.step
  exact Step.guarded_of_clean ha _

/-- The engine takes a character that may stand in a page. -/
theorem step_char (ha : a.fatal = none) (depth : Nat) :
    (ref .char : Production).step rules (depth + 3) a c =
      .ok ((Pattern.char "character" Text.isXmlChar).ahead? c, a) := by
  have hahead : (Pattern.char "character" Text.isXmlChar).after? c =
      (Pattern.char "character" Text.isXmlChar).ahead? c :=
    Pattern.after?_eq_ahead? (.inr (Pattern.consumes_charBefore _ _))
  rw [step_ref ha, production, ← hahead]
  unfold Matcher.step
  exact Step.guarded_of_clean ha _

/-- Behind a word that stands here is the place its length further on. -/
theorem after?_of_stands {word : Text} (hpast : c.past = 0) (h : word <+: c.rest) :
    c.after? word = some (c.advance word.length) := by
  obtain ⟨rest, hrest⟩ := h
  refine Cursor.after?_eq_some_iff.2 ⟨rest, hrest.symm, ?_⟩
  rw [Cursor.advance, ← hrest, List.take_left, List.drop_left, hpast]

/-- Work in a layer of its own answers the same. -/
theorem Answers.staged {step : Step} {found : Option Cursor} {shortfall : Option Shortfall}
    (h : Answers (step a.begin c) found shortfall) :
    Answers (Step.staged step a c) found shortfall := by
  obtain ⟨a', hstep, hclean, hshortfall⟩ := h
  refine ⟨(Attempt.settle found a').2, ?_, ?_, ?_⟩
  · rw [Step.staged, hstep]
    cases found <;> simp [Attempt.settle, hclean]
  · cases found <;> simp [Attempt.settle, hclean]
  · cases found <;> simp [Attempt.settle, hclean, hshortfall]

/-- The loop of a script goes as far as the script reaches. -/
theorem upTo_chars {body ending : Step} {terminator : Text} {label : String} {start count : Nat}
    (ha : a.fatal = none)
    (hbody : ∀ c, body a c = .ok ((Pattern.char "character" Text.isXmlChar).ahead? c, a))
    (hending : ∀ c, ending a c = .ok (c.after? terminator, a)) (hterminator : terminator ≠ [])
    (hpast : c.past = 0) (hcount : c.rest.length < count) :
    let e := extent terminator c.rest
    Answers (Step.upTo body ending label start count a c) (e.stop? terminator c)
      (e.shortfall ⟨label, start⟩ a.shortfall) := by
  intro e
  induction count generalizing c with
  | zero => omega
  | succ count ih =>
      have hclean := Attempt.not_isFatal ha
      obtain ⟨front, rest, past⟩ := c
      obtain rfl : past = 0 := hpast
      rw [Step.upTo]
      dsimp only
      rw [hending]
      cases rest with
      | nil =>
          rw [Cursor.after?_of_not_stands (by simpa using hterminator)]
          simp only [hclean, Bool.false_eq_true, if_false, Cursor.atEnd, List.isEmpty_nil, if_true]
          exact ⟨_, rfl, ha, rfl⟩
      | cons x t =>
          by_cases hstands : terminator <+: x :: t
          · have he : e = .ends 0 := if_pos hstands
            rw [after?_of_stands rfl hstands, he]
            exact ⟨a, by simp [Extent.stop?], ha, rfl⟩
          · rw [Cursor.after?_of_not_stands hstands]
            simp only [hclean, Bool.false_eq_true, if_false, Cursor.atEnd, List.isEmpty_cons, hbody,
              Pattern.char, ahead?_charBefore_cons]
            by_cases hx : Text.isXmlChar x = true
            · have he : e = (extent terminator t).behindChar := by simp [e, extent, hstands, hx]
              have hmoves : (⟨x :: front, t, 0⟩ : Cursor).position ≠
                  (⟨front, x :: t, 0⟩ : Cursor).position := by simp [Cursor.position, Cursor.offset]
              simp only [hx, if_true, hmoves, if_false]
              rw [he, Extent.stop?_behindChar, Extent.shortfall_behindChar]
              exact ih rfl (by simpa using hcount)
            · have he : e = .breaksOff := by simp [e, extent, hstands, hx]
              simp only [hx, Bool.false_eq_true, if_false]
              rw [he]
              exact ⟨a, rfl, ha, rfl⟩

end Engine

/-! ## The four scripts -/

/-- The constructs that are opaque up to a fixed text. -/
inductive Script where
  | comment | declaration | expression | scriptlet
  deriving DecidableEq, Repr

namespace Script

/-- The rule of the delimiter. -/
def delimiter : Script → Rule
  | comment => .commentStart
  | declaration => .declarationStart
  | expression => .expressionStart
  | scriptlet => .scriptletStart

/-- The rule of the whole script. -/
def whole : Script → Rule
  | comment => .comment
  | declaration => .declaration
  | expression => .expression
  | scriptlet => .scriptlet

/-- The kind of the tokens. -/
def kind : Script → Kind
  | comment => .comment
  | declaration => .declaration
  | expression => .expression
  | scriptlet => .scriptlet

/-- What a script starts with. -/
def opener : Script → String
  | comment => "<%--"
  | declaration => "<%!"
  | expression => "<%="
  | scriptlet => "<%"

/-- What a script ends with. -/
def terminator : Script → String
  | comment => "--%>"
  | _ => "%>"

/-- A script among the constructs that are told by their delimiters. -/
def construct (s : Script) : Construct Rule := ⟨s.kind, s.delimiter, s.whole⟩

variable {s : Script}

/-- No terminator is empty. -/
theorem terminator_ne_nil : s.terminator.toList ≠ [] := by
  cases s <;> decide

/-- The delimiter of a script is its opener. -/
theorem production_delimiter (s : Script) :
    ∃ nonempty, production s.delimiter = text s.opener nonempty := by
  cases s <;> exact ⟨_, rfl⟩

/-- A script is its delimiter, and characters up to its terminator. -/
theorem production_whole (s : Script) :
    production s.whole =
      sequence [ref s.delimiter, upTo (ref .char) (text s.terminator terminator_ne_nil)] := by
  cases s <;> rfl

/-- The note that is taken where the text ends in front of the terminator of a script. -/
def note (s : Script) (start : Cursor) : Shortfall :=
  ⟨String.ofList (Text.inDoubleQuotes s.terminator.toList), start.position⟩

section Step

variable {a : Attempt} {c body : Cursor} {depth : Nat}

/-- The engine takes characters up to the terminator as far as the extent of the script says. -/
theorem step_upTo (ha : a.fatal = none) (hpast : c.past = 0) (hdepth : c.rest.length < depth + 4) :
    let e := extent s.terminator.toList c.rest
    Answers ((upTo (ref .char) (text s.terminator terminator_ne_nil)).step rules (depth + 5) a c)
      (e.stop? s.terminator.toList c) (e.shortfall (s.note c) a.shortfall) := by
  intro e
  have hbegin : a.begin.fatal = none := ha
  unfold Matcher.step
  rw [Step.guarded_of_clean ha]
  exact Answers.staged (upTo_chars hbegin (fun c => step_char hbegin _)
    (fun c => step_text hbegin _) terminator_ne_nil hpast hdepth)

/-- Trying the rule of a script, going by how far the script reaches behind its opener. -/
theorem step_whole (ha : a.fatal = none) (hpast : c.past = 0)
    (hopens : c.Leads s.opener.toList body) (hdepth : c.rest.length + 7 ≤ depth) :
    let e := extent s.terminator.toList body.rest
    Answers ((rule s.whole).step rules depth a c) (e.stop? s.terminator.toList body)
      (e.shortfall (s.note body) a.shortfall) := by
  intro e
  obtain ⟨depth, rfl⟩ : ∃ n, depth = n + 7 := ⟨depth - 7, by omega⟩
  obtain ⟨nonempty, hdelimiter⟩ := s.production_delimiter
  have hbegin : a.begin.fatal = none := ha
  have hcount : body.rest.length < depth + 4 := by
    have hlength := congrArg List.length hopens.rest_eq
    rw [List.length_append] at hlength
    omega
  have hstart : (ref s.delimiter : Production).step rules (depth + 5) a.begin c =
      .ok (some body, a.begin) := by
    rw [step_ref hbegin, hdelimiter, step_text hbegin, Cursor.after?_of_leads hpast hopens]
  obtain ⟨a', hloop, hanswer⟩ := step_upTo (s := s) hbegin (hopens.past_eq hpast) hcount
  rw [step_rule ha, production_whole]
  unfold Matcher.step
  rw [Step.guarded_of_clean ha]
  refine Answers.staged ⟨a', ?_, hanswer⟩
  simp only [List.map_cons, List.map_nil, Step.sequence, hstart, hloop]
  cases e.stop? s.terminator.toList body <;> rfl

end Step

section Places

variable {source : Text} {position : Nat} {body stop : Cursor}

/-- A script ends behind its first terminator, if only characters of documents come before it. -/
theorem stop?_eq_some_iff (hbody : body.Within source) :
    (extent s.terminator.toList body.rest).stop? s.terminator.toList body = some stop ↔
      ∃ k, FirstAt s.terminator.toList body.rest k ∧
        (∀ x ∈ body.rest.take k, Text.isXmlChar x = true) ∧
        stop = .ofPosition source (body.offset + k + s.terminator.toList.length) := by
  have hstop (k : Nat) (hfirst : FirstAt s.terminator.toList body.rest k) :
      body.advance (k + s.terminator.toList.length) =
        .ofPosition source (body.offset + k + s.terminator.toList.length) := by
    have hpos := List.length_pos_iff.2 (terminator_ne_nil (s := s))
    have hlength := hfirst.stands.length_le
    rw [List.length_drop] at hlength
    have hle : k + s.terminator.toList.length ≤ body.rest.length := by omega
    obtain ⟨-, hplace⟩ := hbody.of_leads
      (Cursor.leads_advance body (k + s.terminator.toList.length))
    rw [← hplace, List.length_take, Nat.min_eq_left hle, Nat.add_assoc]
  constructor
  · intro h
    generalize he : extent s.terminator.toList body.rest = e at h
    cases e with
    | ends k =>
        obtain ⟨hfirst, hchars⟩ := (extent_eq_ends_iff terminator_ne_nil).1 he
        exact ⟨k, hfirst, hchars, (Option.some.inj h).symm.trans (hstop k hfirst)⟩
    | runsOut => cases h
    | breaksOff => cases h
  · rintro ⟨k, hfirst, hchars, rfl⟩
    rw [(extent_eq_ends_iff terminator_ne_nil).2 ⟨hfirst, hchars⟩, ← hstop k hfirst]
    rfl

/-- The bound of the engine has room for a script. -/
theorem add_le_bound (m : Production) (length : Nat) : length + 7 ≤ m.bound rules length := by
  have hpatience : 7 ≤ Matcher.patience := by decide
  have hmul : length * 1 ≤ (length + 2) * (rules.size + m.size + 2) :=
    Nat.mul_le_mul (by omega) (by omega)
  unfold Matcher.bound
  omega

/-- The body of a script starts behind its opener. -/
theorem leads_opener (hopens : s.opener.toList <+: source.drop position) :
    position + s.opener.toList.length ≤ source.length ∧
      (Cursor.ofPosition source position).past = 0 ∧
      (Cursor.ofPosition source position).Leads s.opener.toList
        (.ofPosition source (position + s.opener.toList.length)) := by
  have hpos : 0 < s.opener.toList.length := by cases s <;> decide
  have hlength := hopens.length_le
  rw [List.length_drop] at hlength
  exact ⟨by omega, Nat.sub_eq_zero_of_le (by omega),
    (Cursor.leads_ofPosition_iff (by omega)).2 ⟨hopens, rfl⟩⟩

/-- The rule of a script at a place where its opener stands. -/
theorem run_whole {a : Attempt} (ha : a.fatal = none)
    (hopens : s.opener.toList <+: source.drop position) :
    ∃ found a', (rule s.whole).run rules a (.ofPosition source position) = .ok (found, a') ∧
      ∀ stop, found = some stop ↔
        ∃ k, FirstAt s.terminator.toList (source.drop (position + s.opener.toList.length)) k ∧
          (∀ x ∈ (source.drop (position + s.opener.toList.length)).take k,
            Text.isXmlChar x = true) ∧
          stop = .ofPosition source
            (position + s.opener.toList.length + k + s.terminator.toList.length) := by
  obtain ⟨hle, hpast, hleads⟩ := leads_opener hopens
  obtain ⟨a', hrun, -⟩ := step_whole ha hpast hleads (add_le_bound (rule s.whole) _)
  refine ⟨_, a', hrun, fun stop => ?_⟩
  have hoffset : (Cursor.ofPosition source (position + s.opener.toList.length)).offset =
      position + s.opener.toList.length := Cursor.offset_ofPosition hle
  rw [stop?_eq_some_iff (Cursor.within_ofPosition hle), hoffset]
  rfl

end Places

end Script

end Jsp

/-! ## The lexer -/

namespace Page

open Jsp (Script)

variable {source : Text} {file : Option String} {n : Int} {s : Script} {a a' : Attempt} {c : Cursor}

/-- A rule for a fixed text that is a delimiter. -/
def IsTextRule (r : Rule) : Prop :=
  ∃ word nonempty, Jsp.production r = Jsp.text word nonempty ∧
    ∀ el t, delimits el t r = word.toList.isPrefixOf t

/-- Trying a fixed text leaves the state as it is. -/
theorem attempt_textRule {r : Rule} (hr : IsTextRule r) (ha : a.fatal = none) (el : Bool) :
    ∃ found, (standard source file n).attempt (Jsp.rule r) a c = .ok (found, a) ∧
      found.isSome = delimits el c.rest r := by
  obtain ⟨word, nonempty, hproduction, hdelimits⟩ := hr
  refine ⟨c.after? word.toList, ?_, ?_⟩
  · obtain ⟨depth, hdepth⟩ : ∃ depth, (Jsp.rule r).bound Jsp.rules (standard source file n).length =
        depth + 2 := ⟨_, (Nat.sub_add_cancel (Nat.le_of_add_left_le
          (Jsp.Script.add_le_bound (Jsp.rule r) _ : _ + 5 + 2 ≤ _))).symm⟩
    rw [attempt, hdepth, Jsp.step_rule ha, hproduction, Jsp.step_text ha]
  · rw [Jsp.isSome_after?, hdelimits]

/-- Constructs whose delimiters do not stand at a place are passed over. -/
theorem construct_append {openTags : List OpenTag} {front entries : List (Construct Rule)}
    (ha : a.fatal = none)
    (h : ∀ e ∈ front, (standard source file n).attempt (Jsp.rule e.delimiter) a c = .ok (none, a)) :
    (standard source file n).construct openTags c ((front ++ entries).map fun e =>
        ⟨e.kind, Jsp.rule e.delimiter, Jsp.rule e.whole⟩) a =
      (standard source file n).construct openTags c (entries.map fun e =>
        ⟨e.kind, Jsp.rule e.delimiter, Jsp.rule e.whole⟩) a := by
  induction front with
  | nil => rfl
  | cons e front ih =>
      obtain ⟨hfails, hothers⟩ := List.forall_mem_cons.1 h
      simp only [List.cons_append, List.map_cons, construct, hfails, ok_bind,
        if_neg (Attempt.not_isFatal ha)]
      exact ih hothers

/-- The delimiter of a script is a fixed text. -/
theorem isTextRule_delimiter (s : Script) : IsTextRule s.delimiter := by
  cases s <;> exact ⟨_, _, rfl, fun _ _ => rfl⟩

/-- Only fixed texts are tried in front of the delimiter of a script. -/
theorem exists_front (s : Script) :
    ∃ front behind, Jsp.constructs = front ++ s.construct :: behind ∧
      (∀ e ∈ front, e.kind ≠ s.kind) ∧ ∀ e ∈ front, IsTextRule e.delimiter := by
  have hcomment := isTextRule_delimiter .comment
  have hdirective : IsTextRule .directiveStart := ⟨_, _, rfl, fun _ _ => rfl⟩
  have hdeclaration := isTextRule_delimiter .declaration
  have hexpression := isTextRule_delimiter .expression
  cases s with
  | comment => exact ⟨[], _, rfl, by simp, by simp⟩
  | declaration =>
      exact ⟨Jsp.constructs.take 2, _, rfl, by decide, by
        simpa [Jsp.constructs] using ⟨hcomment, hdirective⟩⟩
  | expression =>
      exact ⟨Jsp.constructs.take 3, _, rfl, by decide, by
        simpa [Jsp.constructs] using ⟨hcomment, hdirective, hdeclaration⟩⟩
  | scriptlet =>
      exact ⟨Jsp.constructs.take 4, _, rfl, by decide, by
        simpa [Jsp.constructs] using ⟨hcomment, hdirective, hdeclaration, hexpression⟩⟩

/-- Where a script is told by its delimiter the delimiter stands. -/
theorem delimits_of_construct? {el : Bool} {t : Text} (h : construct? el t = some s.construct) :
    delimits el t s.delimiter = true := by
  unfold construct? at h
  have hstarts := List.find?_some h
  exact hstarts

/-- A script that is the first construct to start starts with its opener. -/
theorem opener_of_construct? {el : Bool} {t : Text} (h : construct? el t = some s.construct) :
    s.opener.toList <+: t := by
  have hdelimits := delimits_of_construct? h
  rw [← List.isPrefixOf_iff_prefix, ← hdelimits]
  cases s <;> rfl

/-- Where a script is the first construct that starts, its delimiter is found with the state as it
was, and the failure of its rule is the failure of the try. -/
theorem construct_fails {openTags : List OpenTag} {el : Bool} (ha : a.fatal = none)
    (hfirst : construct? el c.rest = some s.construct)
    (hwhole : (standard source file n).attempt (Jsp.rule s.whole) a c = .ok (none, a')) :
    (standard source file n).construct openTags c (standard source file n).constructs a =
      .error ((standard source file n).failure a' s.whole.label c.offset) := by
  obtain ⟨front, behind, hsplit, hkinds, htexts⟩ := exists_front s
  have hnone : front.find? (fun e => delimits el c.rest e.delimiter) = none := by
    cases hfront : front.find? (fun e => delimits el c.rest e.delimiter) with
    | none => rfl
    | some e =>
        rw [construct?, hsplit, List.find?_append, hfront] at hfirst
        have he : e = s.construct := Option.some.inj hfirst
        exact absurd (congrArg Construct.kind he) (hkinds e (List.mem_of_find?_eq_some hfront))
  have hfails : ∀ e ∈ front,
      (standard source file n).attempt (Jsp.rule e.delimiter) a c = .ok (none, a) := by
    intro e he
    obtain ⟨found, hattempt, hfound⟩ := attempt_textRule (htexts e he) ha el
    have hnot := List.find?_eq_none.1 hnone e he
    rw [← hfound, Option.not_isSome_iff_eq_none] at hnot
    rw [hattempt, hnot]
  obtain ⟨found, hdelimiter, hstands⟩ : ∃ found,
      (standard source file n).attempt (Jsp.rule s.delimiter) a c = .ok (found, a) ∧
        found.isSome = delimits el c.rest s.delimiter :=
    attempt_textRule (isTextRule_delimiter s) ha el
  rw [delimits_of_construct? hfirst, Option.isSome_iff_exists] at hstands
  obtain ⟨d, rfl⟩ := hstands
  have hconstructs : (standard source file n).constructs = (front ++ s.construct :: behind).map
      fun e => ⟨e.kind, Jsp.rule e.delimiter, Jsp.rule e.whole⟩ := by
    rw [← hsplit]
    rfl
  rw [hconstructs, construct_append ha hfails]
  simp only [List.map_cons, construct, Script.construct, hdelimiter, hwhole, ok_bind]
  rfl

/-- What a script that does not end is reported as. -/
def scriptCause (s : Script) : Jsp.Extent → Cause
  | .runsOut => .unterminated (String.ofList (Text.inDoubleQuotes s.terminator.toList))
  | _ => .mismatch s.whole.label

/-- What stands at a place where a script starts that does not end. -/
theorem sight_of_script {q : Progress} (hq : q.Steady source)
    (hfirst : construct? q.elEnabled q.rest = some s.construct)
    (hends : ∀ k, Jsp.extent s.terminator.toList (q.rest.drop s.opener.toList.length) ≠ .ends k) :
    (standard source file n).sight q = .error ((standard source file n).fault
      (scriptCause s (Jsp.extent s.terminator.toList (q.rest.drop s.opener.toList.length)))
      q.offset) := by
  obtain ⟨rest, hrest⟩ := opener_of_construct? hfirst
  have hbody : q.rest.drop s.opener.toList.length = rest := by rw [← hrest, List.drop_left]
  have hleads : q.place.Leads s.opener.toList ⟨s.opener.toList.reverse ++ q.front, rest, 0⟩ :=
    ⟨hrest.symm, rfl, id⟩
  rw [hbody] at hends ⊢
  have hdepth : q.place.rest.length + 7 ≤
      (Jsp.rule s.whole).bound Jsp.rules (standard source file n).length := by
    have hlength := hq.within.length_rest
    have hbound := Jsp.Script.add_le_bound (Jsp.rule s.whole) (standard source file n).length
    have hsource : (standard source file n).length = source.length := rfl
    omega
  obtain ⟨a', hstep, hclean, hshortfall⟩ :=
    Jsp.Script.step_whole (a := { store := q.store, fatal := q.fatal }) hq.clean rfl hleads hdepth
  have hnone : (Jsp.extent s.terminator.toList rest).stop? s.terminator.toList
      ⟨s.opener.toList.reverse ++ q.front, rest, 0⟩ = none := by
    generalize Jsp.extent s.terminator.toList rest = e at hends
    cases e with
    | ends k => exact absurd rfl (hends k)
    | runsOut | breaksOff => rfl
  rw [hnone] at hstep
  have hattempt : (standard source file n).attempt (Jsp.rule s.whole)
      { store := q.store, fatal := q.fatal } q.place = .ok (none, a') := by
    rw [attempt, hstep]
  have hconstruct : (standard source file n).construct q.openTags q.place
      (standard source file n).constructs { store := q.store, fatal := q.fatal } = _ :=
    construct_fails hq.clean hfirst hattempt
  have hfailure : (standard source file n).failure a' s.whole.label q.offset =
      (standard source file n).fault (scriptCause s (Jsp.extent s.terminator.toList rest))
        q.offset := by
    dsimp only at hshortfall
    rw [failure, hclean, hshortfall]
    generalize Jsp.extent s.terminator.toList rest = e at hends
    cases e with
    | ends k => exact absurd rfl (hends k)
    | runsOut | breaksOff => rfl
  rw [← hfailure]
  exact (congrArg (· >>= _) hconstruct : (standard source file n).sight q = _)

end Page

namespace TokenStream

open Jsp (Script FirstAt)

/-- Where the opener of a script stands, its rule matches just if the terminator of the script
occurs behind the opener with only characters of documents in front of its first occurrence, and
ends behind that occurrence. If the rule does not match, a lexer that stands there and takes this
construct stops at the opener: it reports that the page ended in front of the terminator if the
terminator does not occur in the rest of the page and nothing else is wrong there, and in every
other case that the script does not match. -/
theorem scripts_end_or_stop (s : Script) (source : Text) (position : Nat)
    (hopens : s.opener.toList <+: source.drop position) :
    let body := source.drop (position + s.opener.toList.length)
    let terminator := s.terminator.toList
    (∀ a : Attempt, a.fatal = none → ∃ found a',
      (Jsp.rule s.whole).run Jsp.rules a (.ofPosition source position) = .ok (found, a') ∧
      ∀ stop, found = some stop ↔
        ∃ k, FirstAt terminator body k ∧ (∀ x ∈ body.take k, Text.isXmlChar x = true) ∧
          stop = .ofPosition source
            (position + s.opener.toList.length + k + terminator.length)) ∧
    ∀ (settings : Settings) (file : Option String) (elEnabled : Option Bool) (before : List Token)
      (q : Progress),
      (Page.standard source file settings.excerptLength).Cuts
        (start source (elEnabled.getD settings.elEnabled)) before q →
      q.offset = position → Page.construct? q.elEnabled q.rest = some s.construct →
      (¬∃ k, FirstAt terminator body k ∧ ∀ x ∈ body.take k, Text.isXmlChar x = true) →
      ∃ e : LexError, ofSource source settings file elEnabled = ⟨before, some (.error e)⟩ ∧
        e.offset = some (position : Int) ∧
        ((¬terminator <:+: body ∧ ∀ x ∈ body, Text.isXmlChar x = true) →
          e.cause = .unterminated (String.ofList (Text.inDoubleQuotes terminator))) ∧
        (¬(¬terminator <:+: body ∧ ∀ x ∈ body, Text.isXmlChar x = true) →
          e.cause = .mismatch s.whole.label) := by
  intro body terminator
  refine ⟨fun a ha => Script.run_whole ha hopens, ?_⟩
  intro settings file elEnabled before q hcuts hoffset hfirst hbroken
  have hq : q.Steady source := hcuts.steady (steady_start source _)
  have hbody : q.rest.drop s.opener.toList.length = body := by
    rw [hq.rest_eq, List.drop_drop, hoffset]
  have hends : ∀ k, Jsp.extent terminator (q.rest.drop s.opener.toList.length) ≠ .ends k := by
    intro k hk
    rw [hbody] at hk
    exact hbroken ⟨k, (Jsp.extent_eq_ends_iff Script.terminator_ne_nil).1 hk⟩
  have hrest : q.rest ≠ [] := by
    obtain ⟨rest, hrest⟩ := Page.opener_of_construct? hfirst
    rw [← hrest]
    cases s <;> simp [Script.opener]
  have hsight : (Page.standard source file settings.excerptLength).sight q = _ :=
    Page.sight_of_script hq hfirst hends
  rw [hbody] at hsight hends
  refine ⟨_, ofSource_eq_of_stops hcuts (.fails hrest hsight), ?_, ?_, ?_⟩
  · show some (((Location.ofOffset source q.offset).offset : Nat) : Int) = _
    rw [Location.offset_ofOffset hq.offset_le, hoffset]
  · intro hrunsOut
    show Page.scriptCause s (Jsp.extent terminator body) = _
    rw [(Jsp.extent_eq_runsOut_iff Script.terminator_ne_nil).2 hrunsOut]
    rfl
  · intro hother
    show Page.scriptCause s (Jsp.extent terminator body) = _
    have hnot := mt (Jsp.extent_eq_runsOut_iff Script.terminator_ne_nil).1 hother
    generalize Jsp.extent terminator body = e at hends hnot
    cases e with
    | ends k => exact absurd rfl (hends k)
    | runsOut => exact absurd rfl hnot
    | breaksOff => rfl

/-- The opener of a comment and its terminator share no character: what looks like both is the
start of a comment that does not end. -/
theorem scripts_end_or_stop_of_overlap :
    let source := "<%--%>".toList
    let q := start source true
    Script.comment.opener.toList <+: source.drop 0 ∧
      (Page.standard source none 20).Cuts q [] q ∧
      Page.construct? q.elEnabled q.rest = some Script.comment.construct ∧
      ∃ e : LexError, ofSource source {} none none = ⟨[], some (.error e)⟩ ∧
        e.offset = some 0 ∧ e.cause = .unterminated "\"--%>\"" := by
  intro source q
  have hopens : Script.comment.opener.toList <+: source.drop 0 := ⟨"%>".toList, rfl⟩
  have hrunsOut : Jsp.extent "--%>".toList "%>".toList = .runsOut := by decide
  have hbroken : ¬∃ k, FirstAt "--%>".toList "%>".toList k ∧
      ∀ x ∈ "%>".toList.take k, Text.isXmlChar x = true := by
    rintro ⟨k, hk⟩
    cases hrunsOut.symm.trans ((Jsp.extent_eq_ends_iff (by decide)).2 hk)
  obtain ⟨-, hstops⟩ := scripts_end_or_stop .comment source 0 hopens
  obtain ⟨e, hstream, hoffset, hcause, -⟩ := hstops {} none none [] q (.nil q) rfl rfl hbroken
  exact ⟨hopens, .nil q, rfl, e, hstream, hoffset,
    hcause ((Jsp.extent_eq_runsOut_iff (by decide)).1 hrunsOut)⟩

end TokenStream

end Stencil
