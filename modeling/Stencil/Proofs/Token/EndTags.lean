import Stencil.Proofs.Token.Alone
import Stencil.Proofs.Token.Attributes

/-!
# Two ways to read an end tag

The end tag of one start tag is read by a matcher that repeats the name of the start tag letter by
letter, the end tag of any start tag by a rule that reads a name of its own. The rule looks ahead
for a name, reads as much of it as there is, and then reads what the matcher reads behind its name.
So the matcher finds just those end tags in which the rule finds its name, and no other name will
do, neither a beginning nor a continuation of it (`Jsp.endTagStop?_eq_some_iff`).

In a run the matcher of the innermost open tag is asked first. Where its end tag stands it is cut
off (`Page.Sees.of_endTag`), and an end tag that is reported is that of another name
(`Page.exists_name_of_misplaced`).
-/

set_option autoImplicit false

namespace Stencil

open Jsp (endTagStop? qNameStop?)

/-- A pattern that takes a text leads to the place behind it. -/
theorem Cursor.ahead?_of_leads {p : Pattern} {t : Text} {c d : Cursor} (hpast : c.past = 0)
    (nonempty : t ≠ []) (h : c.Leads t d) (hwidth : p.width c.front c.rest = some t.length) :
    p.ahead? c = some d := by
  obtain ⟨x, t, rfl⟩ := List.exists_cons_of_ne_nil nonempty
  have hahead : p.ahead? c = some (c.advance (x :: t).length) := by
    rw [Pattern.ahead?, hwidth]
    rfl
  rw [hahead, (leads_of_width nonempty h.rest_eq hwidth hahead).stop_eq h hpast]

/-- A matcher that looks at the text alone finds what it reads, unless a cause was reported
before. -/
theorem Matcher.run_of_readsAs {ν : Type} {rules : Rules ν} {m : Matcher ν}
    {stop? : Cursor → Option Cursor} (hrules : rules.Regular) (hm : m.Regular)
    (h : m.ReadsAs rules stop?) {a : Attempt} {c : Cursor} {verdict : Verdict}
    (hverdict : m.parse rules (m.bound rules c.rest.length) a.store.view c = .ok verdict) :
    ∃ a', m.run rules a c = .ok (if a.isFatal then none else stop? c, a') := by
  cases hfatal : a.fatal with
  | some f =>
      have hbound : m.bound rules c.rest.length ≠ 0 := by
        simp [bound, patience]
      obtain ⟨depth, hdepth⟩ := Nat.exists_eq_succ_of_ne_zero hbound
      rw [if_pos (Attempt.isFatal_of_fatal hfatal), run, hdepth]
      unfold step
      rw [Step.guarded_of_fatal hfatal]
      exact ⟨a, rfl⟩
  | none =>
      rw [if_neg (Attempt.not_isFatal hfatal), run]
      have hagrees := agrees_step hrules hm hfatal (m.bound rules c.rest.length) c
      obtain rfl := Parses.unique ⟨_, hverdict⟩ (h a.store.view c)
      rw [hverdict] at hagrees
      generalize m.step rules (m.bound rules c.rest.length) a c = outcome at hagrees
      cases hstop : stop? c with
      | none =>
          rw [hstop] at hagrees
          cases hagrees
          exact ⟨_, rfl⟩
      | some stop =>
          rw [hstop] at hagrees
          cases hagrees
          exact ⟨_, rfl⟩

namespace Jsp

open Cursor
open Matcher (ref)

variable {name : Text} {c d stop : Cursor}

/-! ## Reading a name -/

/-- A name without a colon is read up to a character that cannot continue it. -/
theorem ncNameRun_of_leads (hpast : c.past = 0) (hname : name.IsNcName) (h : c.Leads name d)
    (hstop : ∀ x ∈ d.rest.head?, Text.isNcNameChar x = false) : ncNameRun.ahead? c = some d := by
  obtain ⟨x, rest, rfl, hx, hrest⟩ := hname
  have hrun : (rest ++ d.rest).takeWhile Text.isNcNameChar = rest :=
    Text.takeWhile_append_of_stop hrest hstop
  apply ahead?_of_leads hpast (List.cons_ne_nil x rest) h
  rw [h.rest_eq]
  simp [ncNameRun, Pattern.word, hx, hrun]

/-- A qualified name is read up to a character that cannot continue it. -/
theorem qNameStop?_of_leads (hpast : c.past = 0) (hname : name.IsQName) (h : c.Leads name d)
    (hstop : ∀ x ∈ d.rest.head?, Text.isNcNameChar x = false) : qNameStop? c = some d := by
  obtain ⟨lead, name, hlead, hname, rfl⟩ := hname
  obtain ⟨c₁, hlead₁, hbehind⟩ := h.exists_between
  obtain ⟨c₂, hcolon, hname₂⟩ := Leads.exists_between (t := [':']) hbehind
  have hpast₁ := hlead₁.past_eq hpast
  have hpast₂ := hcolon.past_eq hpast₁
  have hstop₁ : ∀ x ∈ c₁.rest.head?, Text.isNcNameChar x = false := by
    rw [hbehind.rest_eq]
    rintro x ⟨⟩
    exact Text.isNcNameChar_colon
  rw [qNameStop?, ncNameRun_of_leads hpast hlead hlead₁ hstop₁, Option.bind_some,
    after?_of_leads (t := ":".toList) hpast₁ hcolon, Option.bind_some,
    ncNameRun_of_leads hpast₂ hname hname₂ hstop, Option.bind_some]

/-- What is read as a qualified name is one. -/
theorem leads_qNameStop? (h : qNameStop? c = some d) : ∃ name, name.IsQName ∧ c.Leads name d := by
  have hparses : (ref .qName).Parses rules (fun _ => none) c (.ends d fun _ => none) :=
    readsAs_qName.parses_ends_iff.2 ⟨h, rfl⟩
  exact (leads_qName hparses).2

/-- The rule for qualified names reads two names with a colon between them. -/
theorem readsAs_qNameRule : (rule .qName).ReadsAs rules qNameStop? := by
  intro view c
  rw [rule, Matcher.parses_labelled_iff, ← parses_ref_iff]
  exact readsAs_qName view c

/-! ## Reading an end tag -/

/-- The angle bracket and the slash of an end tag, in front of a name. -/
def endDelimiter : Pattern := .textBefore "</" "</".toList Text.startsQName

/-- The place behind the white space and the bracket that end a tag. -/
def bracketStop? (c : Cursor) : Option Cursor :=
  (some ((blankRun.ahead? c).getD c)).bind fun c => (c.after? ">".toList).bind some

/-- The place behind the end tag of any name, if one stands at a place. -/
def anyEndTagStop? (c : Cursor) : Option Cursor :=
  (endDelimiter.ahead? c).bind fun c => (qNameStop? c).bind bracketStop?

/-- The rule for end tags looks at nothing but the text. -/
theorem readsAs_actionEnd : (rule .actionEnd).ReadsAs rules anyEndTagStop? := by
  have hdelimiter : (ref .actionEndDelimiter).ReadsAs rules endDelimiter.ahead? :=
    (Matcher.readsAs_pattern endDelimiter).labelled.ref rfl
  have hspace : (ref .space).ReadsAs rules blankRun.ahead? :=
    (Matcher.readsAs_pattern blankRun).labelled.ref rfl
  have hnil : (Matcher.sequence [] : Production).ReadsAs rules some := Matcher.readsAs_sequence_nil
  have hclose := (Matcher.readsAs_literal ">".toList (by decide)).sequence_cons hnil
  exact (hdelimiter.sequence_cons
    (readsAs_qName.sequence_cons (hspace.maybe.sequence_cons hclose))).labelled

/-- What ends a tag does not continue its name. -/
theorem head?_of_bracketStop? (h : bracketStop? c = some stop) :
    ∀ x ∈ c.rest.head?, Text.isNcNameChar x = false := by
  have hnot : ∀ x, Text.isXmlSpace x = true → Text.isNcNameChar x = false := by
    intro x hspace
    rw [← Bool.not_eq_true]
    intro hname
    rw [Text.not_space_of_isNcNameChar hname] at hspace
    cases hspace
  simp only [bracketStop?, Option.bind_some, Option.bind_eq_some_iff] at h
  obtain ⟨d, hclose, -⟩ := h
  cases hblank : blankRun.ahead? c with
  | none =>
      rw [hblank, Option.getD_none] at hclose
      rw [(leads_after? hclose).rest_eq]
      rintro x ⟨⟩
      decide
  | some c' =>
      obtain ⟨x, t, hx, -, hleads⟩ := leads_word hblank
      rw [hleads.rest_eq]
      rintro y ⟨⟩
      exact hnot x hx

/-- The end tag of a name stands where the end tag of any name does and the name that is read behind
its slash is this one. -/
theorem endTagStop?_eq_some_iff (hpast : c.past = 0) (hname : name.IsQName) :
    endTagStop? name c = some stop ↔
      anyEndTagStop? c = some stop ∧ ∃ start behind, c.Leads "</".toList start ∧
        qNameStop? start = some behind ∧ start.upTo behind = name := by
  have hends : endTagStop? name c =
      (c.after? "</".toList).bind fun c => (c.after? name).bind bracketStop? := rfl
  rw [hends, anyEndTagStop?]
  simp only [Option.bind_eq_some_iff]
  constructor
  · rintro ⟨start, hopen, behind, hafter, hbracket⟩
    have hopen := leads_after? hopen
    have hafter := leads_after? hafter
    have hpast' := hopen.past_eq hpast
    have hread := qNameStop?_of_leads hpast' hname hafter (head?_of_bracketStop? hbracket)
    have hstarts : Text.startsQName start.rest = true :=
      Text.startsQName_iff.2 ⟨name, behind.rest, hname, hafter.rest_eq⟩
    have hdelimiter : endDelimiter.ahead? c = some start := by
      apply ahead?_of_leads hpast (by decide) hopen
      have hword : Text.after? "</".toList c.rest = some start.rest :=
        Text.after?_eq_some_iff.2 hopen.rest_eq
      simp only [endDelimiter, Pattern.textBefore, hword, hstarts, if_true]
    exact ⟨⟨start, hdelimiter, behind, hread, hbracket⟩, start, behind, hopen, hread,
      hafter.upTo_eq hpast'⟩
  · rintro ⟨⟨start, hdelimiter, behind, hread, hbracket⟩, start', behind', hopen', hread', rfl⟩
    have hopen : c.Leads "</".toList start := leads_textBefore (by decide) hdelimiter
    obtain rfl := hopen.stop_eq hopen' hpast
    rw [hread] at hread'
    cases hread'
    have hpast' := hopen.past_eq hpast
    obtain ⟨name, -, hleads⟩ := leads_qNameStop? hread
    rw [hleads.upTo_eq hpast']
    exact ⟨start, after?_of_leads hpast hopen, behind, after?_of_leads hpast' hleads, hbracket⟩

/-- An end tag starts with its angle bracket and slash. -/
theorem leads_of_anyEndTagStop? (h : anyEndTagStop? c = some stop) :
    ∃ start, c.Leads "</".toList start := by
  obtain ⟨start, hdelimiter, -⟩ := Option.bind_eq_some_iff.1 h
  exact ⟨start, leads_textBefore (by decide) hdelimiter⟩

/-! ## Running the matchers -/

/-- A matcher that looks at the text alone comes to an end at every position, also past the end of
the text, if it needs no more than a few levels to fail there. -/
theorem exists_run {m : Production} {stop? : Cursor → Option Cursor} (hregular : m.Regular)
    (h : m.ReadsAs rules stop?) (hm : m.levels rank true ≤ depthOfRules)
    (hend : ∀ view c, c.rest = [] → m.parse rules 5 view c = .ok .fails) (source : Text)
    (position : Nat) (a : Attempt) :
    let c := Cursor.ofPosition source position
    ∃ a', m.run rules a c = .ok (if a.isFatal then none else stop? c, a') := by
  intro c
  rcases Nat.lt_or_ge source.length position with hgt | hle
  · have hrest : c.rest = [] := List.drop_eq_nil_of_le hgt.le
    have hbound : 5 ≤ m.bound rules c.rest.length := by
      simp only [Matcher.bound, Matcher.patience]
      omega
    exact Matcher.run_of_readsAs regular_rules hregular h
      (Matcher.parse_mono hbound (hend a.store.view c hrest))
  · obtain ⟨verdict, hverdict⟩ :=
      exists_verdict a.store.view hm (within_ofPosition hle).past_eq (Nat.le_refl c.rest.length)
    exact Matcher.run_of_readsAs regular_rules hregular h hverdict

/-- The matcher of the end tag of a name, the rule for end tags and the rule for names come to an
end at every position. The first matches just where the second does and the third finds the name
behind the slash, and up to the same place. -/
theorem exists_runs (hname : name.IsQName) (source : Text) (position : Nat) (a : Attempt) :
    let c := Cursor.ofPosition source position
    let start := Cursor.ofPosition source (position + 2)
    ∃ closed? ended? named? a₁ a₂ a₃,
      (closer name hname.ne_nil (rule .space)).run rules a c = .ok (closed?, a₁) ∧
      (rule .actionEnd).run rules a c = .ok (ended?, a₂) ∧
      (rule .qName).run rules a start = .ok (named?, a₃) ∧
      ∀ stop, closed? = some stop ↔ ended? = some stop ∧ named?.map start.upTo = some name := by
  intro c start
  have hnil {m : Production} (h : ∀ view front past, m.parse rules 5 view ⟨front, [], past⟩ =
      .ok .fails) : ∀ view c, c.rest = [] → m.parse rules 5 view c = .ok .fails := by
    rintro view ⟨front, rest, past⟩ rfl
    exact h view front past
  obtain ⟨a₁, hclosed⟩ := exists_run (regular_closer name hname.ne_nil)
    (readsAs_closer name hname.ne_nil) (levels_closer name _) (hnil fun _ _ _ => rfl) source
    position a
  obtain ⟨a₂, hended⟩ := exists_run (regular_rule _) readsAs_actionEnd (levels_rule _).2
    (hnil fun _ _ _ => rfl) source position a
  obtain ⟨a₃, hnamed⟩ := exists_run (regular_rule _) readsAs_qNameRule (levels_rule _).2
    (hnil fun _ _ _ => rfl) source (position + 2) a
  refine ⟨_, _, _, a₁, a₂, a₃, hclosed, hended, hnamed, fun stop => ?_⟩
  split
  · simp
  rcases Nat.lt_or_ge source.length position with hgt | hle
  · -- nothing stands past the end of the text
    have hrest : c.rest = [] := List.drop_eq_nil_of_le hgt.le
    constructor
    · intro hclosed
      obtain ⟨t, ⟨blanks, -, rfl⟩, hleads⟩ := endsTag_of_endTagStop? hclosed
      cases hrest.symm.trans hleads.rest_eq
    · rintro ⟨hany, -⟩
      obtain ⟨start', hopen⟩ := leads_of_anyEndTagStop? hany
      cases hrest.symm.trans hopen.rest_eq
  · have hpast := (within_ofPosition hle).past_eq
    have hstart {start' : Cursor} (h : c.Leads "</".toList start') : start' = start :=
      ((leads_ofPosition_iff hle).1 h).2
    rw [endTagStop?_eq_some_iff hpast hname, Option.map_eq_some_iff]
    constructor
    · rintro ⟨hany, start', behind, hopen, hread, hupTo⟩
      obtain rfl := hstart hopen
      exact ⟨hany, behind, hread, hupTo⟩
    · rintro ⟨hany, behind, hread, hupTo⟩
      obtain ⟨start', hopen⟩ := leads_of_anyEndTagStop? hany
      obtain rfl := hstart hopen
      exact ⟨hany, start, behind, hopen, hread, hupTo⟩

end Jsp

/-! ## End tags in a run -/

/-- A text starts with one end tag of a name at most. -/
theorem Text.EndsTag.unique {name t t' rest rest' : Text} (h : EndsTag name t)
    (h' : EndsTag name t') (heq : t ++ rest = t' ++ rest') : t = t' := by
  obtain ⟨blanks, hblanks, rfl⟩ := h
  obtain ⟨blanks', hblanks', rfl⟩ := h'
  have hbracket {rest : Text} : ∀ x ∈ ('>' :: rest).head?, isXmlSpace x = false := by
    rintro x ⟨⟩
    decide
  have hbehind : blanks ++ '>' :: rest = blanks' ++ '>' :: rest' := by simpa using heq
  have htake := congrArg (List.takeWhile isXmlSpace) hbehind
  rw [takeWhile_append_of_stop hblanks hbracket, takeWhile_append_of_stop hblanks' hbracket]
    at htake
  rw [htake]

/-- A start tag has one name. -/
theorem Token.Opens.name_unique {t : Token} {name name' : Text} (h : t.Opens name)
    (h' : t.Opens name') : name = name' := by
  obtain ⟨-, opening, hopens, hvalue⟩ := h
  obtain ⟨-, opening', hopens', hvalue'⟩ := h'
  obtain rfl : opening = opening' := List.append_left_injective ['>'] (hvalue.symm.trans hvalue')
  rw [hopens.name_eq, hopens'.name_eq]

namespace Page

variable {source : Text} {file : Option String} {n : Int} {p : Page} {q q' : Progress} {view : View}
  {c stop : Cursor} {openTags below : List OpenTag} {tag : OpenTag} {a : Attempt} {e : LexError}
  {found : Text} {fault : EndTagFault}

/-- A state that is reached from a state in which the open tags carry the names of the start tags
that were left open is such a state again. -/
theorem Cuts.nests {ts unclosed : List Token} {justOpened : Bool}
    (h : (standard source file n).Cuts q ts q') (hs : q.Sound source unclosed)
    (hq : q.Nests unclosed justOpened) :
    ∃ justOpened', q'.Nests (ts.foldl Token.track unclosed) justOpened' := by
  induction h generalizing unclosed justOpened with
  | nil => exact ⟨justOpened, hq⟩
  | cons hrest hnext _ ih =>
      have hspec := next_spec file n hs
      rw [hnext] at hspec
      obtain ⟨-, -, -, -, hs'⟩ := hspec
      obtain ⟨-, hq'⟩ := next_nests hs hq hnext
      exact ih hs' hq'

/-- Cutting from the start of a page leads behind the characters of its tokens. -/
theorem Cuts.offset_eq {ts : List Token} {el : Bool}
    (h : (standard source file n).Cuts (TokenStream.start source el) ts q) :
    q.offset = Token.totalLength ts := by
  obtain ⟨-, hoffset⟩ := h.rest_eq (TokenStream.steady_start source el)
  rw [hoffset, List.length_flatMap]
  exact Nat.zero_add _

/-- No construct that is told by its delimiter starts like an end tag. -/
theorem construct?_endTag (el : Bool) (t : Text) : construct? el ('<' :: '/' :: t) = none := by
  cases el <;> rfl

/-- Where the end tag of the innermost open tag stands it is seen. -/
theorem Sees.of_endTag {result : Except LexFailure Sighting}
    (h : p.Sees view (tag :: below) c result)
    (hnone : construct? (Jsp.elEnabled.holds view) c.rest = none)
    (hstop : endTagStop? tag.name c = some stop) :
    ∃ s, result = .ok s ∧ s.kind = .endTag ∧ s.stop = stop := by
  have hcloser {el : Bool} (hno : NoConstruct el (tag :: below) c) : False := by
    have hnot := hno.closer tag rfl
    rw [hstop] at hnot
    cases hnot
  cases h with
  | construct hfirst | brokenConstruct hfirst =>
      rw [hnone] at hfirst
      cases hfirst
  | endTag _ hkind hopen hstop' =>
      cases hopen
      rw [hstop] at hstop'
      cases hstop'
      exact ⟨_, rfl, hkind, rfl⟩
  | strayEndTag hno | brokenEndTag hno | brokenStartTag hno | templateText hno =>
      exact (hcloser hno).elim
  | unendedStartTag hstarts | emptyTag hstarts | closedTag hstarts | startTag _ hstarts =>
      exact (hcloser hstarts.toNoConstruct).elim

/-- What is blamed for a failure of a rule is no end tag. -/
theorem Blames.cause_ne {isFault : Fault → Prop} {expected : String} {offset : Nat}
    (h : p.Blames isFault expected offset (.error e)) : e.cause ≠ .endTag found fault := by
  generalize hfailure : LexFailure.error e = failure at h
  cases h with
  | reported f _ hcause =>
      cases hfailure
      intro heq
      have hreported : (Cause.endTag found fault).IsReported := heq ▸ hcause
      cases hreported
  | unterminated terminator | mismatch =>
      cases hfailure
      nofun

/-- An end tag that is out of place is the end tag of the name that is reported. -/
theorem strayEndTag_misplaced (hc : c.Within source) (ha : a.fatal = none)
    (h : (standard source file n).strayEndTag openTags c a = .error (.error e))
    (hcause : e.cause = .endTag found fault) :
    ∃ name stop, endTagStop? name c = some stop ∧ e.cause = misplacedEndTag openTags name := by
  obtain ⟨started, a₁, hattempt, -, hclean, -⟩ :=
    attempt_delimiter (r := .actionEndDelimiter) file n (by decide) hc ha
  simp only [strayEndTag, lookUp_standard, ok_bind, hattempt] at h
  cases started with
  | none => cases h
  | some d =>
      have hwhole := attempt_rule_tried file n .actionEnd hc hclean
      dsimp only at h
      generalize (standard source file n).attempt (Jsp.rule .actionEnd) a₁ c = result at hwhole h
      have hblamed {a₂ : Attempt} (hreported : ∀ f, a₂.fatal = some f → f.cause.IsReported)
          (hfailure : (standard source file n).failure a₂ (describe (Jsp.rule .actionEnd))
            c.offset = .error e) : False := by
        have hblames : (standard source file n).Blames (fun _ => True) _ _ _ :=
          failure_blames (fun f hf => ⟨trivial, hreported f hf⟩) (describe (Jsp.rule .actionEnd))
            c.offset
        rw [hfailure] at hblames
        exact hblames.cause_ne hcause
      cases hwhole with
      | fails _ hclean' => exact (hblamed (by simp [hclean']) (Except.error.inj h)).elim
      | faults _ hfatal hreported =>
          exact (hblamed (by simpa [hfatal] using hreported) (Except.error.inj h)).elim
      | @ends stop a₂ hparses hclean' =>
          obtain ⟨hwithin, hslash, name, behind, hname, hleads, hparsesName⟩ :=
            exists_name_of_actionEnd hc hparses a₂.store.view
          obtain ⟨a₃, hnamed, -⟩ := (attempt_rule_tried file n .qName hwithin hclean').of_ofStop
            (some behind) hparsesName
          have hsource : (standard source file n).source = source := rfl
          have hupTo := hleads.upTo_eq hwithin.past_eq
          simp only [ok_bind, hsource, hnamed, hupTo] at h
          have hany := (Jsp.readsAs_actionEnd.parses_ends_iff.1 hparses).1
          have hread := (Jsp.readsAs_qNameRule.parses_ends_iff.1 hparsesName).1
          refine ⟨name, stop, (Jsp.endTagStop?_eq_some_iff hc.past_eq hname).2
            ⟨hany, _, behind, hslash, hread, hupTo⟩, ?_⟩
          cases h
          rfl

/-- Where no construct stands that is told by its delimiter, none is found. -/
theorem construct_misses (file : Option String) (n : Int) (openTags : List OpenTag)
    (hc : c.Within source) (ha : a.fatal = none)
    (hnone : construct? (Jsp.elEnabled.holds a.store.view) c.rest = none) :
    ∃ a', (standard source file n).construct openTags c (standard source file n).constructs a =
      .ok (.miss a') ∧ a'.fatal = none ∧ a'.store.view = a.store.view := by
  have hfinds := construct_finds file n openTags hc ha Jsp.constructs (by decide)
  have hconstructs : (standard source file n).constructs =
      Jsp.constructs.map fun e => ⟨e.kind, Jsp.rule e.delimiter, Jsp.rule e.whole⟩ := rfl
  rw [hconstructs]
  dsimp only at hfinds
  generalize (standard source file n).construct openTags c _ a = result at hfinds ⊢
  unfold construct? at hnone
  rcases result with failure | ⟨a'⟩ | s
  · obtain ⟨e, hfirst, -⟩ := hfinds
    rw [hnone] at hfirst
    cases hfirst
  · exact ⟨a', rfl, hfinds.2⟩
  · obtain ⟨e, hfirst, -⟩ := hfinds
    rw [hnone] at hfirst
    cases hfirst

/-- Where the end tag of the innermost open tag does not stand the others are tried. -/
theorem endTag_eq_strayEndTag (file : Option String) (n : Int) (hc : c.Within source)
    (ha : a.fatal = none) (hstandard : ∀ tag ∈ openTags, tag.IsStandard)
    (hnot : ∀ tag ∈ openTags.head?, endTagStop? tag.name c = none) :
    ∃ a', a'.fatal = none ∧ (standard source file n).endTag openTags c a =
      (standard source file n).strayEndTag openTags c a' := by
  cases openTags with
  | nil => exact ⟨a, ha, rfl⟩
  | cons tag below =>
      obtain ⟨nonempty, hcloser⟩ := hstandard tag (List.mem_cons_self ..)
      obtain ⟨a', hattempt, hclean, -⟩ := attempt_closer file n nonempty hc ha
      rw [hnot tag rfl] at hattempt
      exact ⟨a', hclean, by rw [endTag, hcloser, hattempt, ok_bind]⟩

/-- An end tag that is reported stands at the place, and it is not that of the innermost open
tag. -/
theorem exists_name_of_misplaced (hq : q.Steady source) (hrest : q.rest ≠ [])
    (h : (standard source file n).sight q = .error (.error e))
    (hcause : e.cause = .endTag found fault) :
    ∃ name stop, endTagStop? name q.place = some stop ∧
      e.cause = misplacedEndTag q.openTags name ∧
      ∀ tag ∈ q.openTags.head?, endTagStop? tag.name q.place = none := by
  -- of the exits only that of stray end tags reports one
  have hexit : NoConstruct q.elEnabled q.openTags q.place ∧
      Jsp.delimits q.elEnabled q.rest .actionEndDelimiter = true := by
    have hsees := sight_sees_of_steady file n hq hrest
    rw [h] at hsees
    generalize hresult : Except.error (LexFailure.error e) = result at hsees
    cases hsees with
    | strayEndTag hnone hend => exact ⟨hnone, hend⟩
    | brokenConstruct _ _ hblames | brokenEndTag _ _ _ hblames | brokenStartTag _ _ _ hblames
    | unendedStartTag _ _ _ hblames =>
        cases hresult
        exact absurd hcause hblames.cause_ne
    | _ => cases hresult
  obtain ⟨hnone, hend⟩ := hexit
  obtain ⟨a₁, hconstruct, hclean₁, hview₁⟩ := construct_misses file n q.openTags hq.within
    (a := { store := q.store, fatal := q.fatal }) hq.clean hnone.construct
  obtain ⟨a₂, hclean₂, hstray⟩ := endTag_eq_strayEndTag file n hq.within hclean₁ hq.standard
    hnone.closer
  have hsees := endTag_sees file n hq.within hclean₁ hq.standard (hview₁ ▸ hnone.construct)
  unfold sight at h
  simp only [hconstruct, ok_bind] at h
  rw [hstray] at h hsees
  cases hresult : (standard source file n).strayEndTag q.openTags q.place a₂ with
  | error failure =>
      rw [hresult] at h
      cases h
      obtain ⟨name, stop, hstop, hname⟩ := strayEndTag_misplaced hq.within hclean₂ hresult hcause
      exact ⟨name, stop, hstop, hname, hnone.closer⟩
  | ok found =>
      rw [hresult] at hsees h
      cases found with
      | hit s => cases h
      | miss a₃ =>
          obtain ⟨⟨-, hnoEnd⟩, -⟩ := hsees
          rw [hview₁] at hnoEnd
          cases hnoEnd.symm.trans hend

/-- Where a run stops because of an end tag in the place of another one, the first stands at the
place, and it has another name than the innermost open tag. -/
theorem Stops.misplaced {expected : Text} (hq : q.Steady source)
    (h : (standard source file n).Stops q (some (.error e)))
    (hcause : e.cause = .endTag found (.misplaced expected)) :
    (∃ tag tags, q.openTags = tag :: tags ∧ tag.name = expected) ∧ expected ≠ found ∧
      ∃ ending rest, Text.EndsTag found ending ∧ q.rest = ending ++ rest := by
  cases h with
  | unclosed => cases hcause
  | fails hrest hsight =>
      obtain ⟨name, stop, hstop, hname, hnot⟩ := exists_name_of_misplaced hq hrest hsight hcause
      obtain ⟨ending, hending, hleads⟩ := Jsp.endsTag_of_endTagStop? hstop
      rw [hcause] at hname
      cases hopen : q.openTags with
      | nil =>
          rw [hopen] at hname
          cases hname
      | cons tag tags =>
          rw [hopen] at hname hnot
          cases hname
          refine ⟨⟨tag, tags, rfl, rfl⟩, ?_, ending, stop.rest, hending, hleads.rest_eq⟩
          intro heq
          have hnone := hnot tag rfl
          rw [heq, hstop] at hnone
          cases hnone

/-- Where the end tag of the innermost open tag stands a run goes on with it. -/
theorem Cuts.endTag_first {tags : List OpenTag} {ending rest : Text} {ts : List Token}
    {failure : Option LexFailure} (h : (standard source file n).Cuts q ts q')
    (hstops : (standard source file n).Stops q' failure) (hq : q.Steady source)
    (hopen : q.openTags = tag :: tags) (hends : Text.EndsTag tag.name ending)
    (hrest : q.rest = ending ++ rest) : ∃ ts', ts = ⟨.endTag, ending, q.offset⟩ :: ts' := by
  obtain ⟨stop, hstop⟩ :=
    Option.isSome_iff_exists.1 (Jsp.isSome_endTagStop? (c := q.place) hends hrest)
  obtain ⟨t, rfl⟩ : ∃ t, ending = '<' :: '/' :: t := by
    obtain ⟨blanks, -, rfl⟩ := hends
    exact ⟨_, rfl⟩
  have hnonempty : q.rest ≠ [] := by
    rw [hrest]
    exact List.cons_ne_nil _ _
  have hseen {result : Except LexFailure Sighting}
      (hsees : (standard source file n).Sees q.store.view q.openTags q.place result) :
      ∃ s, result = .ok s ∧ s.kind = .endTag ∧ s.stop = stop := by
    rw [hopen] at hsees
    refine hsees.of_endTag ?_ hstop
    rw [show q.place.rest = _ from hrest]
    exact construct?_endTag _ _
  cases h with
  | nil =>
      cases hstops with
      | done hempty | unclosed hempty => exact absurd hempty hnonempty
      | fails _ hsight =>
          have hsees := sight_sees_of_steady file n hq hnonempty
          rw [hsight] at hsees
          obtain ⟨s, hok, -⟩ := hseen hsees
          cases hok
  | @cons _ _ _ token ts' _ hnext _ =>
      obtain ⟨s, hsees, hcutsOff⟩ := next_cutsOff hq hnonempty hnext
      obtain ⟨_, hok, hkind, hstop'⟩ := hseen hsees
      cases hok
      obtain ⟨ending, hends', hleads⟩ := Jsp.endsTag_of_endTagStop? hstop
      have hending := hends'.unique hends (hleads.rest_eq.symm.trans hrest)
      rw [← hstop'] at hleads
      refine ⟨ts', ?_⟩
      rw [← hending, ← hkind, ← hcutsOff.kind, hleads.unique hcutsOff.leads, ← hcutsOff.offset]

end Page

namespace TokenStream

open Jsp (rule closer?)

/-- What is left behind some of the tokens of a page is cut on in a steady state whose open tags
carry the names of the start tags that are left open. -/
theorem exists_state {source : Text} {settings : Settings} {file : Option String}
    {elEnabled : Option Bool} {before after : List Token}
    (h : (ofSource source settings file elEnabled).tokens = before ++ after) :
    let page := Page.standard source file settings.excerptLength
    ∃ q q', page.Cuts q after q' ∧
      page.Stops q' (ofSource source settings file elEnabled).failure ∧ q.Steady source ∧
      q.offset = Token.totalLength before ∧
      List.Forall₂ (fun tag t => Token.Opens tag.name t) q.openTags (Token.unclosed before) := by
  intro page
  obtain ⟨q', hcuts, hstops⟩ := exists_cuts source settings file elEnabled
  rw [h] at hcuts
  obtain ⟨q, hbefore, hafter⟩ := hcuts.of_append
  obtain ⟨justOpened, hnests⟩ := hbefore.nests (sound_start source _) (nests_start source _)
  exact ⟨q, q', hafter, hstops, hbefore.steady (steady_start source _), hbefore.offset_eq,
    hnests.names⟩

/-- The matcher of one end tag and the rule for all of them agree. Take any qualified name, which is
a text that the rule for names matches as a whole. At every position of every text the matcher that
is made for the name, the rule for end tags and the rule for names come to an end; the matcher
matches just where the rule for end tags does and the rule for names, two characters on, reads
exactly this name, and both end at the same place. So in every run an end tag that is reported as
found in the place of another one stands there and has another name than the innermost start tag
that is open, and the end tag of the innermost start tag that is open is always taken. -/
theorem end_tags_agree :
    (∀ name a₀ a₁, (rule .qName).run Jsp.rules a₀ (.ofPosition name 0) =
        .ok (some (.ofPosition name name.length), a₁) →
      ∃ closer, closer? name (rule .space) = .ok closer ∧
        ∀ (source : Text) (position : Nat) (a : Attempt),
          let c := Cursor.ofPosition source position
          let start := Cursor.ofPosition source (position + 2)
          ∃ closed? ended? named? a₂ a₃ a₄, closer.run Jsp.rules a c = .ok (closed?, a₂) ∧
            (rule .actionEnd).run Jsp.rules a c = .ok (ended?, a₃) ∧
            (rule .qName).run Jsp.rules a start = .ok (named?, a₄) ∧
            ∀ stop, closed? = some stop ↔
              ended? = some stop ∧ named?.map start.upTo = some name) ∧
    ∀ source settings file elEnabled,
      let stream := ofSource source settings file elEnabled
      (∀ e found expected, stream.failure = some (.error e) →
        e.cause = .endTag found (.misplaced expected) →
        e.cause.message = "Expected end tag " ++ ("</" ++ String.ofList expected ++ ">") ++
            " but found " ++ ("</" ++ String.ofList found ++ ">") ∧
          expected ≠ found ∧
          (∃ start below, Token.unclosed stream.tokens = start :: below ∧ start.Opens expected) ∧
          ∃ ending rest, Text.EndsTag found ending ∧
            source.drop (Token.totalLength stream.tokens) = ending ++ rest) ∧
      ∀ before after start below name ending rest, stream.tokens = before ++ after →
        Token.unclosed before = start :: below → start.Opens name → Text.EndsTag name ending →
        source.drop (Token.totalLength before) = ending ++ rest →
          ∃ after', after = ⟨.endTag, ending, Token.totalLength before⟩ :: after' := by
  refine ⟨?_, fun source settings file elEnabled => ⟨?_, ?_⟩⟩
  · intro name a₀ a₁ hrun
    obtain ⟨-, -, hparses⟩ := Matcher.step_some Jsp.regular_rules
      (Jsp.regular_rule .qName) hrun
    obtain ⟨name', hname, hleads⟩ :=
      Jsp.leads_qNameStop? (Jsp.readsAs_qNameRule.parses_ends_iff.1 hparses).1
    have hrest := hleads.rest_eq
    obtain rfl : name = name' := by simpa [Cursor.ofPosition] using hrest
    exact ⟨_, dif_pos hname.ne_nil, Jsp.exists_runs hname⟩
  · intro e found expected hfailure hcause
    refine ⟨by rw [hcause]; rfl, ?_⟩
    obtain ⟨q, q', hafter, hstops, hq, hoffset, hnames⟩ :=
      exists_state (List.append_nil (ofSource source settings file elEnabled).tokens).symm
    obtain rfl : q' = q := Page.cuts_nil_iff.1 hafter
    rw [hfailure] at hstops
    obtain ⟨⟨tag, tags, hopen, rfl⟩, hne, ending, rest, hending, hrest⟩ :=
      hstops.misplaced hq hcause
    rw [hopen] at hnames
    obtain ⟨start, below, hstart, -, hunclosed⟩ := List.forall₂_cons_left_iff.1 hnames
    refine ⟨hne, ⟨start, below, hunclosed, hstart⟩, ending, rest, hending, ?_⟩
    rw [← hoffset, ← hq.rest_eq, hrest]
  · intro before after start below name ending rest htokens hunclosed hopens hends hdrop
    obtain ⟨q, q', hafter, hstops, hq, hoffset, hnames⟩ := exists_state htokens
    rw [hunclosed] at hnames
    obtain ⟨tag, tags, hstart, -, hopen⟩ := List.forall₂_cons_right_iff.1 hnames
    obtain rfl : name = tag.name := hopens.name_unique hstart
    rw [← hoffset] at hdrop ⊢
    exact hafter.endTag_first hstops hq hopen hends (hq.rest_eq.trans hdrop)

/-- A name that begins with the name of the open tag. -/
theorem end_tags_agree_of_longer_name :
    let name := "a:b".toList
    let start : Token := ⟨.startTag, "<a:b>".toList, 0⟩
    let text : Token := ⟨.templateText, ['x'], 5⟩
    let longer := ofSource "<a:b>x</a:bc>".toList {} none none
    let same := ofSource "<a:b>x</a:b >".toList {} none none
    (∃ closer, closer? name (rule .space) = .ok closer ∧
      ∀ (source : Text) (position : Nat), ∃ closed? a,
        closer.run Jsp.rules { store := {} } (.ofPosition source position) = .ok (closed?, a)) ∧
      longer.tokens = [start, text] ∧ name ≠ "a:bc".toList ∧
      ∃ after, same.tokens = [start, text] ++ ⟨.endTag, "</a:b >".toList, 6⟩ :: after := by
  intro name start text longer same
  obtain ⟨hread, hruns⟩ := end_tags_agree
  have hname : (rule .qName).run Jsp.rules { store := {} } (.ofPosition name 0) =
      .ok (some (.ofPosition name name.length), { store := {} }) := rfl
  obtain ⟨closer, hcloser, hagrees⟩ := hread name _ _ hname
  obtain ⟨herror, -⟩ := hruns "<a:b>x</a:bc>".toList {} none none
  obtain ⟨-, htaken⟩ := hruns "<a:b>x</a:b >".toList {} none none
  have hlonger : longer = ⟨[start, text], some (.error (.located
      (.endTag "a:bc".toList (.misplaced name)) "<a:b>x</a:bc>".toList 6 none
        ({} : Settings).excerptLength))⟩ := by
    decide +kernel
  have hsame : same.tokens = [start, text] ++ same.tokens.drop 2 := by
    decide +kernel
  obtain ⟨-, hne, -⟩ := herror _ _ _ (congrArg TokenStream.failure hlonger) rfl
  have hopens : start.Opens name :=
    ⟨rfl, "<a:b".toList, ⟨⟨['a'], ['b'], ⟨'a', [], rfl, by decide, nofun⟩,
      ⟨'b', [], rfl, by decide, nofun⟩, rfl⟩, [], rfl, nofun⟩, rfl⟩
  obtain ⟨after, hafter⟩ := htaken [start, text] (same.tokens.drop 2) start [] name
    "</a:b >".toList [] hsame rfl hopens ⟨[' '], List.forall_mem_singleton.2 rfl, rfl⟩ rfl
  rw [hafter] at hsame
  refine ⟨⟨closer, hcloser, fun source position => ?_⟩, congrArg TokenStream.tokens hlonger, hne,
    after, hsame⟩
  obtain ⟨closed?, -, -, a, -, -, hclosed, -⟩ := hagrees source position { store := {} }
  exact ⟨closed?, a, hclosed⟩

end TokenStream

end Stencil
