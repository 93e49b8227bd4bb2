import Stencil.Proofs.Jsp.Delimiters
import Stencil.Proofs.Jsp.Termination
import Stencil.Proofs.Token.Nesting

/-!
# What cutting off a token leads to

Cutting off a token tries one thing after the other, and every try comes to an end
(`Page.attempt_tried`). `Page.Sees` lists the ways this can go, one rule for each exit: for each
sort of token what has to stand at the place, and for each failure what was tried and what is
blamed. Cutting always leaves through one of these exits (`Page.sight_sees`), so that nothing else
has to be known of it: no rule is ever missing, every matcher can be made, and at a place where no
construct starts there is template text.
-/

set_option autoImplicit false

namespace Stencil

open Jsp (Construct Production Rule delimits endTagStop? templateRun)

/-- A text leads from a place of a source to the place as many characters on. -/
theorem Cursor.Within.of_leads {source t : Text} {c d : Cursor} (hc : c.Within source)
    (h : c.Leads t d) :
    d.Within source ∧ Cursor.ofPosition source (c.offset + t.length) = d := by
  have hd : d.Within source := by
    refine ⟨h.past_eq hc.past_eq, ?_⟩
    rw [h.front_eq, List.reverse_append, List.reverse_reverse, List.append_assoc, ← h.rest_eq,
      hc.split]
  exact ⟨hd, h.offset_eq ▸ hd.ofPosition_eq⟩

/-- What stands at a position leads to the position behind it. -/
theorem Cursor.leads_ofPosition_iff {source t : Text} {position : Nat} {d : Cursor}
    (hle : position ≤ source.length) :
    (ofPosition source position).Leads t d ↔
      t <+: source.drop position ∧ d = ofPosition source (position + t.length) := by
  have hwithin := within_ofPosition hle
  have hoffset : (ofPosition source position).offset = position := offset_ofPosition hle
  constructor
  · intro h
    obtain ⟨-, hd⟩ := hwithin.of_leads h
    rw [hoffset] at hd
    exact ⟨⟨d.rest, h.rest_eq.symm⟩, hd.symm⟩
  · rintro ⟨⟨rest, hrest⟩, rfl⟩
    have h : (ofPosition source position).Leads t
        ⟨t.reverse ++ (ofPosition source position).front, rest, 0⟩ :=
      ⟨hrest.symm, rfl, fun _ => rfl⟩
    obtain ⟨-, hd⟩ := hwithin.of_leads h
    rw [hoffset] at hd
    rwa [hd]

/-! ## Trying a matcher -/

namespace Page

variable {source : Text} {file : Option String} {n : Int} {m : Production} {a : Attempt}
  {c : Cursor}

/-- What trying a matcher comes to: its verdict, and the state afterwards. -/
inductive Tried (source : Text) (m : Production) (a : Attempt) (c : Cursor) :
    Except LexFailure (Option Cursor × Attempt) → Prop
  | ends {stop : Cursor} {a' : Attempt}
      (hparses : m.Parses Jsp.rules a.store.view c (.ends stop a'.store.view))
      (hclean : a'.fatal = none) (hstop : stop.Within source) :
      Tried source m a c (.ok (some stop, a'))
  | fails {a' : Attempt} (hparses : m.Parses Jsp.rules a.store.view c .fails)
      (hclean : a'.fatal = none) (hstore : a'.store = a.store) : Tried source m a c (.ok (none, a'))
  | faults {f : Fault} {a' : Attempt} (hparses : m.Parses Jsp.rules a.store.view c (.faults f))
      (hfatal : a'.fatal = some f) (hcause : f.cause.IsReported) :
      Tried source m a c (.ok (none, a'))

/-- Every matcher that is tried at a place of the page comes to an end. -/
theorem attempt_tried (file : Option String) (n : Int) (hregular : m.Regular)
    (hm : m.levels Jsp.rank true ≤ Jsp.depthOfRules) (hreports : m.ReportsOnly Cause.IsReported)
    (hc : c.Within source) (ha : a.fatal = none) :
    Tried source m a c ((standard source file n).attempt m a c) := by
  have hlength : c.rest.length ≤ source.length := by
    rw [hc.length_rest]
    omega
  obtain ⟨verdict, hparse⟩ := Jsp.exists_verdict a.store.view hm hc.past_eq hlength
  have hparses : m.Parses Jsp.rules a.store.view c verdict := ⟨_, hparse⟩
  have hagrees := Matcher.agrees_step Jsp.regular_rules hregular ha
    (m.bound Jsp.rules source.length) c
  have hfaults : a.FaultsFrom source Cause.IsReported c.offset :=
    Attempt.faultsFrom_of_clean ha c.offset
  have hforward := Matcher.forward_step Jsp.rules_reportsOnly_isReported
    (m.bound Jsp.rules source.length) hreports hc hfaults
  have htransactional := Matcher.transactional_step Jsp.regular_rules.confined
    (m.bound Jsp.rules source.length) (hregular.confined False) (a := a) (c := c)
  rw [hparse] at hagrees
  have hsource : (standard source file n).length = source.length := rfl
  unfold attempt
  rw [hsource]
  generalize m.step Jsp.rules (m.bound Jsp.rules source.length) a c = outcome
    at hagrees hforward htransactional
  cases hagrees with
  | ends stop hplace hclean hview =>
      cases hforward with
      | stops hd hle hstay hclean' => exact .ends (hview ▸ hparses) hclean hd
  | fails hclean => exact .fails hparses hclean ((htransactional rfl).2 rfl)
  | faults hfatal =>
      cases hforward with
      | fails hfaults => exact .faults hparses hfatal (hfaults _ hfatal).2.2

/-- Trying a rule of the page grammar comes to an end. -/
theorem attempt_rule_tried (file : Option String) (n : Int) (r : Rule) (hc : c.Within source)
    (ha : a.fatal = none) :
    Tried source (Jsp.rule r) a c ((standard source file n).attempt (Jsp.rule r) a c) :=
  attempt_tried file n (Jsp.regular_rule r) (Jsp.levels_rule r).2
    (Jsp.rules_reportsOnly_isReported r _ rfl) hc ha

/-- What leaves the map alone is found where it ends, and the state stays as it is seen. -/
theorem Tried.of_ofStop {result : Except LexFailure (Option Cursor × Attempt)}
    (h : Tried source m a c result) (stop? : Option Cursor)
    (hverdict : m.Parses Jsp.rules a.store.view c (.ofStop a.store.view stop?)) :
    ∃ a', result = .ok (stop?, a') ∧ a'.fatal = none ∧ a'.store.view = a.store.view ∧
      ∀ stop, stop? = some stop → stop.Within source := by
  cases h with
  | @ends stop a' hparses hclean hstop =>
      obtain ⟨rfl, hview⟩ := Matcher.ofStop_eq_ends_iff.1 (hparses.unique hverdict)
      refine ⟨a', rfl, hclean, hview, ?_⟩
      rintro _ ⟨⟩
      exact hstop
  | @fails a' hparses hclean hstore =>
      have heq := hparses.unique hverdict
      cases stop? with
      | none => exact ⟨a', rfl, hclean, by rw [hstore], nofun⟩
      | some stop => cases heq
  | faults hparses hfatal hcause =>
      have heq := hparses.unique hverdict
      cases stop? <;> cases heq

/-- A delimiter is found where it stands, and the state stays as it is seen. -/
theorem attempt_delimiter (file : Option String) (n : Int) {r : Rule} (hr : r ∈ Jsp.delimiters)
    (hc : c.Within source) (ha : a.fatal = none) :
    ∃ found a', (standard source file n).attempt (Jsp.rule r) a c = .ok (found, a') ∧
      found.isSome = delimits (Jsp.elEnabled.holds a.store.view) c.rest r ∧ a'.fatal = none ∧
      a'.store.view = a.store.view := by
  have htried := attempt_rule_tried file n r hc ha
  have hstands := Jsp.stands_delimiter hr a.store.view c
  unfold Jsp.Stands at hstands
  split at hstands
  · rename_i hdelimits
    obtain ⟨stop, hstop⟩ := hstands
    obtain ⟨a', heq, hclean, hview, -⟩ := htried.of_ofStop (some stop) hstop
    exact ⟨some stop, a', heq, hdelimits.symm, hclean, hview⟩
  · rename_i hdelimits
    obtain ⟨a', heq, hclean, hview, -⟩ := htried.of_ofStop none hstands
    exact ⟨none, a', heq, by simpa using hdelimits, hclean, hview⟩

/-- A fixed text behind a label is found where it stands. -/
theorem attempt_text (file : Option String) (n : Int) {r : Rule} {word : String}
    {nonempty : word.toList ≠ []} (hr : Jsp.production r = Jsp.text word nonempty)
    (hc : c.Within source) (ha : a.fatal = none) :
    ∃ a', (standard source file n).attempt (Jsp.rule r) a c = .ok (c.after? word.toList, a') ∧
      a'.fatal = none ∧ a'.store.view = a.store.view ∧
      ∀ stop, c.after? word.toList = some stop → stop.Within source := by
  refine (attempt_rule_tried file n r hc ha).of_ofStop _ ?_
  rw [Jsp.rule, Matcher.parses_labelled_iff, hr, Jsp.text, Matcher.parses_literal_iff]

/-- An end tag is found where it stands. -/
theorem attempt_closer (file : Option String) (n : Int) {name : Text} (nonempty : name ≠ [])
    (hc : c.Within source) (ha : a.fatal = none) :
    ∃ a', (standard source file n).attempt (Jsp.closer name nonempty (Jsp.rule .space)) a c =
        .ok (endTagStop? name c, a') ∧
      a'.fatal = none ∧ a'.store.view = a.store.view ∧
      ∀ stop, endTagStop? name c = some stop → stop.Within source :=
  (attempt_tried file n (Jsp.regular_closer name nonempty) (Jsp.levels_closer name nonempty)
    ((Jsp.closer_rule name nonempty).1 _) hc ha).of_ofStop _
    (Jsp.readsAs_closer name nonempty a.store.view c)

/-! ## The exits -/

/-- Why something that was expected at an offset is blamed for a failure: it was found to be at
fault, the page ended in front of a terminator, or it does not stand there. -/
inductive Blames (p : Page) (isFault : Fault → Prop) (expected : String) (offset : Nat) :
    LexFailure → Prop
  | reported (f : Fault) (hfault : isFault f) (hcause : f.cause.IsReported) :
      Blames p isFault expected offset (p.fault f.cause f.position)
  | unterminated (terminator : String) :
      Blames p isFault expected offset (p.fault (.unterminated terminator) offset)
  | mismatch : Blames p isFault expected offset (p.fault (.mismatch expected) offset)

/-- A hook of a rule finds something wrong at a place. -/
def Faulty (r : Rule) (view : View) (c : Cursor) (f : Fault) : Prop :=
  (Jsp.rule r).Parses Jsp.rules view c (.faults f)

/-- A rule does not match at a place. -/
def Broken (r : Rule) (view : View) (c : Cursor) : Prop :=
  ∀ stop view', ¬(Jsp.rule r).Parses Jsp.rules view c (.ends stop view')

/-- A rule that fails is broken. -/
theorem broken_of_fails {r : Rule} {view : View}
    (h : (Jsp.rule r).Parses Jsp.rules view c .fails) : Broken r view c :=
  fun _ _ hends => nomatch h.unique hends

/-- A rule that is found to be at fault is broken. -/
theorem Faulty.broken {r : Rule} {view : View} {f : Fault} (h : Faulty r view c f) :
    Broken r view c :=
  fun _ _ hends => nomatch Matcher.Parses.unique h hends

/-- The first construct whose delimiter stands at a text. -/
def construct? (el : Bool) (t : Text) : Option (Construct Rule) :=
  Jsp.constructs.find? fun e => delimits el t e.delimiter

/-- No construct is template text. -/
theorem kind_of_construct? {el : Bool} {t : Text} {e : Jsp.Construct Rule}
    (h : construct? el t = some e) : e.kind ≠ .templateText := by
  have hall : ∀ e ∈ Jsp.constructs, e.kind ≠ .templateText := by decide
  exact hall e (List.mem_of_find?_eq_some h)

/-- No construct starts here, and no end tag of the innermost open tag. -/
structure NoConstruct (el : Bool) (openTags : List OpenTag) (c : Cursor) : Prop where
  construct : construct? el c.rest = none
  closer : ∀ tag ∈ openTags.head?, endTagStop? tag.name c = none

/-- No end tag starts here either, but a start tag does, which is read up to the bracket that ends
it. -/
structure Starts (view : View) (openTags : List OpenTag) (c : Cursor) (name : Text)
    (named : Cursor) : Prop extends NoConstruct (Jsp.elEnabled.holds view) openTags c where
  noEnd : delimits (Jsp.elEnabled.holds view) c.rest .actionEndDelimiter = false
  start : delimits (Jsp.elEnabled.holds view) c.rest .actionStartDelimiter = true
  parses : ∃ view', (Jsp.rule .actionStart).Parses Jsp.rules view c (.ends named view') ∧
    view' Jsp.tagNameKey = some (.text name)

/-- What is remembered behind a start tag: what was read of it, without its name. -/
def Remembers (view : View) (c named : Cursor) (left : View) : Prop :=
  ∃ view', (Jsp.rule .actionStart).Parses Jsp.rules view c (.ends named view') ∧
    left = view'.edit (.delete Jsp.tagNameKey)

/-- The ways in which cutting off a token may go. -/
inductive Sees (p : Page) (view : View) (openTags : List OpenTag) (c : Cursor) :
    Except LexFailure Sighting → Prop
  /-- A construct that is told by its delimiter. -/
  | construct {e : Construct Rule} {s : Sighting}
      (hfirst : construct? (Jsp.elEnabled.holds view) c.rest = some e) (hkind : s.kind = e.kind)
      (hparses : (Jsp.rule e.whole).Parses Jsp.rules view c (.ends s.stop s.attempt.store.view))
      (hopen : s.openTags = openTags) (hclean : s.attempt.fatal = none) :
      Sees p view openTags c (.ok s)
  /-- A construct that starts and does not end. -/
  | brokenConstruct {e : Construct Rule} {failure : LexFailure}
      (hfirst : construct? (Jsp.elEnabled.holds view) c.rest = some e)
      (hbroken : Broken e.whole view c)
      (hblames : p.Blames (Faulty e.whole view c) (describe (Jsp.rule e.whole)) c.offset failure) :
      Sees p view openTags c (.error failure)
  /-- The end tag of the innermost open tag. -/
  | endTag {tag : OpenTag} {s : Sighting}
      (hnone : construct? (Jsp.elEnabled.holds view) c.rest = none)
      (hkind : s.kind = .endTag) (hopen : openTags = tag :: s.openTags)
      (hstop : endTagStop? tag.name c = some s.stop) (hview : s.attempt.store.view = view)
      (hclean : s.attempt.fatal = none) : Sees p view openTags c (.ok s)
  /-- An end tag that does not close the innermost open tag. -/
  | strayEndTag {name : Text} {behind : Cursor}
      (hnone : NoConstruct (Jsp.elEnabled.holds view) openTags c)
      (hend : delimits (Jsp.elEnabled.holds view) c.rest .actionEndDelimiter = true)
      (hname : name.IsQName) (hleads : c.Leads ("</".toList ++ name) behind) :
      Sees p view openTags c (.error (p.fault (misplacedEndTag openTags name) c.offset))
  /-- An end tag that starts and does not end. -/
  | brokenEndTag {failure : LexFailure}
      (hnone : NoConstruct (Jsp.elEnabled.holds view) openTags c)
      (hend : delimits (Jsp.elEnabled.holds view) c.rest .actionEndDelimiter = true)
      (hbroken : Broken .actionEnd view c)
      (hblames : p.Blames (Faulty .actionEnd view c) (describe (Jsp.rule .actionEnd)) c.offset
        failure) :
      Sees p view openTags c (.error failure)
  /-- A start tag with something else in it than attributes. -/
  | brokenStartTag {failure : LexFailure}
      (hnone : NoConstruct (Jsp.elEnabled.holds view) openTags c)
      (hstart : delimits (Jsp.elEnabled.holds view) c.rest .actionStartDelimiter = true)
      (hbroken : Broken .actionStart view c)
      (hblames : p.Blames (Faulty .actionStart view c) (describe (Jsp.rule .actionStart)) c.offset
        failure) :
      Sees p view openTags c (.error failure)
  /-- A start tag that nothing ends. -/
  | unendedStartTag {name : Text} {named : Cursor} {failure : LexFailure}
      (hstarts : Starts view openTags c name named)
      (hempty : named.after? "/>".toList = none) (hend : named.after? ">".toList = none)
      (hblames : p.Blames (fun _ => False) "\"/>\" | \">\"" named.offset failure) :
      Sees p view openTags c (.error failure)
  /-- A start tag that ends with a slash. -/
  | emptyTag {name : Text} {named : Cursor} {s : Sighting}
      (hstarts : Starts view openTags c name named)
      (hempty : named.after? "/>".toList = some s.stop) (hkind : s.kind = .emptyTag)
      (hopen : s.openTags = openTags) (hleft : Remembers view c named s.attempt.store.view)
      (hclean : s.attempt.fatal = none) : Sees p view openTags c (.ok s)
  /-- A start tag with its end tag behind it. -/
  | closedTag {name : Text} {named body : Cursor} {s : Sighting}
      (hstarts : Starts view openTags c name named)
      (hempty : named.after? "/>".toList = none) (hend : named.after? ">".toList = some body)
      (hstop : endTagStop? name body = some s.stop) (hkind : s.kind = .emptyTag)
      (hopen : s.openTags = openTags) (hleft : Remembers view c named s.attempt.store.view)
      (hclean : s.attempt.fatal = none) : Sees p view openTags c (.ok s)
  /-- A start tag without its end tag behind it. -/
  | startTag {name : Text} {named : Cursor} {s : Sighting} (nonempty : name ≠ [])
      (hstarts : Starts view openTags c name named)
      (hempty : named.after? "/>".toList = none) (hend : named.after? ">".toList = some s.stop)
      (hnot : endTagStop? name s.stop = none) (hkind : s.kind = .startTag)
      (hopen : s.openTags =
        ⟨name, Jsp.closer name nonempty (Jsp.rule .space), c.offset⟩ :: openTags)
      (hleft : Remembers view c named s.attempt.store.view) (hclean : s.attempt.fatal = none) :
      Sees p view openTags c (.ok s)
  /-- Template text. -/
  | templateText {s : Sighting} (hnone : NoConstruct (Jsp.elEnabled.holds view) openTags c)
      (hnot : Jsp.startsConstruct (Jsp.elEnabled.holds view) false c.rest = false)
      (hkind : s.kind = .templateText)
      (hleads : c.Leads (templateRun (Jsp.elEnabled.holds view) false c.rest) s.stop)
      (hopen : s.openTags = openTags) (hview : s.attempt.store.view = view)
      (hclean : s.attempt.fatal = none) :
      Sees p view openTags c (.ok s)

/-! ## Cutting takes one of the exits -/

variable {openTags : List OpenTag} {view : View} {missed : Prop}

/-- A failure blames what a hook reported, or what was expected. -/
theorem failure_blames {p : Page} {a : Attempt} {isFault : Fault → Prop}
    (h : ∀ f, a.fatal = some f → isFault f ∧ f.cause.IsReported) (expected : String)
    (offset : Nat) : p.Blames isFault expected offset (p.failure a expected offset) := by
  unfold failure
  split
  · rename_i f hf
    exact .reported f (h f hf).1 (h f hf).2
  · exact .unterminated _
  · exact .mismatch

/-- Without a report a failure blames what was expected. -/
theorem failure_blames_of_clean {p : Page} {a : Attempt} {isFault : Fault → Prop}
    (h : a.fatal = none) (expected : String) (offset : Nat) :
    p.Blames isFault expected offset (p.failure a expected offset) :=
  failure_blames (by simp [h]) expected offset

/-- With a report a failure blames what was reported. -/
theorem failure_blames_of_fault {p : Page} {a : Attempt} {f : Fault} {isFault : Fault → Prop}
    (h : a.fatal = some f) (hfault : isFault f) (hcause : f.cause.IsReported) (expected : String)
    (offset : Nat) : p.Blames isFault expected offset (p.failure a expected offset) := by
  refine failure_blames (fun f' hf' => ?_) expected offset
  rw [h] at hf'
  cases hf'
  exact ⟨hfault, hcause⟩

/-- What one of several tries leads to: an exit, or what it means that nothing of its sort stands at
the place, where the state stays as it is seen. -/
def TrySees (p : Page) (view : View) (openTags : List OpenTag) (c : Cursor) (missed : Prop) :
    Except LexFailure Try → Prop
  | .error failure => p.Sees view openTags c (.error failure)
  | .ok (.hit s) => p.Sees view openTags c (.ok s)
  | .ok (.miss a) => missed ∧ a.fatal = none ∧ a.store.view = view

/-- Trying constructs finds the first whose delimiter stands at the place. -/
theorem construct_finds (file : Option String) (n : Int) (openTags : List OpenTag)
    (hc : c.Within source) (ha : a.fatal = none) (entries : List (Construct Rule))
    (hentries : ∀ e ∈ entries, e.delimiter ∈ Jsp.delimiters) :
    let p := standard source file n
    let first? := entries.find? fun e =>
      delimits (Jsp.elEnabled.holds a.store.view) c.rest e.delimiter
    match p.construct openTags c
      (entries.map fun e => ⟨e.kind, Jsp.rule e.delimiter, Jsp.rule e.whole⟩) a with
    | .ok (.miss a') => first? = none ∧ a'.fatal = none ∧ a'.store.view = a.store.view
    | .ok (.hit s) => ∃ e, first? = some e ∧ s.kind = e.kind ∧
        (Jsp.rule e.whole).Parses Jsp.rules a.store.view c
          (.ends s.stop s.attempt.store.view) ∧
        s.openTags = openTags ∧ s.attempt.fatal = none
    | .error failure => ∃ e, first? = some e ∧ Broken e.whole a.store.view c ∧
        p.Blames (Faulty e.whole a.store.view c) (describe (Jsp.rule e.whole)) c.offset
          failure := by
  induction entries generalizing a with
  | nil => exact ⟨rfl, ha, rfl⟩
  | cons e entries ih =>
      obtain ⟨hdelimiter, hothers⟩ := List.forall_mem_cons.1 hentries
      obtain ⟨started, a₁, hattempt, hstands, hclean, hview⟩ :=
        attempt_delimiter file n hdelimiter hc ha
      have ih := ih (a := a₁) hclean hothers
      simp only [List.map_cons, construct, hattempt, ok_bind, List.find?_cons, ← hstands]
      cases started with
      | none =>
          rw [hview] at ih
          rw [if_neg (Attempt.not_isFatal hclean)]
          exact ih
      | some d =>
          have hwhole := attempt_rule_tried file n e.whole hc hclean
          rw [← hview]
          generalize (standard source file n).attempt (Jsp.rule e.whole) a₁ c = result at hwhole
          cases hwhole with
          | ends hparses hclean' hstop => exact ⟨e, rfl, rfl, hparses, rfl, hclean'⟩
          | fails hparses hclean' hstore =>
              exact ⟨e, rfl, broken_of_fails hparses, failure_blames_of_clean hclean' _ _⟩
          | faults hparses hfatal hcause =>
              exact ⟨e, rfl, Faulty.broken hparses,
                failure_blames_of_fault hfatal hparses hcause _ _⟩

/-- Trying the constructs finds the first whose delimiter stands, or that none does. -/
theorem construct_sees (file : Option String) (n : Int) (openTags : List OpenTag)
    (hc : c.Within source) (ha : a.fatal = none) :
    (standard source file n).TrySees a.store.view openTags c
      (construct? (Jsp.elEnabled.holds a.store.view) c.rest = none)
      ((standard source file n).construct openTags c (standard source file n).constructs a) := by
  have hfinds := construct_finds file n openTags hc ha Jsp.constructs (by decide)
  change match (standard source file n).construct openTags c (standard source file n).constructs a
    with
    | .ok (.miss a') => _
    | .ok (.hit s) => _
    | .error failure => _ at hfinds
  generalize (standard source file n).construct openTags c (standard source file n).constructs a =
    result at hfinds ⊢
  rcases result with failure | ⟨a'⟩ | s
  · obtain ⟨e, hfirst, hbroken, hblames⟩ := hfinds
    exact .brokenConstruct hfirst hbroken hblames
  · exact hfinds
  · obtain ⟨e, hfirst, hkind, hparses, hopen, hclean⟩ := hfinds
    exact .construct hfirst hkind hparses hopen hclean

/-- Where the rule for end tags matches, the rule for names matches behind the slash. -/
theorem exists_name_of_actionEnd (hc : c.Within source) {stop : Cursor} {view' : View}
    (h : (Jsp.rule .actionEnd).Parses Jsp.rules view c (.ends stop view')) (view'' : View) :
    let start := Cursor.ofPosition source (c.offset + 2)
    start.Within source ∧ c.Leads "</".toList start ∧
      ∃ name behind, name.IsQName ∧ start.Leads name behind ∧
        (Jsp.rule .qName).Parses Jsp.rules view'' start (.ends behind view'') := by
  rw [Jsp.rule, Matcher.parses_labelled_iff, Jsp.production] at h
  obtain ⟨c₁, view₁, hdelimiter, h⟩ := h.of_sequence_cons
  obtain ⟨behind, view₂, hqName, -⟩ := h.of_sequence_cons
  rw [Jsp.parses_ref_iff, Jsp.production, Matcher.parses_pattern_iff,
    Matcher.ofStop_eq_ends_iff] at hdelimiter
  have hleads := Cursor.leads_textBefore (by decide) hdelimiter.1
  obtain ⟨hwithin, hposition⟩ := hc.of_leads hleads
  have hposition : Cursor.ofPosition source (c.offset + 2) = c₁ := hposition
  intro start
  obtain rfl : start = c₁ := hposition
  obtain ⟨-, name, hname, hleads'⟩ := Jsp.leads_qName hqName
  obtain ⟨hstop, -⟩ := Jsp.readsAs_qName.parses_ends_iff.1 hqName
  refine ⟨hwithin, hleads, name, behind, hname, hleads', ?_⟩
  rw [Jsp.rule, Matcher.parses_labelled_iff, ← Jsp.parses_ref_iff]
  exact Jsp.readsAs_qName.parses_ends_iff.2 ⟨hstop, rfl⟩

/-- Trying a stray end tag finds that one stands, which is at fault, or that none does. -/
theorem strayEndTag_sees (file : Option String) (n : Int) (hc : c.Within source)
    (ha : a.fatal = none)
    (hnone : NoConstruct (Jsp.elEnabled.holds a.store.view) openTags c) :
    (standard source file n).TrySees a.store.view openTags c
      (delimits (Jsp.elEnabled.holds a.store.view) c.rest .actionEndDelimiter = false)
      ((standard source file n).strayEndTag openTags c a) := by
  obtain ⟨started, a₁, hattempt, hstands, hclean, hview⟩ :=
    attempt_delimiter (r := .actionEndDelimiter) file n (by decide) hc ha
  simp only [strayEndTag, lookUp_standard, ok_bind, hattempt]
  cases started with
  | none => exact ⟨hstands.symm, hclean, hview⟩
  | some d =>
      have hwhole := attempt_rule_tried file n .actionEnd hc hclean
      rw [← hview] at hstands hnone ⊢
      dsimp only
      generalize (standard source file n).attempt (Jsp.rule .actionEnd) a₁ c = result at hwhole ⊢
      cases hwhole with
      | fails hparses hclean' hstore =>
          exact .brokenEndTag hnone hstands.symm (broken_of_fails hparses)
            (failure_blames_of_clean hclean' _ _)
      | faults hparses hfatal hcause =>
          exact .brokenEndTag hnone hstands.symm (Faulty.broken hparses)
            (failure_blames_of_fault hfatal hparses hcause _ _)
      | @ends stop a₂ hparses hclean' hstop =>
          obtain ⟨hwithin, hslash, name, behind, hname, hleads, hparsesName⟩ :=
            exists_name_of_actionEnd hc hparses a₂.store.view
          obtain ⟨a₃, hnamed, -⟩ := (attempt_rule_tried file n .qName hwithin hclean').of_ofStop
            (some behind) hparsesName
          have hsource : (standard source file n).source = source := rfl
          simp only [ok_bind, hsource, hnamed]
          rw [hleads.upTo_eq hwithin.past_eq]
          exact .strayEndTag hnone hstands.symm hname (hslash.trans hleads)

/-- Trying the end tag of the innermost open tag finds it, or that neither it nor another one
stands. -/
theorem endTag_sees (file : Option String) (n : Int) (hc : c.Within source) (ha : a.fatal = none)
    (hstandard : ∀ tag ∈ openTags, tag.IsStandard)
    (hnone : construct? (Jsp.elEnabled.holds a.store.view) c.rest = none) :
    (standard source file n).TrySees a.store.view openTags c
      (NoConstruct (Jsp.elEnabled.holds a.store.view) openTags c ∧
        delimits (Jsp.elEnabled.holds a.store.view) c.rest .actionEndDelimiter = false)
      ((standard source file n).endTag openTags c a) := by
  -- what stands here if it is not the end tag of the innermost open tag
  have hstray {a₁ : Attempt} (hclean : a₁.fatal = none) (hview : a₁.store.view = a.store.view)
      (hclosers : ∀ tag ∈ openTags.head?, endTagStop? tag.name c = none) :
      (standard source file n).TrySees a.store.view openTags c
        (NoConstruct (Jsp.elEnabled.holds a.store.view) openTags c ∧
          delimits (Jsp.elEnabled.holds a.store.view) c.rest .actionEndDelimiter = false)
        ((standard source file n).strayEndTag openTags c a₁) := by
    rw [← hview] at hnone ⊢
    have hsees := strayEndTag_sees file n hc hclean ⟨hnone, hclosers⟩
    generalize (standard source file n).strayEndTag openTags c a₁ = result at hsees ⊢
    rcases result with failure | ⟨a'⟩ | s
    · exact hsees
    · exact ⟨⟨⟨hnone, hclosers⟩, hsees.1⟩, hsees.2⟩
    · exact hsees
  cases openTags with
  | nil => exact hstray ha rfl (by simp)
  | cons tag below =>
      obtain ⟨nonempty, hcloser⟩ := hstandard tag (List.mem_cons_self ..)
      obtain ⟨a₁, hattempt, hclean, hview, -⟩ := attempt_closer file n nonempty hc ha
      simp only [endTag, hcloser, hattempt, ok_bind]
      cases hstop : endTagStop? tag.name c with
      | none => exact hstray hclean hview (by simpa using hstop)
      | some stop => exact .endTag hnone rfl rfl hstop hview hclean

/-- The end tag of a name is looked for with the rule for white space in it. -/
theorem closer_standard (source : Text) (file : Option String) (n : Int) {name : Text}
    (nonempty : name ≠ []) :
    (standard source file n).closer (some (.text name)) =
      .ok (name, Jsp.closer name nonempty (Jsp.rule .space)) := by
  unfold closer
  dsimp only
  rw [dif_pos nonempty, lookUp_standard, ok_bind]
  rfl

/-- Trying a start tag finds one, whole or broken, or that none stands. -/
theorem startTag_sees (file : Option String) (n : Int) (hc : c.Within source) (ha : a.fatal = none)
    (hnone : NoConstruct (Jsp.elEnabled.holds a.store.view) openTags c)
    (hnoEnd : delimits (Jsp.elEnabled.holds a.store.view) c.rest .actionEndDelimiter = false) :
    (standard source file n).TrySees a.store.view openTags c
      (delimits (Jsp.elEnabled.holds a.store.view) c.rest .actionStartDelimiter = false)
      ((standard source file n).startTag openTags c a) := by
  obtain ⟨started, a₁, hattempt, hstands, hclean₁, hview₁⟩ :=
    attempt_delimiter (r := .actionStartDelimiter) file n (by decide) hc ha
  simp only [startTag, lookUp_standard, ok_bind, hattempt]
  cases started with
  | none => exact ⟨hstands.symm, hclean₁, hview₁⟩
  | some d =>
      have hstart := attempt_rule_tried file n .actionStart hc hclean₁
      rw [← hview₁] at hstands hnone hnoEnd ⊢
      dsimp only
      generalize (standard source file n).attempt (Jsp.rule .actionStart) a₁ c = result
        at hstart ⊢
      cases hstart with
      | fails hparses hclean₂ hstore =>
          exact .brokenStartTag hnone hstands.symm (broken_of_fails hparses)
            (failure_blames_of_clean hclean₂ _ _)
      | faults hparses hfatal hcause =>
          exact .brokenStartTag hnone hstands.symm (Faulty.broken hparses)
            (failure_blames_of_fault hfatal hparses hcause _ _)
      | @ends named a₂ hparses hclean₂ hnamed =>
          obtain ⟨name, opening, hname, hleads, hkey⟩ :=
            Jsp.leads_actionStart hc.past_eq hparses
          have hstarts : Starts a₁.store.view openTags c name named :=
            ⟨hnone, hnoEnd, hstands.symm, _, hparses, hkey⟩
          have nonempty : name ≠ [] := by
            obtain ⟨⟨lead, behind, -, -, rfl⟩, -⟩ := hname
            simp
          have hcloser := closer_standard source file n nonempty
          -- forgetting the name of the tag reports nothing
          obtain ⟨a₄, hempty, hclean₄, hview₄, -⟩ := attempt_text (r := .actionEmptyEnd)
            (a := { a₂ with store := a₂.store.delete Jsp.tagNameKey }) file n rfl hnamed hclean₂
          have hleft₄ : Remembers a₁.store.view c named a₄.store.view :=
            ⟨_, hparses, hview₄.trans (funext fun key => Store.view_delete ..)⟩
          simp only [ok_bind, hempty, hkey, hcloser]
          cases hslash : named.after? "/>".toList with
          | some stop => exact .emptyTag hstarts hslash rfl rfl hleft₄ hclean₄
          | none =>
              obtain ⟨a₅, hend, hclean₅, hview₅, hbody⟩ := attempt_text (r := .actionTagEnd)
                (a := a₄) file n rfl hnamed hclean₄
              simp only [ok_bind, hend]
              cases hbracket : named.after? ">".toList with
              | none =>
                  exact .unendedStartTag hstarts hslash hbracket
                    (failure_blames_of_clean hclean₅ _ _)
              | some body =>
                  obtain ⟨a₆, hclosed, hclean₆, hview₆, -⟩ :=
                    attempt_closer file n nonempty (hbody _ hbracket) hclean₅
                  have hleft₆ : Remembers a₁.store.view c named a₆.store.view := by
                    rw [hview₆, hview₅]
                    exact hleft₄
                  simp only [ok_bind, hclosed]
                  cases hstop : endTagStop? name body with
                  | none =>
                      exact .startTag nonempty hstarts hslash hbracket hstop rfl rfl hleft₆ hclean₆
                  | some stop =>
                      exact .closedTag hstarts hslash hbracket hstop rfl rfl hleft₆ hclean₆

/-- Where no delimiter stands no construct starts. -/
theorem startsConstruct_eq_false {el : Bool} {t : Text} (hconstruct : construct? el t = none)
    (hend : delimits el t .actionEndDelimiter = false)
    (hstart : delimits el t .actionStartDelimiter = false) :
    Jsp.startsConstruct el false t = false := by
  rw [Jsp.startsConstruct_eq_any, ← Bool.not_eq_true, List.any_eq_true]
  rintro ⟨r, hr, hdelimits⟩
  rw [Jsp.delimiters, List.mem_append, List.mem_map] at hr
  rcases hr with ⟨e, he, rfl⟩ | hr
  · have hnot := List.find?_eq_none.1 hconstruct e he
    exact hnot hdelimits
  · simp only [List.mem_cons, List.not_mem_nil, or_false] at hr
    rcases hr with rfl | rfl
    · rw [hend] at hdelimits
      cases hdelimits
    · rw [hstart] at hdelimits
      cases hdelimits

/-- Where nothing else stands template text is cut off. -/
theorem templateText_sees (file : Option String) (n : Int) (hc : c.Within source)
    (ha : a.fatal = none) (hrest : c.rest ≠ [])
    (hnone : NoConstruct (Jsp.elEnabled.holds a.store.view) openTags c)
    (hend : delimits (Jsp.elEnabled.holds a.store.view) c.rest .actionEndDelimiter = false)
    (hstart : delimits (Jsp.elEnabled.holds a.store.view) c.rest .actionStartDelimiter = false) :
    (standard source file n).Sees a.store.view openTags c
      ((standard source file n).templateText openTags c a) := by
  have hnot := startsConstruct_eq_false hnone.construct hend hstart
  have hrun : templateRun (Jsp.elEnabled.holds a.store.view) false c.rest ≠ [] := by
    obtain ⟨x, t, hcons⟩ := List.exists_cons_of_ne_nil hrest
    rw [hcons] at hnot ⊢
    rw [Jsp.templateRun_cons hnot]
    exact List.cons_ne_nil _ _
  rcases Jsp.parses_templateText a.store.view hc.past_eq with
    ⟨hempty, -⟩ | ⟨-, stop, hleads, hparses⟩
  · exact absurd hempty hrun
  · obtain ⟨a', hattempt, hclean, hview, -⟩ := (attempt_rule_tried file n .templateText hc
      ha).of_ofStop (some stop) hparses
    simp only [templateText, lookUp_standard, ok_bind, hattempt]
    exact .templateText hnone hnot rfl hleads rfl hview hclean

/-- Cutting off a token takes one of the exits. -/
theorem sight_sees (file : Option String) (n : Int) {q : Progress} (hc : q.place.Within source)
    (hfatal : q.fatal = none) (hrest : q.rest ≠ [])
    (hstandard : ∀ tag ∈ q.openTags, tag.IsStandard) :
    (standard source file n).Sees q.store.view q.openTags q.place
      ((standard source file n).sight q) := by
  have hconstruct := construct_sees file n q.openTags hc
    (a := { store := q.store, fatal := q.fatal }) hfatal
  unfold sight
  dsimp only at hconstruct ⊢
  generalize (standard source file n).construct q.openTags q.place
    (standard source file n).constructs { store := q.store, fatal := q.fatal } = first
    at hconstruct ⊢
  rcases first with failure | ⟨a₁⟩ | s
  · exact hconstruct
  · obtain ⟨hnone, hclean₁, hview₁⟩ := hconstruct
    simp only [ok_bind]
    rw [← hview₁] at hnone ⊢
    have hend := endTag_sees file n hc hclean₁ hstandard hnone
    generalize (standard source file n).endTag q.openTags q.place a₁ = second
      at hend ⊢
    rcases second with failure | ⟨a₂⟩ | s
    · exact hend
    · obtain ⟨⟨hnone, hnoEnd⟩, hclean₂, hview₂⟩ := hend
      simp only [ok_bind]
      rw [← hview₂] at hnone hnoEnd ⊢
      have hstart := startTag_sees file n hc hclean₂ hnone hnoEnd
      generalize (standard source file n).startTag q.openTags q.place a₂ = third
        at hstart ⊢
      rcases third with failure | ⟨a₃⟩ | s
      · exact hstart
      · obtain ⟨hnoStart, hclean₃, hview₃⟩ := hstart
        simp only [ok_bind]
        rw [← hview₃] at hnone hnoEnd hnoStart ⊢
        exact templateText_sees file n hc hclean₃ hrest hnone hnoEnd hnoStart
      · exact hstart
    · exact hend
  · exact hconstruct

end Page

end Stencil
