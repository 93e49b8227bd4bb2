import Stencil.Proofs.Token.Dispatch

/-!
# Runs of cutting

Cutting goes from state to state, one token at a time (`Page.Cuts`). In every state that is reached
the place is a place of the page, no cause was reported, and the open tags wait for the end tags of
their own names (`Progress.Steady`), so that each step is one of the ways of `Page.Sees`. A run gets
on until the page is at its end or a step fails (`TokenStream.exists_cuts`): each token takes a
character, and there are more steps than characters. So a page is covered by its tokens up to its
end or up to an error (`TokenStream.tokens_cover`).
-/

set_option autoImplicit false

namespace Stencil

/-- Whether the expression language is on. -/
def Progress.elEnabled (q : Progress) : Bool := Jsp.elEnabled.holds q.store.view

/-- A state that cutting may reach. -/
structure Progress.Steady (source : Text) (q : Progress) : Prop where
  within : q.place.Within source
  clean : q.fatal = none
  standard : ∀ tag ∈ q.openTags, tag.IsStandard

/-- Cutting does not go beyond the source. -/
theorem Progress.Steady.offset_le {source : Text} {q : Progress} (hq : q.Steady source) :
    q.offset ≤ source.length :=
  hq.within.offset_le

/-- What is left is the source behind the offset. -/
theorem Progress.Steady.rest_eq {source : Text} {q : Progress} (hq : q.Steady source) :
    q.rest = source.drop q.offset :=
  hq.within.rest_eq

namespace Page

/-- Cutting off some tokens leads from one state to another. -/
inductive Cuts (p : Page) : Progress → List Token → Progress → Prop
  | nil (q : Progress) : Cuts p q [] q
  | cons {q q' q'' : Progress} {t : Token} {ts : List Token} (hrest : q.rest ≠ [])
      (hnext : p.next q = .ok (t, q')) (h : Cuts p q' ts q'') : Cuts p q (t :: ts) q''

/-- Cutting off nothing leads nowhere else. -/
theorem cuts_nil_iff {p : Page} {q q' : Progress} : p.Cuts q [] q' ↔ q' = q := by
  constructor
  · intro h
    cases h
    rfl
  · rintro rfl
    exact .nil _

/-- Cutting off two rows of tokens is cutting off one behind the other. -/
theorem Cuts.of_append {p : Page} {q q' : Progress} {before after : List Token}
    (h : p.Cuts q (before ++ after) q') : ∃ q₁, p.Cuts q before q₁ ∧ p.Cuts q₁ after q' := by
  induction before generalizing q with
  | nil => exact ⟨q, .nil q, h⟩
  | cons t before ih =>
      cases h with
      | cons hrest hnext h =>
          obtain ⟨q₁, hbefore, hafter⟩ := ih h
          exact ⟨q₁, .cons hrest hnext hbefore, hafter⟩

variable {source : Text} {file : Option String} {n : Int} {q q' : Progress} {t : Token}

/-- What stands at the place of a state is seen in one of the ways. -/
theorem sight_sees_of_steady (file : Option String) (n : Int) (hq : q.Steady source)
    (hrest : q.rest ≠ []) :
    (standard source file n).Sees q.store.view q.openTags q.place
      ((standard source file n).sight q) :=
  sight_sees file n hq.within hq.clean hrest hq.standard

/-- A token that stands at a place is cut off whole. -/
structure CutsOff (source : Text) (q : Progress) (s : Sighting) (t : Token) (q' : Progress) :
    Prop where
  kind : t.kind = s.kind
  offset : t.offset = q.offset
  leads : q.place.Leads t.value s.stop
  nonempty : t.value ≠ []
  place : q'.place = s.stop
  store : q'.store = s.attempt.store
  openTags : q'.openTags = s.openTags
  steady : q'.Steady source

/-- A token takes a character. -/
theorem CutsOff.length_rest_lt {s : Sighting} (h : CutsOff source q s t q') :
    q'.rest.length < q.rest.length := by
  have hsplit : q.rest = t.value ++ q'.place.rest := by
    rw [h.place]
    exact h.leads.rest_eq
  have hlength := congrArg List.length hsplit
  have hpos := List.length_pos_iff.2 h.nonempty
  rw [List.length_append] at hlength
  show q'.place.rest.length < q.rest.length
  omega

/-- Where a token is cut off nothing is at fault. -/
theorem Sees.clean_of_ok {p : Page} {view : View} {openTags : List OpenTag} {c : Cursor}
    {s : Sighting} (h : p.Sees view openTags c (.ok s)) : s.attempt.fatal = none := by
  cases h <;> assumption

/-- Cutting off a token is seeing it, and leads behind it. -/
theorem next_cutsOff (hq : q.Steady source) (hrest : q.rest ≠ [])
    (h : (standard source file n).next q = .ok (t, q')) :
    ∃ s, (standard source file n).Sees q.store.view q.openTags q.place (.ok s) ∧
      CutsOff source q s t q' := by
  have hsees := sight_sees_of_steady file n hq hrest
  have hspec := sight_spec file n hq.within (Attempt.faultsFrom_of_clean hq.clean _) hq.standard
  obtain ⟨s, hsight, h⟩ := exists_of_bind_ok h
  rw [hsight] at hsees hspec
  obtain ⟨hwithin, hlt, -, -, hstandard⟩ := hspec
  cases h
  have hleads : q.place.Leads (q.rest.take (s.stop.offset - q.offset)) s.stop := by
    have hle : s.stop.offset - q.offset ≤ q.place.rest.length := by
      rw [hq.within.length_rest]
      exact Nat.sub_le_sub_right hwithin.offset_le _
    have hstop : q.place.advance (s.stop.offset - q.offset) = s.stop := by
      apply (hq.within.advance _).eq_of_offset hwithin
      rw [Cursor.offset_advance hle]
      exact Nat.add_sub_cancel' hlt.le
    have hadvance := Cursor.leads_advance q.place (s.stop.offset - q.offset)
    rwa [hstop] at hadvance
  refine ⟨s, hsees, rfl, rfl, hleads, ?_, ?_, rfl, rfl, ?_⟩
  · intro hempty
    have hoffset := hleads.offset_eq
    rw [show q.rest.take (s.stop.offset - q.offset) = [] from hempty] at hoffset
    exact absurd hoffset hlt.ne'
  · show (⟨s.stop.front, s.stop.rest, 0⟩ : Cursor) = s.stop
    rw [← hwithin.past_eq]
  · exact ⟨⟨rfl, hwithin.split⟩, hsees.clean_of_ok, hstandard⟩

/-! ## The switch of the expression language -/

/-- A tag leaves the switch as it is, and takes its name out of the map again. -/
theorem Remembers.kept {view left : View} {c named : Cursor} (h : Remembers view c named left) :
    left Jsp.tagNameKey = none ∧ left Jsp.elEnabledKey = view Jsp.elEnabledKey := by
  obtain ⟨view', hparses, rfl⟩ := h
  have hother : Jsp.tagNameKey ≠ Jsp.elEnabledKey := by decide
  rw [← Jsp.switch_eq_of_switchless (by simp [Jsp.IsSwitchless]) hparses]
  simp [View.edit, hother]

/-- What is seen leaves the switch as it is, unless it is a directive. -/
theorem Sees.switch_eq {p : Page} {view : View} {openTags : List OpenTag} {c : Cursor}
    {s : Sighting} (h : p.Sees view openTags c (.ok s)) (hkind : s.kind ≠ .directive) :
    s.attempt.store.view Jsp.elEnabledKey = view Jsp.elEnabledKey := by
  cases h with
  | construct hfirst hkind' hparses =>
      have hwhole : ∀ e ∈ Jsp.constructs, e.kind ≠ .directive → Jsp.IsSwitchless e.whole := by
        unfold Jsp.IsSwitchless
        decide
      exact Jsp.switch_eq_of_switchless
        (hwhole _ (List.mem_of_find?_eq_some hfirst) (hkind' ▸ hkind)) hparses
  | endTag _ _ _ _ hview | templateText _ _ _ _ _ hview => rw [hview]
  | emptyTag _ _ _ _ hleft | closedTag _ _ _ _ _ _ hleft | startTag _ _ _ _ _ _ _ hleft =>
      exact hleft.kept.2

/-- Nothing but a directive changes the switch of the expression language. -/
theorem Sees.elEnabled_eq {p : Page} {view : View} {openTags : List OpenTag} {c : Cursor}
    {s : Sighting} (h : p.Sees view openTags c (.ok s)) (hkind : s.kind ≠ .directive) :
    Jsp.elEnabled.holds s.attempt.store.view = Jsp.elEnabled.holds view := by
  simp only [Jsp.elEnabled, h.switch_eq hkind]

/-- Cutting off a token leaves the switch as it is, unless the token is a directive. -/
theorem elEnabled_of_next (hq : q.Steady source) (hrest : q.rest ≠ [])
    (h : (standard source file n).next q = .ok (t, q')) (hkind : t.kind ≠ .directive) :
    q'.elEnabled = q.elEnabled := by
  obtain ⟨s, hsees, hcuts⟩ := next_cutsOff hq hrest h
  rw [Progress.elEnabled, hcuts.store]
  exact hsees.elEnabled_eq (hcuts.kind ▸ hkind)

/-- A state that is reached from a steady state is steady. -/
theorem Cuts.steady {ts : List Token} (h : (standard source file n).Cuts q ts q')
    (hq : q.Steady source) : q'.Steady source := by
  induction h with
  | nil => exact hq
  | cons hrest hnext _ ih =>
      obtain ⟨s, -, hcuts⟩ := next_cutsOff hq hrest hnext
      exact ih hcuts.steady

/-- Without directives the switch stays as it is. -/
theorem Cuts.elEnabled_eq {ts : List Token} (h : (standard source file n).Cuts q ts q')
    (hq : q.Steady source) (hkinds : ∀ t ∈ ts, t.kind ≠ .directive) :
    q'.elEnabled = q.elEnabled := by
  induction h with
  | nil => rfl
  | cons hrest hnext _ ih =>
      obtain ⟨s, -, hcuts⟩ := next_cutsOff hq hrest hnext
      obtain ⟨hkind, hkinds⟩ := List.forall_mem_cons.1 hkinds
      exact (ih hcuts.steady hkinds).trans (elEnabled_of_next hq hrest hnext hkind)

/-- Why cutting stops in a state: the page is at its end with all tags closed, or with a tag open,
or what stands at the place is at fault. -/
inductive Stops (p : Page) (q : Progress) : Option LexFailure → Prop
  | done (hrest : q.rest = []) (hopen : q.openTags = []) : Stops p q none
  | unclosed {tag : OpenTag} {below : List OpenTag} (hrest : q.rest = [])
      (hopen : q.openTags = tag :: below) :
      Stops p q (some (p.fault (.endTag tag.name .missing) tag.offset))
  | fails {failure : LexFailure} (hrest : q.rest ≠ []) (h : p.sight q = .error failure) :
      Stops p q (some failure)

/-- No run goes on where there is a reason to stop. -/
theorem Cuts.prefix_of_stops {p : Page} {q q' q'' : Progress} {before ts : List Token}
    {failure : Option LexFailure} (h : p.Cuts q ts q') (hstops : p.Stops q' failure)
    (h' : p.Cuts q before q'') : before <+: ts := by
  induction h generalizing before with
  | nil =>
      cases h' with
      | nil => exact List.prefix_refl _
      | cons hrest hnext =>
          cases hstops with
          | done hrest' | unclosed hrest' => exact absurd hrest' hrest
          | fails _ hsight =>
              rw [next, hsight] at hnext
              cases hnext
  | cons _ hnext _ ih =>
      cases h' with
      | nil => exact List.nil_prefix
      | cons _ hnext' h' =>
          rw [hnext] at hnext'
          cases hnext'
          exact List.prefix_cons_inj _ |>.2 (ih hstops h')

/-- A run of so many tokens leads to one state. -/
theorem Cuts.unique {p : Page} {q q' q'' : Progress} {ts : List Token} (h : p.Cuts q ts q')
    (h' : p.Cuts q ts q'') : q' = q'' := by
  induction h with
  | nil => exact (cuts_nil_iff.1 h').symm
  | cons _ hnext _ ih =>
      cases h' with
      | cons _ hnext' h' =>
          rw [hnext] at hnext'
          cases hnext'
          exact ih h'

/-- There is one reason to stop in a state. -/
theorem Stops.unique {p : Page} {q : Progress} {failure failure' : Option LexFailure}
    (h : p.Stops q failure) (h' : p.Stops q failure') : failure = failure' := by
  cases h <;> cases h' <;> simp_all

/-- Blame is laid by a cause at an offset. -/
theorem Blames.eq_fault {p : Page} {isFault : Fault → Prop} {expected : String} {offset : Nat}
    {failure : LexFailure}
    (h : p.Blames isFault expected offset failure) :
    ∃ cause offset, failure = p.fault cause offset := by
  cases h <;> exact ⟨_, _, rfl⟩

/-- Whatever exit a failure leaves through, it is a cause at an offset. -/
theorem Sees.eq_fault {p : Page} {view : View} {openTags : List OpenTag} {c : Cursor}
    {failure : LexFailure} (h : p.Sees view openTags c (.error failure)) :
    ∃ cause offset, failure = p.fault cause offset := by
  cases h with
  | strayEndTag => exact ⟨_, _, rfl⟩
  | brokenConstruct _ _ hblames | brokenEndTag _ _ _ hblames | brokenStartTag _ _ _ hblames
  | unendedStartTag _ _ _ hblames => exact hblames.eq_fault

/-- Where a run stops it gives a cause at an offset. -/
theorem Stops.eq_fault {failure : LexFailure} (hq : q.Steady source)
    (h : (standard source file n).Stops q (some failure)) :
    ∃ cause offset, failure = (standard source file n).fault cause offset := by
  cases h with
  | unclosed => exact ⟨_, _, rfl⟩
  | fails hrest hsight =>
      have hsees := sight_sees_of_steady file n hq hrest
      rw [hsight] at hsees
      exact hsees.eq_fault

/-- Enough steps cut until there is a reason to stop. -/
theorem cut_stops (hq : q.Steady source) {count : Nat} (hcount : q.rest.length < count)
    {tokens : List Token} {failure : Option LexFailure}
    (h : (standard source file n).cut count q = (tokens, failure)) :
    ∃ q', (standard source file n).Cuts q tokens q' ∧
      (standard source file n).Stops q' failure := by
  induction count generalizing q tokens with
  | zero => omega
  | succ count ih =>
      unfold cut at h
      split at h
      · rename_i hempty
        have hrest : q.rest = [] := by simpa using hempty
        split at h
        · rename_i hopen
          cases h
          exact ⟨q, .nil q, .done hrest hopen⟩
        · rename_i tag below hopen
          cases h
          exact ⟨q, .nil q, .unclosed hrest hopen⟩
      · rename_i hempty
        have hrest : q.rest ≠ [] := by simpa using hempty
        cases hnext : (standard source file n).next q with
        | error failure' =>
            rw [hnext] at h
            cases h
            refine ⟨q, .nil q, .fails hrest ?_⟩
            unfold next at hnext
            cases hsight : (standard source file n).sight q with
            | error failure'' =>
                rw [hsight] at hnext
                exact congrArg _ (Except.error.inj hnext)
            | ok s =>
                rw [hsight] at hnext
                cases hnext
        | ok answer =>
            obtain ⟨t, q₁⟩ := answer
            obtain ⟨s, -, hcuts⟩ := next_cutsOff hq hrest hnext
            rw [hnext] at h
            dsimp only at h
            cases hcut : (standard source file n).cut count q₁ with
            | mk tokens' failure' =>
                rw [hcut] at h
                cases h
                have hshorter := hcuts.length_rest_lt
                obtain ⟨q', hrun, hstops⟩ := ih hcuts.steady (by omega) hcut
                exact ⟨q', .cons hrest hnext hrun, hstops⟩

end Page

namespace TokenStream

/-- Cutting starts in a steady state. -/
theorem steady_start (source : Text) (elEnabled : Bool) :
    (start source elEnabled).Steady source :=
  ⟨⟨rfl, rfl⟩, rfl, by simp [start]⟩

/-- The tokens of a page are cut off one after the other up to a state in which there is a reason to
stop. -/
theorem exists_cuts (source : Text) (settings : Settings) (file : Option String)
    (elEnabled : Option Bool) :
    ∃ q, (Page.standard source file settings.excerptLength).Cuts
        (start source (elEnabled.getD settings.elEnabled))
        (ofSource source settings file elEnabled).tokens q ∧
      (Page.standard source file settings.excerptLength).Stops q
        (ofSource source settings file elEnabled).failure := by
  obtain ⟨count, hcount, hcut⟩ := exists_steps source settings file elEnabled
  exact Page.cut_stops (steady_start source _) hcount hcut

/-- The tokens of a page are those that are cut off up to a state in which there is a reason to
stop, and that is the reason why there are no more of them. -/
theorem ofSource_eq_of_stops {source : Text} {settings : Settings} {file : Option String}
    {elEnabled : Option Bool} {ts : List Token} {q : Progress} {failure : Option LexFailure}
    (hcuts : (Page.standard source file settings.excerptLength).Cuts
      (start source (elEnabled.getD settings.elEnabled)) ts q)
    (hstops : (Page.standard source file settings.excerptLength).Stops q failure) :
    ofSource source settings file elEnabled = ⟨ts, failure⟩ := by
  obtain ⟨q', hcuts', hstops'⟩ := exists_cuts source settings file elEnabled
  have heq : (ofSource source settings file elEnabled).tokens = ts :=
    (hcuts.prefix_of_stops hstops hcuts').eq_of_length_le
      (hcuts'.prefix_of_stops hstops' hcuts).length_le
  cases hcuts'.unique (heq ▸ hcuts)
  cases hstream : ofSource source settings file elEnabled with
  | mk tokens failure' =>
      rw [hstream] at heq hstops'
      rw [hstops.unique hstops', ← heq]

/-- A token of a page is seen at the state that the tokens in front of it lead to, and cut off
there. -/
theorem exists_cutsOff {source : Text} {settings : Settings} {file : Option String}
    {elEnabled : Option Bool} {before after : List Token} {t : Token}
    (h : (ofSource source settings file elEnabled).tokens = before ++ t :: after) :
    let page := Page.standard source file settings.excerptLength
    ∃ q s q', page.Cuts (start source (elEnabled.getD settings.elEnabled)) before q ∧
      q.Steady source ∧ page.Sees q.store.view q.openTags q.place (.ok s) ∧
      Page.CutsOff source q s t q' := by
  intro page
  obtain ⟨q₀, hcuts, -⟩ := exists_cuts source settings file elEnabled
  rw [h] at hcuts
  obtain ⟨q, hbefore, hafter⟩ := hcuts.of_append
  have hq : q.Steady source := hbefore.steady (steady_start source _)
  cases hafter with
  | cons hrest hnext _ =>
      obtain ⟨s, hsees, hcutsOff⟩ := Page.next_cutsOff hq hrest hnext
      exact ⟨q, s, _, hbefore, hq, hsees, hcutsOff⟩

/-- In a page without directives the switch of the expression language stays as it was. -/
theorem elEnabled_of_no_directive {source : Text} {settings : Settings} {file : Option String}
    (h : ∀ t ∈ (ofSource source settings file none).tokens, t.kind ≠ .directive)
    {before : List Token} {q : Progress}
    (hcuts : (Page.standard source file settings.excerptLength).Cuts
      (start source settings.elEnabled) before q) :
    q.elEnabled = (start source settings.elEnabled).elEnabled := by
  obtain ⟨q', hall, hstops⟩ := exists_cuts source settings file none
  refine hcuts.elEnabled_eq (steady_start source _) fun t ht => h t ?_
  exact (hall.prefix_of_stops hstops hcuts).subset ht

/-- Cutting a page ends early for a fault of the page only. -/
theorem exists_error {source : Text} {settings : Settings} {file : Option String}
    {elEnabled : Option Bool} {failure : LexFailure}
    (h : (ofSource source settings file elEnabled).failure = some failure) :
    ∃ e, failure = .error e := by
  obtain ⟨q, hcuts, hstops⟩ := exists_cuts source settings file elEnabled
  rw [h] at hstops
  obtain ⟨cause, offset, rfl⟩ := hstops.eq_fault (hcuts.steady (steady_start source _))
  exact ⟨_, rfl⟩

/-- The tokens of a page are not empty and lie side by side from its start on. If the page was cut
to its end they make up the page; else cutting ended with an error, the tokens make up a beginning
of the page, and the error points behind that beginning. The one exception is a missing end tag:
then the whole page was cut, and the error points at the last start tag that the tokens leave open.
-/
theorem tokens_cover (source : Text) (settings : Settings) (file : Option String)
    (elEnabled : Option Bool) :
    let stream := ofSource source settings file elEnabled
    (∀ before t after, stream.tokens = before ++ t :: after →
      t.value ≠ [] ∧ t.offset = (before.map (·.value.length)).sum ∧
        t.value = (source.drop t.offset).take t.value.length) ∧
    (stream.failure = none → stream.tokens.flatMap (·.value) = source) ∧
    (∀ failure, stream.failure = some failure → ∃ e, failure = .error e) ∧
    ∀ failure, stream.failure = some failure →
      ∃ p ≤ source.length, stream.tokens.flatMap (·.value) = source.take p ∧
        ∀ e, failure = .error e →
          ((∀ name, e.cause ≠ .endTag name .missing) →
            ∃ o : Nat, e.offset = some (o : Int) ∧ p ≤ o ∧ o ≤ source.length) ∧
          (∀ name, e.cause = .endTag name .missing →
            p = source.length ∧ ∃ t, (Token.unclosed stream.tokens).head? = some t ∧
              t.kind = .startTag ∧ e.offset = some (t.offset : Int)) := by
  intro stream
  obtain ⟨count, hcut⟩ := cut_eq_ofSource source settings file elEnabled
  obtain ⟨htiles, hle, hdone, hfail⟩ := Page.cut_spec file settings.excerptLength count
    (sound_start source (elEnabled.getD settings.elEnabled)) hcut
  have hstart : (start source (elEnabled.getD settings.elEnabled)).offset = 0 := rfl
  rw [hstart, Nat.zero_add] at hle hdone
  rw [hstart] at htiles
  have hvalues := htiles.flatMap_value
  rw [List.drop_zero] at hvalues
  refine ⟨?_, ?_, fun _ => exists_error, ?_⟩
  · intro before t after hsplit
    rw [hsplit] at htiles
    obtain ⟨hne, hoffset, hslice⟩ := htiles.of_append
    exact ⟨hne, by simpa [Token.totalLength] using hoffset, hslice⟩
  · intro hnone
    rw [hvalues, hdone hnone, List.take_length]
  · intro failure hfailure
    refine ⟨Token.totalLength stream.tokens, hle, hvalues, ?_⟩
    rintro e rfl
    rcases hfail e hfailure with ⟨hcause, o, ho, hpo, hoe⟩ | ⟨name, t, hcause, hend, hhead, ho⟩
    · refine ⟨fun _ => ⟨o, ho, by simpa [hstart] using hpo, hoe⟩, fun name hname => ?_⟩
      exact absurd hname (hcause name)
    · refine ⟨fun hnot => absurd hcause (hnot name), fun _ _ => ?_⟩
      refine ⟨by simpa [hstart] using hend, t, hhead, ?_, ho⟩
      exact Token.kind_of_mem_foldl_track (by simp) (List.mem_of_mem_head? hhead)

/-- Behind template text a start tag that nothing closes, and in it another one that is closed: the
whole page is cut, and the error points at the first. -/
theorem tokens_cover_of_unclosed :
    let source := "x<a:b><c:d>y</c:d>".toList
    let stream := ofSource source { excerptLength := 5 } none none
    let e := LexError.located (.endTag "a:b".toList .missing) source 1 none 5
    stream.failure = some (.error e) ∧ stream.tokens.flatMap (·.value) = source ∧
      ∃ t, (Token.unclosed stream.tokens).head? = some t ∧ t.kind = .startTag ∧ t.offset = 1 ∧
        e.excerpt = "<a:b>".toList := by
  intro source stream e
  obtain ⟨-, -, -, hfailures⟩ := tokens_cover source { excerptLength := 5 } none none
  have hfailure : stream.failure = some (.error e) := by decide +kernel
  obtain ⟨p, -, hvalues, herror⟩ := hfailures _ hfailure
  obtain ⟨rfl, t, hhead, hkind, hoffset⟩ := (herror e rfl).2 "a:b".toList rfl
  have htag : some (1 : Int) = some (t.offset : Int) := hoffset
  refine ⟨hfailure, ?_, t, hhead, hkind, (Int.ofNat.inj (Option.some.inj htag)).symm, by decide⟩
  rw [hvalues, List.take_length]

end TokenStream

end Stencil
