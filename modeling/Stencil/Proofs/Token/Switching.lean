import Stencil.Proofs.Jsp.Switching
import Stencil.Proofs.Token.Alone

/-!
# The switch over a run

What the store holds between two tokens. Every try opens and closes its own layers, so none is open
(`Page.sight_onTop`); the name of a start tag is taken out of the store as soon as the tag is read
(`Page.Sees.tagName_eq`); and the switch of the expression language is what the directives cut off
so far make of it, in order (`Page.Sees.switches`). A state of cutting with these three properties
is `Progress.Settled`. One more token leads to such a state again (`Page.settled_of_next`), and so
does a run (`Page.Cuts.settled`).
-/

set_option autoImplicit false

namespace Stencil

open Jsp (Construct Production Rule)

/-- What a token makes of the switch of the expression language. -/
def Token.switch (el : Bool) (t : Token) : Bool :=
  if t.kind = .directive then Jsp.switchedBy el t.value else el

/-! ## Layers -/

/-- The state after a try. -/
def Try.attempt : Try → Attempt
  | miss a => a
  | hit s => s.attempt

namespace Page

section Layers

variable {p : Page} {m : Production} {openTags : List OpenTag} {a a' : Attempt} {c : Cursor}
  {found : Option Cursor} {tried : Try} {s : Sighting}

/-- An attempt writes to the newest layer alone. -/
theorem attempt_onTop (h : p.attempt m a c = .ok (found, a')) : a.store.OnTop a'.store := by
  unfold attempt at h
  split at h
  · rename_i hstep
    cases h
    exact Matcher.writesOnTop_step Jsp.rules _ m hstep
  · cases h

/-- Trying the constructs writes to the newest layer alone. -/
theorem construct_onTop {entries : List (Construct Production)}
    (h : p.construct openTags c entries a = .ok tried) : a.store.OnTop tried.attempt.store := by
  induction entries generalizing a with
  | nil =>
      cases h
      exact .refl _
  | cons e entries ih =>
      obtain ⟨⟨started, a₁⟩, hdelimiter, h⟩ := exists_of_bind_ok h
      have hfirst := attempt_onTop hdelimiter
      cases started with
      | none =>
          dsimp only at h
          split at h
          · cases h
          · exact hfirst.trans (ih h)
      | some _ =>
          obtain ⟨⟨stop?, a₂⟩, hwhole, h⟩ := exists_of_bind_ok h
          cases stop? with
          | none => cases h
          | some stop =>
              cases h
              exact hfirst.trans (attempt_onTop hwhole)

/-- Trying a stray end tag writes to the newest layer alone. -/
theorem strayEndTag_onTop (h : p.strayEndTag openTags c a = .ok tried) :
    a.store.OnTop tried.attempt.store := by
  obtain ⟨delimiter, -, h⟩ := exists_of_bind_ok h
  obtain ⟨⟨started, a₁⟩, hdelimiter, h⟩ := exists_of_bind_ok h
  cases started with
  | none =>
      cases h
      exact attempt_onTop hdelimiter
  | some _ =>
      -- from here on there are only failures
      obtain ⟨whole, -, h⟩ := exists_of_bind_ok h
      obtain ⟨⟨stop?, a₂⟩, -, h⟩ := exists_of_bind_ok h
      cases stop? with
      | none => cases h
      | some _ =>
          obtain ⟨qName, -, h⟩ := exists_of_bind_ok h
          obtain ⟨⟨stop?, a₃⟩, -, h⟩ := exists_of_bind_ok h
          cases h

/-- Trying an end tag writes to the newest layer alone. -/
theorem endTag_onTop (h : p.endTag openTags c a = .ok tried) :
    a.store.OnTop tried.attempt.store := by
  cases openTags with
  | nil => exact strayEndTag_onTop h
  | cons tag below =>
      obtain ⟨⟨stop?, a₁⟩, hcloser, h⟩ := exists_of_bind_ok h
      have hfirst := attempt_onTop hcloser
      cases stop? with
      | none => exact hfirst.trans (strayEndTag_onTop h)
      | some stop =>
          cases h
          exact hfirst

/-- Trying a start tag writes to the newest layer alone. -/
theorem startTag_onTop (h : p.startTag openTags c a = .ok tried) :
    a.store.OnTop tried.attempt.store := by
  obtain ⟨delimiter, -, h⟩ := exists_of_bind_ok h
  obtain ⟨⟨started, a₁⟩, hdelimiter, h⟩ := exists_of_bind_ok h
  have h₁ := attempt_onTop hdelimiter
  cases started with
  | none =>
      cases h
      exact h₁
  | some _ =>
      obtain ⟨start, -, h⟩ := exists_of_bind_ok h
      obtain ⟨⟨named?, a₂⟩, hstart, h⟩ := exists_of_bind_ok h
      cases named? with
      | none => cases h
      | some named =>
          have h₂ := (h₁.trans (attempt_onTop hstart)).trans
            (Store.onTop_edit a₂.store (.delete Jsp.tagNameKey))
          obtain ⟨empty, -, h⟩ := exists_of_bind_ok h
          obtain ⟨⟨empty?, a₃⟩, hempty, h⟩ := exists_of_bind_ok h
          have h₃ := h₂.trans (attempt_onTop hempty)
          cases empty? with
          | some stop =>
              cases h
              exact h₃
          | none =>
              obtain ⟨bracket, -, h⟩ := exists_of_bind_ok h
              obtain ⟨⟨body?, a₄⟩, hbody, h⟩ := exists_of_bind_ok h
              have h₄ := h₃.trans (attempt_onTop hbody)
              cases body? with
              | none => cases h
              | some body =>
                  obtain ⟨⟨name, closer⟩, -, h⟩ := exists_of_bind_ok h
                  obtain ⟨⟨closed?, a₅⟩, hclosed, h⟩ := exists_of_bind_ok h
                  have h₅ := h₄.trans (attempt_onTop hclosed)
                  cases closed? with
                  | some stop =>
                      cases h
                      exact h₅
                  | none =>
                      cases h
                      exact h₅

/-- Trying template text writes to the newest layer alone. -/
theorem templateText_onTop (h : p.templateText openTags c a = .ok s) :
    a.store.OnTop s.attempt.store := by
  obtain ⟨text, -, h⟩ := exists_of_bind_ok h
  obtain ⟨⟨stop?, a₁⟩, htext, h⟩ := exists_of_bind_ok h
  cases stop? with
  | none => cases h
  | some stop =>
      cases h
      exact attempt_onTop htext

/-- Whatever is seen, and under whatever lexicon, all layers below the newest are as before. -/
theorem sight_onTop {q : Progress} (h : p.sight q = .ok s) : q.store.OnTop s.attempt.store := by
  obtain ⟨tried, hconstruct, h⟩ := exists_of_bind_ok h
  have h₁ := construct_onTop hconstruct
  cases tried with
  | hit s =>
      cases h
      exact h₁
  | miss a₁ =>
      obtain ⟨tried, hend, h⟩ := exists_of_bind_ok h
      have h₂ := h₁.trans (endTag_onTop hend)
      cases tried with
      | hit s =>
          cases h
          exact h₂
      | miss a₂ =>
          obtain ⟨tried, hstart, h⟩ := exists_of_bind_ok h
          have h₃ := h₂.trans (startTag_onTop hstart)
          cases tried with
          | hit s =>
              cases h
              exact h₃
          | miss a₃ => exact h₃.trans (templateText_onTop h)

end Layers

end Page

/-! ## Between two tokens -/

/-- What the store holds between two tokens: no layer is open, no name of a tag is left, and the
expression language is on or off. -/
structure Progress.Settled (el : Bool) (q : Progress) : Prop where
  depth_eq : q.store.depth = 0
  tagName_eq : q.store.view Jsp.tagNameKey = none
  switch_eq : q.store.view Jsp.elEnabledKey = some (.flag el)

namespace Page

section Settled

variable {source : Text} {file : Option String} {n : Int} {p : Page} {q q' : Progress} {t : Token}
  {ts : List Token} {el : Bool} {view : View} {c : Cursor} {openTags : List OpenTag} {s : Sighting}

/-- A construct is told from tags and template text by its kind. -/
theorem Sees.exists_construct (h : p.Sees view openTags c (.ok s))
    (hkind : s.kind ∈ Jsp.constructs.map fun e => e.kind) :
    ∃ e, construct? (Jsp.elEnabled.holds view) c.rest = some e ∧ s.kind = e.kind ∧
      (Jsp.rule e.whole).Parses Jsp.rules view c (.ends s.stop s.attempt.store.view) := by
  cases h with
  | construct hfirst hkind' hparses => exact ⟨_, hfirst, hkind', hparses⟩
  | endTag _ hkind' | templateText _ _ hkind' | emptyTag _ _ hkind' | closedTag _ _ _ _ hkind'
  | startTag _ _ _ _ _ hkind' =>
      rw [hkind'] at hkind
      exact absurd hkind (by decide)

/-- No name of a tag is left where none was before. -/
theorem Sees.tagName_eq (h : p.Sees view openTags c (.ok s)) (hname : view Jsp.tagNameKey = none) :
    s.attempt.store.view Jsp.tagNameKey = none := by
  cases h with
  | construct hfirst _ hparses =>
      have hwhole : ∀ e ∈ Jsp.constructs, Jsp.IsNameless e.whole := by
        unfold Jsp.IsNameless
        decide
      rw [Jsp.tagName_eq_of_nameless (hwhole _ (List.mem_of_find?_eq_some hfirst)) hparses, hname]
  | endTag _ _ _ _ hview | templateText _ _ _ _ _ hview => rw [hview, hname]
  | emptyTag _ _ _ _ hleft | closedTag _ _ _ _ _ _ hleft | startTag _ _ _ _ _ _ _ hleft =>
      exact hleft.kept.1

/-- A token makes of the switch what its text says if it is a directive, and nothing else. -/
theorem Sees.switches (h : p.Sees view openTags c (.ok s)) (hpast : c.past = 0)
    (hleads : c.Leads t.value s.stop) (hkind : t.kind = s.kind)
    (hel : view Jsp.elEnabledKey = some (.flag el)) :
    s.attempt.store.view Jsp.elEnabledKey = some (.flag (t.switch el)) := by
  unfold Token.switch
  split
  · rename_i hdirective
    rw [hkind] at hdirective
    obtain ⟨e, hfirst, hkind', hparses⟩ := h.exists_construct (by rw [hdirective]; decide)
    have hwhole : ∀ e ∈ Jsp.constructs, e.kind = .directive → e.whole = .directive := by decide
    rw [hwhole e (List.mem_of_find?_eq_some hfirst) (hkind' ▸ hdirective)] at hparses
    obtain ⟨value, hleads', hswitch⟩ := Jsp.directive_switches hel hpast hparses
    rw [hleads.unique hleads', hswitch]
  · rename_i hdirective
    rw [h.switch_eq (hkind ▸ hdirective), hel]

/-- Layers below the newest are as before behind a token. -/
theorem onTop_of_next (h : p.next q = .ok (t, q')) : q.store.OnTop q'.store := by
  obtain ⟨s, hsight, h⟩ := exists_of_bind_ok h
  cases h
  exact sight_onTop hsight

/-- One more token. -/
theorem settled_of_next (hq : q.Steady source) (hs : q.Settled el) (hrest : q.rest ≠ [])
    (h : (standard source file n).next q = .ok (t, q')) : q'.Settled (t.switch el) := by
  obtain ⟨s, hsees, hcuts⟩ := next_cutsOff hq hrest h
  constructor
  · rw [(onTop_of_next h).depth_eq, hs.depth_eq]
  · rw [hcuts.store]
    exact hsees.tagName_eq hs.tagName_eq
  · rw [hcuts.store]
    exact hsees.switches rfl hcuts.leads hcuts.kind hs.switch_eq

/-- A run makes of the switch what its tokens make of it, one after the other. -/
theorem Cuts.settled (h : (standard source file n).Cuts q ts q') (hq : q.Steady source)
    (hs : q.Settled el) : q'.Settled (ts.foldl Token.switch el) := by
  induction h generalizing el with
  | nil => exact hs
  | cons hrest hnext _ ih =>
      obtain ⟨s, -, hcuts⟩ := next_cutsOff hq hrest hnext
      exact ih hcuts.steady (settled_of_next hq hs hrest hnext)

/-- An expression of the expression language is cut off only while that is on. -/
theorem on_of_elExpression (hq : q.Steady source) (hs : q.Settled el) (hrest : q.rest ≠ [])
    (h : (standard source file n).next q = .ok (t, q')) (hkind : t.kind = .elExpression) :
    el = true := by
  obtain ⟨s, hsees, hcuts⟩ := next_cutsOff hq hrest h
  have hsort : s.kind = .elExpression := hcuts.kind ▸ hkind
  obtain ⟨e, hfirst, hkind', -⟩ := hsees.exists_construct (by rw [hsort]; decide)
  have hdelimiter : ∀ e ∈ Jsp.constructs, e.kind = .elExpression →
      e.delimiter = .elExpressionStart := by decide
  have hdelimits := List.find?_some hfirst
  rw [Jsp.holds_of_switch hs.switch_eq, hdelimiter e (List.mem_of_find?_eq_some hfirst)
    (hkind' ▸ hsort), Jsp.delimits, Bool.and_eq_true] at hdelimits
  exact hdelimits.1

end Settled

end Page

namespace TokenStream

/-- A page starts settled. -/
theorem settled_start (source : Text) (el : Bool) : (start source el).Settled el :=
  ⟨rfl, rfl, rfl⟩

/-- Whether the expression language is on depends on the directives only. In every run, also one
that does not come to the end of its page, between any two tokens no layer of the store is open, no
name of a tag is left, and the switch is the first one as the tokens so far have turned it one after
the other: a page directive turns it off where the value of its `isELIgnored` is exactly `true`, and
on where it is exactly `false`; any other value, directive or token leaves it alone. An expression
of the expression language only starts where it is on. -/
theorem switch_follows_directives (source : Text) (settings : Settings) (file : Option String)
    (elEnabled : Option Bool) :
    let page := Page.standard source file settings.excerptLength
    let initial := elEnabled.getD settings.elEnabled
    let tokens := (ofSource source settings file elEnabled).tokens
    (∀ before after, tokens = before ++ after →
      ∃ q, page.Cuts (start source initial) before q ∧ q.store.depth = 0 ∧
        q.store.view Jsp.tagNameKey = none ∧
        q.store.view Jsp.elEnabledKey = some (.flag (before.foldl Token.switch initial))) ∧
    ∀ before t after, tokens = before ++ t :: after → t.kind = .elExpression →
      before.foldl Token.switch initial = true := by
  intro page initial tokens
  obtain ⟨q₀, hcuts, -⟩ := exists_cuts source settings file elEnabled
  have hsteady := steady_start source initial
  have hsettled := settled_start source initial
  refine ⟨fun before after htokens => ?_, fun before t after htokens hkind => ?_⟩
  · rw [show (ofSource source settings file elEnabled).tokens = before ++ after from htokens]
      at hcuts
    obtain ⟨q, hbefore, -⟩ := hcuts.of_append
    have hq := hbefore.settled hsteady hsettled
    exact ⟨q, hbefore, hq.depth_eq, hq.tagName_eq, hq.switch_eq⟩
  · rw [show (ofSource source settings file elEnabled).tokens = before ++ t :: after from htokens]
      at hcuts
    obtain ⟨q, hbefore, hafter⟩ := hcuts.of_append
    have hq := hbefore.settled hsteady hsettled
    cases hafter with
    | cons hrest hnext _ =>
        exact Page.on_of_elExpression (hbefore.steady hsteady) hq hrest hnext hkind

/-- A directive turns the expression language off, so that what looks like an expression is text,
and another one turns it on again. -/
theorem switch_follows_directives_of_page :
    let source :=
      "<%@ page isELIgnored='true' %>$\x7ba<%@ page isELIgnored='false' %>$\x7bb\x7d".toList
    let off : Token := ⟨.directive, "<%@ page isELIgnored='true' %>".toList, 0⟩
    let text : Token := ⟨.templateText, "$\x7ba".toList, 30⟩
    let on : Token := ⟨.directive, "<%@ page isELIgnored='false' %>".toList, 33⟩
    let expression : Token := ⟨.elExpression, "$\x7bb\x7d".toList, 64⟩
    (ofSource source {} none none).tokens = [off, text, on, expression] ∧
      (∃ q, (Page.standard source none 20).Cuts (start source true) [off] q ∧
        q.store.depth = 0 ∧ q.store.view Jsp.tagNameKey = none ∧
        q.store.view Jsp.elEnabledKey = some (.flag false)) ∧
      [off, text, on].foldl Token.switch true = true := by
  intro source off text on expression
  have htokens : (ofSource source {} none none).tokens = [off, text, on, expression] := by
    decide +kernel
  have hoff : [off].foldl Token.switch true = false := by decide +kernel
  obtain ⟨hbetween, hexpressions⟩ := switch_follows_directives source {} none none
  have hfirst := hbetween [off] [text, on, expression] htokens
  rw [show (none : Option Bool).getD ({} : Settings).elEnabled = true from rfl, hoff] at hfirst
  exact ⟨htokens, hfirst, hexpressions [off, text, on] expression [] htokens rfl⟩

end TokenStream

end Stencil
