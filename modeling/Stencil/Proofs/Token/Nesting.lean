import Stencil.Proofs.Jsp.Tags
import Stencil.Proofs.Token.Coverage

/-!
# Tags nest

The start tags and end tags of a page that was cut to its end are well nested, and every end tag
repeats the name of the start tag that it closes. No start tag is closed at once: such a pair is
one empty tag.

`Sighting.Tags` says what standing at a place means for the open tags, and `Page.sight_tags` proves
it of everything that is cut off. A state of cutting `Nests` if its open tags carry the names of the
start tags that were left open, and if the tag that was opened last, if it was opened just now, is
not closed at the place. One more token keeps that (`Page.next_nests`), and a row of tokens that was
cut off from such a state is `Nested`.
-/

set_option autoImplicit false

namespace Stencil

open Jsp (Construct Production Rule endTagStop?)

namespace Token

/-- A start tag with a name. -/
def Opens (name : Text) (t : Token) : Prop :=
  t.kind = .startTag ∧ ∃ opening, Text.OpensTag name opening ∧ t.value = opening ++ ['>']

/-- The end tag of a name. -/
def Closes (name : Text) (t : Token) : Prop :=
  t.kind = .endTag ∧ Text.EndsTag name t.value

/-- A tag that is closed at once: by a slash, or by an end tag of its own name. -/
def OpensAndCloses (name : Text) (t : Token) : Prop :=
  t.kind = .emptyTag ∧ ∃ opening, Text.OpensTag name opening ∧
    (t.value = opening ++ "/>".toList ∨
      ∃ ending, Text.EndsTag name ending ∧ t.value = opening ++ '>' :: ending)

end Token

/-- What standing at a place means for the open tags. -/
inductive Sighting.Tags (openTags : List OpenTag) (c : Cursor) : Sighting → Prop
  | closes {tag : OpenTag} {below : List OpenTag} {stop : Cursor} (a : Attempt)
      (hopen : openTags = tag :: below) (hstop : endTagStop? tag.name c = some stop) :
      Tags openTags c ⟨.endTag, stop, a, below⟩
  | opens {name opening : Text} {closer : Production} {stop : Cursor} (a : Attempt)
      (hname : Text.OpensTag name opening) (hleads : c.Leads (opening ++ ['>']) stop)
      (hnot : endTagStop? name stop = none) :
      Tags openTags c ⟨.startTag, stop, a, ⟨name, closer, c.offset⟩ :: openTags⟩
  | opensAndCloses {name opening ending : Text} {stop : Cursor} (a : Attempt)
      (hname : Text.OpensTag name opening)
      (hending : ending = "/>".toList ∨ ∃ t, Text.EndsTag name t ∧ ending = '>' :: t)
      (hleads : c.Leads (opening ++ ending) stop) :
      Tags openTags c ⟨.emptyTag, stop, a, openTags⟩
  | other {kind : Kind} (stop : Cursor) (a : Attempt)
      (hkind : kind ≠ .startTag ∧ kind ≠ .endTag ∧ kind ≠ .emptyTag) :
      Tags openTags c ⟨kind, stop, a, openTags⟩

/-- A result of two parts has one of the first part. -/
theorem exists_of_bind_ok {ε α β : Type} {x : Except ε α} {f : α → Except ε β} {r : β}
    (h : (x >>= f) = .ok r) : ∃ v, x = .ok v ∧ f v = .ok r := by
  cases x with
  | error e => cases h
  | ok v => exact ⟨v, rfl, h⟩

/-- A result of the first part is handed on. -/
theorem ok_bind {ε α β : Type} (x : α) (f : α → Except ε β) : (Except.ok x >>= f) = f x := rfl

namespace Page

variable {source : Text} {file : Option String} {n : Int} {p : Page} {m : Production}
  {openTags : List OpenTag} {a a' : Attempt} {c stop : Cursor} {s : Sighting}

/-- Where a regular matcher is found by an attempt, it is read there. -/
theorem attempt_some (hm : m.Regular) (h : p.attempt m a c = .ok (some stop, a')) :
    a.fatal = none ∧ a'.fatal = none ∧
      m.Parses Jsp.rules a.store.view c (.ends stop a'.store.view) := by
  unfold attempt at h
  split at h
  · rename_i hstep
    cases h
    exact Matcher.step_some Jsp.regular_rules hm hstep
  · cases h

/-- Where a regular matcher is not found by an attempt, it is not read. -/
theorem attempt_none (hm : m.Regular) (ha : a.fatal = none)
    (h : p.attempt m a c = .ok (none, a'))
    (stop : Cursor) (view : View) :
    ¬m.Parses Jsp.rules a.store.view c (.ends stop view) := by
  unfold attempt at h
  split at h
  · rename_i hstep
    cases h
    exact Matcher.step_none Jsp.regular_rules hm ha hstep stop view
  · cases h

/-- A construct changes nothing of the open tags. -/
theorem construct_tags (entries : List (Construct Rule))
    (kinds : ∀ e ∈ entries, e.kind ≠ .startTag ∧ e.kind ≠ .endTag ∧ e.kind ≠ .emptyTag)
    (h : p.construct openTags c
      (entries.map fun e => ⟨e.kind, Jsp.rule e.delimiter, Jsp.rule e.whole⟩) a = .ok (.hit s)) :
    s.Tags openTags c := by
  induction entries generalizing a with
  | nil => cases h
  | cons e entries ih =>
      have hkind := kinds e (List.mem_cons_self ..)
      have hkinds := fun e' hmem => kinds e' (List.mem_cons_of_mem _ hmem)
      simp only [List.map_cons, construct, bind, Except.bind] at h
      split at h
      · cases h
      split at h
      · split at h
        · cases h
        · exact ih hkinds h
      · split at h
        · cases h
        split at h
        · cases h
        · cases h
          exact .other _ _ hkind

/-- No token is cut off for a stray end tag. -/
theorem strayEndTag_not_hit : p.strayEndTag openTags c a ≠ .ok (.hit s) := by
  intro h
  simp only [strayEndTag, bind, Except.bind] at h
  repeat' split at h
  all_goals cases h

/-- An end tag closes the innermost open tag, whose name it has. -/
theorem endTag_tags (hopen : ∀ tag ∈ openTags, tag.IsStandard)
    (h : p.endTag openTags c a = .ok (.hit s)) : s.Tags openTags c := by
  cases openTags with
  | nil => exact absurd h strayEndTag_not_hit
  | cons tag below =>
      obtain ⟨nonempty, hcloser⟩ := hopen tag (List.mem_cons_self ..)
      simp only [endTag, bind, Except.bind] at h
      split at h
      · cases h
      · rename_i outcome hattempt
        obtain ⟨_ | stop, a'⟩ := outcome
        · exact absurd h strayEndTag_not_hit
        · cases h
          rw [hcloser] at hattempt
          obtain ⟨-, -, hends⟩ := attempt_some (Jsp.regular_closer tag.name nonempty) hattempt
          rw [(Jsp.readsAs_closer tag.name nonempty).parses_ends_iff] at hends
          exact .closes a' rfl hends.1

/-- The matcher that is made for a name repeats the name. -/
theorem closer_eq {name name' : Text} {closer : Production}
    (h : (standard source file n).closer (some (.text name)) = .ok (name', closer)) :
    name' = name ∧ ∃ nonempty : name ≠ [], closer = Jsp.closer name nonempty (Jsp.rule .space) := by
  unfold Page.closer at h
  dsimp only at h
  split at h
  · rename_i nonempty
    cases h
    exact ⟨rfl, nonempty, rfl⟩
  · cases h

/-- A labelled fixed text leads over that text. -/
theorem leads_literal {text : Text} {nonempty : text ≠ []} {label : String} {view view' : View}
    (h : (Matcher.labelled label (.literal text nonempty)).Parses Jsp.rules view c
      (.ends stop view')) : c.Leads text stop := by
  rw [Matcher.parses_labelled_iff] at h
  exact Matcher.leads_of_parses_literal h

/-- A start tag opens a tag of its name, or closes it at once. -/
theorem startTag_tags (hpast : c.past = 0)
    (h : (standard source file n).startTag openTags c a = .ok (.hit s)) : s.Tags openTags c := by
  simp only [startTag, lookUp_standard, ok_bind] at h
  obtain ⟨⟨_ | d, a₁⟩, hstarted, h⟩ := exists_of_bind_ok h
  · cases h
  obtain ⟨⟨_ | named, a₂⟩, hnamed, h⟩ := exists_of_bind_ok h
  · cases h
  obtain ⟨-, hclean₂, hstart⟩ := attempt_some (Jsp.regular_rule .actionStart) hnamed
  obtain ⟨name, opening, hname, hleads, hkey⟩ := Jsp.leads_actionStart hpast hstart
  obtain ⟨⟨_ | stop, a₄⟩, hempty, h⟩ := exists_of_bind_ok h
  · obtain ⟨⟨_ | body, a₅⟩, hend, h⟩ := exists_of_bind_ok h
    · cases h
    obtain ⟨-, hclean₅, hbody⟩ := attempt_some (Jsp.regular_rule .actionTagEnd) hend
    have hbody := leads_literal hbody
    obtain ⟨⟨name', closer⟩, hcloser, h⟩ := exists_of_bind_ok h
    dsimp only at hcloser
    rw [hkey] at hcloser
    obtain ⟨rfl, nonempty, rfl⟩ := closer_eq hcloser
    have hcloses := Jsp.readsAs_closer name' nonempty
    have hregular := Jsp.regular_closer name' nonempty
    obtain ⟨⟨_ | stop, a₆⟩, hclosed, h⟩ := exists_of_bind_ok h
    · -- the tag is not closed at once
      cases h
      refine .opens a₆ hname (hleads.trans hbody) ?_
      cases hstop : endTagStop? name' body with
      | none => rfl
      | some stop =>
          refine absurd ?_ (attempt_none hregular hclean₅ hclosed stop a₅.store.view)
          exact hcloses.parses_ends_iff.2 ⟨hstop, rfl⟩
    · cases h
      obtain ⟨-, -, hends⟩ := attempt_some hregular hclosed
      obtain ⟨ending, hending, hleads'⟩ :=
        Jsp.endsTag_of_endTagStop? (hcloses.parses_ends_iff.1 hends).1
      exact .opensAndCloses a₆ hname (.inr ⟨ending, hending, rfl⟩)
        (hleads.trans (hbody.trans hleads'))
  · cases h
    obtain ⟨-, -, hends⟩ := attempt_some (Jsp.regular_rule .actionEmptyEnd) hempty
    exact .opensAndCloses a₄ hname (.inl rfl) (hleads.trans (leads_literal hends))

/-- What stands at a place is one of the things that may happen to the open tags. -/
theorem sight_tags {q : Progress} (hopen : ∀ tag ∈ q.openTags, tag.IsStandard)
    (h : (standard source file n).sight q = .ok s) :
    s.Tags q.openTags q.place := by
  unfold sight at h
  obtain ⟨first, hfirst, h⟩ := exists_of_bind_ok h
  cases first with
  | hit s' =>
      cases h
      exact construct_tags Jsp.constructs (by decide) hfirst
  | miss a =>
      obtain ⟨second, hsecond, h⟩ := exists_of_bind_ok h
      cases second with
      | hit s' =>
          cases h
          exact endTag_tags hopen hsecond
      | miss a =>
          obtain ⟨third, hthird, h⟩ := exists_of_bind_ok h
          cases third with
          | hit s' =>
              cases h
              exact startTag_tags rfl hthird
          | miss a =>
              simp only [templateText, lookUp_standard, ok_bind] at h
              obtain ⟨⟨_ | stop, a'⟩, hattempt, h⟩ := exists_of_bind_ok h
              · cases h
              · cases h
                exact .other stop a' (by decide)

end Page

/-! ## Rows of tokens -/

/-- A state of cutting in which the open tags carry the names of the start tags that were left open.
If a start tag was cut off just now, its end tag does not follow. -/
structure Progress.Nests (unclosed : List Token) (justOpened : Bool) (q : Progress) : Prop where
  names : List.Forall₂ (fun tag t => t.Opens tag.name) q.openTags unclosed
  notClosed : justOpened = true → ∀ tag ∈ q.openTags.head?,
    endTagStop? tag.name q.place = none

namespace Token

/-- What a token has to do with the start tags that the tokens before it leave open, the innermost
first, and with the token just before it. -/
structure Fits (source : Text) (unclosed : List Token) (justOpened : Bool) (t : Token) : Prop where
  /-- An end tag closes the innermost start tag, and not at once. -/
  closes : t.kind = .endTag → justOpened = false ∧
    ∃ start below name, unclosed = start :: below ∧ start.Opens name ∧ t.Closes name
  /-- A start tag is not followed by its end tag. -/
  opens : t.kind = .startTag → ∃ name, t.Opens name ∧
    ∀ ending rest, Text.EndsTag name ending → source.drop t.stop ≠ ending ++ rest
  /-- An empty tag is closed by a slash or by its end tag. -/
  both : t.kind = .emptyTag → ∃ name, t.OpensAndCloses name

/-- A row of tokens that nests, behind tokens that leave start tags open, and leaves none open. -/
def Nested (source : Text) : List Token → Bool → List Token → Prop
  | unclosed, _, [] => unclosed = []
  | unclosed, justOpened, t :: ts =>
    t.Fits source unclosed justOpened ∧
      Nested source (track unclosed t) (decide (t.kind = .startTag)) ts

end Token

namespace Page

variable {source : Text} {file : Option String} {n : Int} {q q' : Progress}
  {unclosed : List Token} {justOpened : Bool} {t : Token}

/-- A token that is cut off fits what was left open, and the state behind it nests. -/
theorem next_nests (hs : q.Sound source unclosed) (hq : q.Nests unclosed justOpened)
    (h : (standard source file n).next q = .ok (t, q')) :
    t.Fits source unclosed justOpened ∧
      q'.Nests (Token.track unclosed t) (decide (t.kind = .startTag)) := by
  obtain ⟨sighting, hsight, h⟩ := exists_of_bind_ok h
  have htags := sight_tags hs.standard hsight
  have hwithin : sighting.stop.Within source := by
    have hspec := sight_spec file n hs.within hs.faults hs.standard
    rw [hsight] at hspec
    exact hspec.within
  cases h
  cases htags with
  | @closes tag below stop a hopen hstop =>
      obtain ⟨ending, hending, hleads⟩ := Jsp.endsTag_of_endTagStop? hstop
      have hvalue : q.rest.take (stop.offset - q.offset) = ending := hleads.take_rest
      have hnames := hq.names
      rw [hopen] at hnames
      cases hnames with
      | @cons _ start _ rest hstart hbelow =>
      refine ⟨⟨fun _ => ⟨?_, start, rest, tag.name, rfl, hstart, rfl, ?_⟩, nofun, nofun⟩, hbelow,
        nofun⟩
      · -- behind a start tag that was opened just now its end tag does not stand
        cases justOpened with
        | false => rfl
        | true =>
            have hnot := hq.notClosed rfl tag (by simp [hopen])
            rw [hnot] at hstop
            cases hstop
      · show Text.EndsTag tag.name (q.rest.take (stop.offset - q.offset))
        rw [hvalue]
        exact hending
  | @opens name opening closer stop a hname hleads hnot =>
      have hvalue : q.rest.take (stop.offset - q.offset) = opening ++ ['>'] := hleads.take_rest
      have hopens : Token.Opens name ⟨.startTag, q.rest.take (stop.offset - q.offset), q.offset⟩ :=
        ⟨rfl, opening, hname, hvalue⟩
      refine ⟨⟨nofun, fun _ => ⟨name, hopens, ?_⟩, nofun⟩, .cons hopens hq.names, ?_⟩
      · intro ending rest hending hdrop
        have hend : q.offset + (q.rest.take (stop.offset - q.offset)).length = stop.offset := by
          rw [hvalue]
          exact hleads.offset_eq.symm
        have hrest : stop.rest = ending ++ rest := by
          rw [← hdrop, hwithin.rest_eq]
          exact congrArg source.drop hend.symm
        have hfound := Jsp.isSome_endTagStop? hending hrest
        rw [hnot] at hfound
        cases hfound
      · rintro - tag htag
        cases htag
        have hstop : (⟨stop.front, stop.rest, 0⟩ : Cursor) = stop := by
          rw [← hwithin.past_eq]
        show endTagStop? name ⟨stop.front, stop.rest, 0⟩ = none
        rw [hstop]
        exact hnot
  | @opensAndCloses name opening ending stop a hname hending hleads =>
      have hvalue : q.rest.take (stop.offset - q.offset) = opening ++ ending := hleads.take_rest
      refine ⟨⟨nofun, nofun, fun _ => ⟨name, rfl, opening, hname, ?_⟩⟩, hq.names, nofun⟩
      rcases hending with rfl | ⟨t, ht, rfl⟩
      · exact .inl hvalue
      · exact .inr ⟨t, ht, hvalue⟩
  | @other kind stop a hkind =>
      obtain ⟨hstart, hend, hempty⟩ := hkind
      refine ⟨⟨fun h => absurd h hend, fun h => absurd h hstart, fun h => absurd h hempty⟩, ?_, ?_⟩
      · have htrack : Token.track unclosed ⟨kind, q.rest.take (stop.offset - q.offset), q.offset⟩ =
            unclosed := by
          unfold Token.track
          split
          · rename_i h
            exact absurd h hstart
          · rename_i h
            exact absurd h hend
          · rfl
        rw [htrack]
        exact hq.names
      · intro h
        exact absurd (of_decide_eq_true h) hstart

/-- A row of tokens that was cut off up to the end of the page nests. -/
theorem cut_nested (count : Nat) (hs : q.Sound source unclosed) (hq : q.Nests unclosed justOpened)
    {tokens : List Token} (h : (standard source file n).cut count q = (tokens, none)) :
    Token.Nested source unclosed justOpened tokens := by
  induction count generalizing q unclosed justOpened tokens with
  | zero => cases h
  | succ count ih =>
      unfold cut at h
      split at h
      · split at h
        · rename_i hopen
          cases h
          have hnames := hq.names
          rw [hopen] at hnames
          exact List.forall₂_nil_left_iff.1 hnames
        · cases h
      · split at h
        · cases h
        · rename_i t q' hnext
          have hspec := next_spec file n hs
          rw [hnext] at hspec
          obtain ⟨-, -, -, -, hs'⟩ := hspec
          obtain ⟨hfits, hq'⟩ := next_nests hs hq hnext
          cases hcut : (standard source file n).cut count q' with
          | mk tokens' failure =>
              rw [hcut] at h
              cases h
              exact ⟨hfits, ih hs' hq' hcut⟩

end Page

namespace Token

variable {source : Text} {unclosed : List Token} {justOpened : Bool} {before after : List Token}
  {s t : Token}

/-- The number of tokens of a kind. -/
def countKind (kind : Kind) (ts : List Token) : Nat := ts.countP (·.kind = kind)

/-- What stands behind some of the tokens of a row that nests is again a row that nests. -/
theorem Nested.of_append (h : Nested source unclosed justOpened (before ++ after)) :
    ∃ justOpened', Nested source (before.foldl track unclosed) justOpened' after := by
  induction before generalizing unclosed justOpened with
  | nil => exact ⟨justOpened, h⟩
  | cons t before ih => exact ih h.2

/-- Along a row that nests the open start tags are those that no end tag has closed. -/
theorem Nested.count_eq (h : Nested source unclosed justOpened (before ++ after)) :
    unclosed.length + countKind .startTag before =
      (before.foldl track unclosed).length + countKind .endTag before := by
  induction before generalizing unclosed justOpened with
  | nil => rfl
  | cons t before ih =>
      obtain ⟨hfits, hothers⟩ := h
      have hcount := ih hothers
      have htrack : (track unclosed t).length + (if t.kind = .endTag then 1 else 0) =
          unclosed.length + (if t.kind = .startTag then 1 else 0) := by
        unfold track
        split
        · rename_i hkind
          simp [hkind]
        · rename_i hkind
          obtain ⟨-, start, below, -, rfl, -⟩ := hfits.closes hkind
          simp [hkind]
        · rename_i hstart hend
          rw [if_neg hend, if_neg hstart]
      simp only [countKind, List.countP_cons, List.foldl_cons, decide_eq_true_eq] at hcount ⊢
      omega

/-- Behind a start tag no end tag follows. -/
theorem Nested.not_endTag (h : Nested source unclosed justOpened (s :: t :: after))
    (hs : s.kind = .startTag) : t.kind ≠ .endTag := by
  intro ht
  obtain ⟨-, hfits, -⟩ := h
  obtain ⟨hopened, -⟩ := hfits.closes ht
  rw [hs] at hopened
  cases hopened

end Token

namespace TokenStream

/-- At the start of a page no tag is open. -/
theorem nests_start (source : Text) (elEnabled : Bool) :
    (start source elEnabled).Nests [] false :=
  ⟨.nil, nofun⟩

/-- The tokens of a page that is cut to its end nest. -/
theorem nested_of_complete {source : Text} {settings : Settings} {file : Option String}
    {elEnabled : Option Bool} {tokens : List Token}
    (h : (ofSource source settings file elEnabled).complete = .ok tokens) :
    Token.Nested source [] false tokens := by
  obtain ⟨count, hcut⟩ := cut_eq_ofSource source settings file elEnabled
  obtain ⟨rfl, hnone⟩ := complete_eq_ok_iff.1 h
  rw [hnone] at hcut
  exact Page.cut_nested count (sound_start source _) (nests_start source _) hcut

/-- The tags of a page that was cut to its end are well nested: no beginning of the row of tokens
has more end tags than start tags, and altogether there are as many of both. Each end tag repeats
the name of the innermost start tag that is open in front of it. No end tag follows a start tag
directly, and no start tag has its end tag directly behind it in the source: such a pair is one
empty tag, which is a start tag that either a slash or the end tag of its own name closes. -/
theorem tags_nest {source : Text} {settings : Settings} {file : Option String}
    {elEnabled : Option Bool} {tokens : List Token}
    (h : (ofSource source settings file elEnabled).complete = .ok tokens) :
    (∀ before after, tokens = before ++ after →
      Token.countKind .endTag before ≤ Token.countKind .startTag before) ∧
    Token.countKind .endTag tokens = Token.countKind .startTag tokens ∧
    (∀ before t after, tokens = before ++ t :: after → t.kind = .endTag →
      ∃ start below name, Token.unclosed before = start :: below ∧ start.Opens name ∧
        t.Closes name) ∧
    (∀ before s t after, tokens = before ++ s :: t :: after → s.kind = .startTag →
      t.kind ≠ .endTag) ∧
    (∀ t ∈ tokens, t.kind = .startTag → ∃ name, t.Opens name ∧
      ∀ ending rest, Text.EndsTag name ending → source.drop t.stop ≠ ending ++ rest) ∧
    ∀ t ∈ tokens, t.kind = .emptyTag → ∃ name, t.OpensAndCloses name := by
  have hnested := nested_of_complete h
  have hfits : ∀ before t after, tokens = before ++ t :: after →
      ∃ justOpened, t.Fits source (Token.unclosed before) justOpened := by
    rintro before t after rfl
    obtain ⟨justOpened, hfits, -⟩ := hnested.of_append
    exact ⟨justOpened, hfits⟩
  refine ⟨?_, ?_, ?_, ?_, ?_, ?_⟩
  · rintro before after rfl
    have hcount := hnested.count_eq
    rw [List.length_nil] at hcount
    omega
  · -- at the end no start tag is open
    rw [← List.append_nil tokens] at hnested
    obtain ⟨justOpened, hopen⟩ := hnested.of_append
    have hcount := hnested.count_eq
    rw [show tokens.foldl Token.track [] = [] from hopen, List.length_nil] at hcount
    omega
  · intro before t after htokens hkind
    obtain ⟨justOpened, hfit⟩ := hfits before t after htokens
    exact (hfit.closes hkind).2
  · rintro before s t after rfl hkind
    obtain ⟨justOpened, hbehind⟩ := hnested.of_append
    exact hbehind.not_endTag hkind
  · intro t ht hkind
    obtain ⟨before, after, htokens⟩ := List.append_of_mem ht
    obtain ⟨justOpened, hfit⟩ := hfits before t after htokens
    exact hfit.opens hkind
  · intro t ht hkind
    obtain ⟨before, after, htokens⟩ := List.append_of_mem ht
    obtain ⟨justOpened, hfit⟩ := hfits before t after htokens
    exact hfit.both hkind

/-- A tag in another one: the inner tag is closed at once, the outer one is not. -/
theorem tags_nest_of_action :
    let outer : Token := ⟨.startTag, "<a:b x='1'>".toList, 0⟩
    let inner : Token := ⟨.emptyTag, "<c:d></c:d >".toList, 11⟩
    let ending : Token := ⟨.endTag, "</a:b>".toList, 23⟩
    (ofSource "<a:b x='1'><c:d></c:d ></a:b>".toList {} none none).complete =
        .ok [outer, inner, ending] ∧
      ∃ start below name, Token.unclosed [outer, inner] = start :: below ∧ start.Opens name ∧
        ending.Closes name := by
  intro outer inner ending
  have hcomplete : (ofSource "<a:b x='1'><c:d></c:d ></a:b>".toList {} none none).complete =
      .ok [outer, inner, ending] := by
    decide +kernel
  obtain ⟨-, -, hcloses, -⟩ := tags_nest hcomplete
  exact ⟨hcomplete, hcloses [outer, inner] ending [] rfl rfl⟩

end TokenStream

end Stencil
