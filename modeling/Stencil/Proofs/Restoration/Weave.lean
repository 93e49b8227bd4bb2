import Stencil.Proofs.Placeholder.Finding

/-!
# Placeholders with plain text between them

A text in which proper placeholders stand between plain texts. What is found first in it is the
first of them, though not always exactly as it was put there: a comment takes a brace at the end of
the text in front of it, and a condition takes a comment of the next placeholder if nothing but
white space stands between. `next?_woven` says what is found, and what is left of the text.
-/

set_option autoImplicit false

namespace Stencil

open Placeholder

/-- Texts with pieces between them. -/
def Text.weave : List Text → List Text → Text
  | [], _ => []
  | gap :: _, [] => gap
  | gap :: gaps, piece :: pieces => gap ++ piece ++ weave gaps pieces

/-- A placeholder and the text in front of it. -/
abbrev Item := Text × Found

/-- Placeholders, each behind its text, and the text behind the last. -/
def woven : List Item → Text → Text
  | [], last => last
  | (gap, f) :: items, last => gap ++ (f.text ++ woven items last)

/-- Placeholders in front of a weave make a longer weave. -/
theorem woven_weave (items : List Item) (gaps pieces : List Text) :
    woven items (Text.weave gaps pieces) =
      Text.weave (items.map (·.1) ++ gaps) (items.map (·.2.text) ++ pieces) := by
  induction items with
  | nil => rfl
  | cons item items ih =>
      simp only [woven, ih, List.map_cons, List.cons_append, Text.weave, List.append_assoc]

/-- Placeholders behind their texts are a weave of both. -/
theorem woven_eq_weave (items : List Item) (last : Text) :
    woven items last = Text.weave (items.map (·.1) ++ [last]) (items.map (·.2.text)) := by
  have hweave := woven_weave items [last] []
  rw [List.append_nil] at hweave
  exact hweave

/-- Two rows of placeholders are woven one behind the other. -/
theorem woven_append (items items' : List Item) (last : Text) :
    woven (items ++ items') last = woven items (woven items' last) := by
  rw [woven_eq_weave items' last, woven_weave, woven_eq_weave, List.map_append, List.map_append,
    List.append_assoc]

/-- The texts are plain and the placeholders proper. -/
def ProperItems (items : List Item) : Prop := ∀ item ∈ items, Text.Plain item.1 ∧ item.2.Proper

section Woven

variable {items : List Item} {last : Text}

/-- The first placeholder is proper behind plain text, and so are the others. -/
theorem ProperItems.of_cons {item : Item} (h : ProperItems (item :: items)) :
    (Text.Plain item.1 ∧ item.2.Proper) ∧ ProperItems items :=
  ⟨h item (List.mem_cons_self ..), fun i hi => h i (List.mem_cons_of_mem _ hi)⟩

/-- If there is a sentinel in it, a woven text has a first placeholder, whose first sentinel it
is. -/
theorem woven_sentinel (hitems : ProperItems items) (hlast : Text.Plain last) {before rest : Text}
    {c : Char} (hbefore : Text.Plain before) (hc : isSentinel c = true)
    (h : woven items last = before ++ c :: rest) :
    ∃ gap g items' front, items = (gap, g) :: items' ∧ Found.Front g front ∧
      before = gap ++ front ∧ c = g.family.sentinel := by
  cases items with
  | nil =>
      have hmem : c ∈ last := by
        rw [woven] at h
        rw [h]
        simp
      rw [hlast c hmem] at hc
      cases hc
  | cons item items =>
      obtain ⟨gap, g⟩ := item
      obtain ⟨⟨hgap, hg⟩, -⟩ := hitems.of_cons
      obtain ⟨front, back, hfront, htext⟩ := hg.front
      have hsplit : (gap ++ front) ++ g.family.sentinel :: (back ++ woven items last) =
          before ++ c :: rest := by
        rw [← h, woven, htext]
        simp
      obtain ⟨heq, hsentinel, -⟩ := Text.cancel (hgap.append hfront.plain) hbefore
        (Family.isSentinel_sentinel _) hc hsplit
      exact ⟨gap, g, items, front, rfl, hfront, heq.symm, hsentinel.symm⟩

/-- What is woven does not start with a filler of line comments. -/
theorem head_woven (hitems : ProperItems items) (hlast : Text.Plain last) :
    (woven items last).head? ≠ some Sentinel.comment := by
  intro hhead
  obtain ⟨rest, hrest⟩ : ∃ rest, woven items last = [] ++ Sentinel.comment :: rest := by
    cases hwoven : woven items last with
    | nil =>
        rw [hwoven] at hhead
        cases hhead
    | cons c rest =>
        rw [hwoven] at hhead
        cases hhead
        exact ⟨rest, rfl⟩
  obtain ⟨gap, g, items', front, -, hfront, hnil, hsentinel⟩ :=
    woven_sentinel hitems hlast Text.plain_nil (by decide) hrest
  have hempty : front = [] := (List.append_eq_nil_iff.1 hnil.symm).2
  have hfamily : g.family = .comment := Family.sentinel_inj hsentinel.symm
  have hsigns : Text.signs front = [] := by
    rw [hempty]
    rfl
  rcases hfront.signs with ⟨hF, -, -⟩ | ⟨-, -, lead, hx, -⟩ | ⟨-, hx⟩ | ⟨hF, -⟩
  · rw [hfamily] at hF
    cases hF
  · rw [hsigns] at hx
    exact absurd (congrArg List.length hx) (by simp)
  · rw [hsigns] at hx
    cases hx
  · rw [hfamily] at hF
    cases hF

/-- Where a comment of sentinels stands behind white space, the first placeholder starts with as
much of it as lies in front of its first sentinel. -/
theorem front_of_isTrail (hitems : ProperItems items) (hlast : Text.Plain last) {filler : Char}
    (hblank : Text.isBlank filler = false) (hfiller : isSentinel filler = true) {x y : Text}
    (h : woven items last = x ++ y) (hx : IsTrail filler x) :
    ∃ gap g items' front, items = (gap, g) :: items' ∧ Found.Front g front ∧
      filler = g.family.sentinel ∧ "/*".toList = Text.signs gap ++ Text.signs front := by
  obtain ⟨space, core, hspace, hcore, rfl⟩ := hx
  obtain ⟨space', back, hsplit, hspace'⟩ := hcore.split hblank
  have hplain : Text.Plain (space ++ ("/*".toList ++ space')) :=
    hspace.plain.append ((Text.plain_of_all (by decide)).append hspace'.plain)
  have hrest : woven items last = (space ++ ("/*".toList ++ space')) ++ filler :: (back ++ y) := by
    rw [h, hsplit]
    simp
  obtain ⟨gap, g, items', front, hsome, hfront, hbefore, hsentinel⟩ :=
    woven_sentinel hitems hlast hplain hfiller hrest
  refine ⟨gap, g, items', front, hsome, hfront, hsentinel, ?_⟩
  rw [← Text.signs_append, ← hbefore, Text.signs_append, Text.signs_append,
    Text.signs_of_blanks hspace, Text.signs_of_blanks hspace']
  decide

/-- No placeholder starts with a comment of the fillers of identifiers. -/
theorem not_isTrail_identifier (hitems : ProperItems items) (hlast : Text.Plain last) {x y : Text}
    (h : woven items last = x ++ y) : ¬ IsTrail Sentinel.identifierEnd x := by
  intro hx
  obtain ⟨gap, g, items', front, -, -, hsentinel, -⟩ :=
    front_of_isTrail hitems hlast (by decide) (by decide) h hx
  cases hfamily : g.family <;> rw [hfamily] at hsentinel <;> exact absurd hsentinel (by decide)

/-- Nothing trails a proper placeholder that is a comment itself. -/
theorem Found.Proper.trail_eq_nil {f : Found} (hf : f.Proper)
    (hcore : IsComment f.family.filler f.core) : f.trail = [] := by
  cases hf with
  | condition hcondition => exact absurd hcondition hcore.not_isCondition
  | comment => rfl
  | lineComment => rfl
  | name hname => exact absurd hname hcore.not_isName

/-- Behind white space a comment is found in one way only. -/
theorem cancel_comment {filler : Char} (hfiller : filler ≠ '*') {space space' core core' : Text}
    (hspace : Text.Blanks space) (hspace' : Text.Blanks space') (hcore : IsComment filler core)
    (hcore' : IsComment filler core') {y y' : Text}
    (h : space ++ (core ++ y) = space' ++ (core' ++ y')) :
    space = space' ∧ core = core' ∧ y = y' := by
  have hscan : commentOf filler (core ++ y) = some (core, y) :=
    (commentOf_eq_some_iff hfiller).2 ⟨hcore, rfl⟩
  have hscan' : commentOf filler (core' ++ y') = some (core', y') :=
    (commentOf_eq_some_iff hfiller).2 ⟨hcore', rfl⟩
  have hblank : ∀ {t : Text}, Text.Blanks t → ∀ c ∈ t, (!Text.isBlank c) = false := by
    intro t ht c hc
    simp [ht c hc]
  obtain ⟨tail, htail⟩ : ∃ tail, core ++ y = '/' :: tail := by
    obtain ⟨body, -, rfl⟩ := hcore
    exact ⟨_, rfl⟩
  obtain ⟨tail', htail'⟩ : ∃ tail, core' ++ y' = '/' :: tail := by
    obtain ⟨body, -, rfl⟩ := hcore'
    exact ⟨_, rfl⟩
  rw [htail, htail'] at h
  obtain ⟨hsame, -, heq⟩ :=
    Text.cancel (hblank hspace) (hblank hspace') (by decide) (by decide) h
  rw [htail, heq, ← htail', hscan', Option.some.injEq, Prod.mk.injEq] at hscan
  exact ⟨hsame, hscan.1.symm, hscan.2.symm⟩

/-- Where a comment of the fillers of openings stands behind white space, it is a placeholder that
opens no block. -/
theorem isTrail_opening (hitems : ProperItems items) (hlast : Text.Plain last) {x y : Text}
    (h : woven items last = x ++ y) (hx : IsTrail Sentinel.opening x) :
    ∃ gap core items', items = (gap, ⟨.opening, [], core, []⟩) :: items' ∧ Text.Blanks gap ∧
      IsComment Sentinel.opening core ∧ x = gap ++ core ∧ y = woven items' last := by
  obtain ⟨gap, g, items', front, rfl, hfront, hsentinel, hsigns⟩ :=
    front_of_isTrail hitems hlast (by decide) (by decide) h hx
  have hfamily : g.family = .opening := Family.sentinel_inj hsentinel.symm
  obtain ⟨space, core, hspace, hcore, rfl⟩ := hx
  obtain ⟨⟨-, hg⟩, -⟩ := hitems.of_cons
  rcases hfront.signs with ⟨-, -, hy⟩ | ⟨-, hgcore, lead, hy, hlead⟩ | ⟨hF, -⟩ | ⟨hF, -⟩
  · rw [hy] at hsigns
    exact absurd (congrArg List.reverse hsigns) (by simp)
  · -- nothing but white space in front of the placeholder, and no brace at its start
    rw [hy, ← List.append_assoc, List.self_eq_append_left, List.append_eq_nil_iff] at hsigns
    obtain ⟨hgap, rfl⟩ := hsigns
    have hblanks : Text.Blanks gap := Text.blanks_of_signs hgap
    have hglead : g.lead = [] := by
      rcases hlead with ⟨-, hnil⟩ | ⟨mark, -, hcons, -⟩
      · exact hnil
      · cases hcons
    have hgtrail : g.trail = [] := hg.trail_eq_nil hgcore
    obtain ⟨family, lead, core', trail⟩ := g
    dsimp only at hfamily hglead hgtrail hgcore
    subst hfamily hglead hgtrail
    have hboth : gap ++ (core' ++ woven items' last) = space ++ (core ++ y) := by
      rw [woven] at h
      simpa [Found.text] using h
    obtain ⟨rfl, rfl, rfl⟩ := cancel_comment (by decide) hblanks hspace hgcore hcore hboth
    exact ⟨_, _, items', rfl, hblanks, hgcore, rfl, rfl⟩
  · rw [hfamily] at hF
    cases hF
  · rw [hfamily] at hF
    cases hF

end Woven

namespace Found

/-- A proper placeholder with a condition is an opening. -/
theorem Proper.family_of_isCondition {f : Found} (hf : f.Proper) (h : IsCondition f.core) :
    f.family = .opening := by
  cases hf with
  | condition => rfl
  | comment _ _ hcore => exact absurd h hcore.not_isCondition
  | lineComment hcore =>
      have hhead := h.head.symm.trans hcore.head
      exact absurd hhead (by decide)
  | name hcore =>
      have hhead := h.head.symm.trans hcore.head
      exact absurd hhead (by decide)

/-- A proper placeholder with a name is an identifier. -/
theorem Proper.family_of_isName {f : Found} (hf : f.Proper) (h : IsName f.core) :
    f.family = .identifier := by
  cases hf with
  | condition hcore =>
      have hhead := h.head.symm.trans hcore.head
      exact absurd hhead (by decide)
  | comment _ _ hcore => exact absurd h hcore.not_isName
  | lineComment hcore =>
      have hhead := h.head.symm.trans hcore.head
      exact absurd hhead (by decide)
  | name => rfl

/-- A comment remains proper with another brace in front of it. -/
theorem Proper.withLead {f : Found} (hf : f.Proper) (hcore : IsComment f.family.filler f.core)
    {mark : Char} (hmark : f.family.mark? = some mark) {lead : Text} (hlead : IsLead mark lead) :
    Proper ⟨f.family, lead, f.core, f.trail⟩ := by
  cases hf with
  | condition hcondition => exact absurd hcondition hcore.not_isCondition
  | comment hfamily => exact .comment hfamily (Or.inr ⟨mark, hmark, hlead⟩) hcore
  | lineComment => cases hmark
  | name hname => exact absurd hname hcore.not_isName

/-- A condition remains proper with another comment behind it. -/
theorem Proper.withTrail {f : Found} (hf : f.Proper) (hcore : IsCondition f.core) {trail : Text}
    (htrail : IsTrail Sentinel.opening trail) :
    Proper ⟨f.family, f.lead, f.core, trail⟩ := by
  cases hf with
  | condition => exact .condition hcore (Or.inr htrail)
  | comment _ _ hcomment => exact absurd hcore hcomment.not_isCondition
  | lineComment hline =>
      have hhead := hcore.head.symm.trans hline.head
      exact absurd hhead (by decide)
  | name hname =>
      have hhead := hcore.head.symm.trans hname.head
      exact absurd hhead (by decide)

end Found

/-- What a placeholder takes in front of it: the text that is left there, and its brace. -/
inductive Takes (gap : Text) (g : Found) : Text → Text → Prop
  | own : Takes gap g gap g.lead
  | brace {before lead : Text} {mark : Char} (hlead : g.lead = [])
      (hcore : IsComment g.family.filler g.core) (hmark : g.family.mark? = some mark)
      (htaken : IsLead mark lead) (hgap : gap = before ++ lead) : Takes gap g before lead

/-- Whether a condition takes the comment of the placeholder behind it for its own. -/
def Swallows (g : Found) (items : List Item) : Prop :=
  g.trail = [] ∧ IsCondition g.core ∧
    ∃ gap core items', items = (gap, ⟨.opening, [], core, []⟩) :: items' ∧ Text.Blanks gap ∧
      IsComment Sentinel.opening core

/-- What a placeholder takes behind it: its comment, and the text that is left there. -/
inductive Leaves (g : Found) (items : List Item) (last : Text) : Text → Text → Prop
  | own (hnot : ¬ Swallows g items) : Leaves g items last g.trail (woven items last)
  | comment {gap core : Text} {items' : List Item} (htrail : g.trail = [])
      (hcore : IsCondition g.core) (hitems : items = (gap, ⟨.opening, [], core, []⟩) :: items')
      (hgap : Text.Blanks gap) (hcomment : IsComment Sentinel.opening core) :
      Leaves g items last (gap ++ core) (woven items' last)

section Woven

variable {items : List Item} {last : Text}

/-- What a placeholder leaves behind it and what it took are all that stood there. -/
theorem Leaves.text_eq {g : Found} {trail after : Text} (h : Leaves g items last trail after) :
    trail ++ after = g.trail ++ woven items last := by
  cases h with
  | own => rfl
  | comment htrail hcore hitems =>
      rw [htrail, hitems, woven]
      simp [Found.text]

/-- What a placeholder takes behind it is proper, and the text behind that has nothing more for
it. -/
theorem exists_leaves (hitems : ProperItems items) (hlast : Text.Plain last) {g : Found}
    (hg : g.Proper) :
    ∃ trail after, Leaves g items last trail after ∧
      Found.Proper ⟨g.family, g.lead, g.core, trail⟩ ∧
      Found.Ends ⟨g.family, g.lead, g.core, trail⟩ after := by
  by_cases hswallows : Swallows g items
  · obtain ⟨htrail, hcore, gap, core, items', rfl, hgap, hcomment⟩ := hswallows
    have htaken : IsTrail Sentinel.opening (gap ++ core) := ⟨gap, core, hgap, hcomment, rfl⟩
    refine ⟨gap ++ core, woven items' last, .comment htrail hcore rfl hgap hcomment,
      hg.withTrail hcore htaken, ?_, head_woven hitems.of_cons.2 hlast⟩
    intro hnil
    exact absurd (List.append_eq_nil_iff.1 hnil).2 hcomment.ne_nil
  · refine ⟨g.trail, woven items last, .own hswallows, hg, ?_, head_woven hitems hlast⟩
    intro hnil hcore x y hxy htrail
    rcases hcore with hcore | hcore
    · have hfamily : g.family = .opening := hg.family_of_isCondition hcore
      dsimp only at htrail
      rw [hfamily] at htrail
      obtain ⟨gap, core, items', hsome, hgap, hcomment, -, -⟩ :=
        isTrail_opening hitems hlast hxy htrail
      exact hswallows ⟨hnil, hcore, gap, core, items', hsome, hgap, hcomment⟩
    · have hfamily : g.family = .identifier := hg.family_of_isName hcore
      dsimp only at htrail
      rw [hfamily] at htrail
      exact not_isTrail_identifier hitems hlast hxy htrail

/-- The first placeholder of a woven text is what is found first in it. -/
theorem next?_woven {gap : Text} {g : Found} (hitems : ProperItems ((gap, g) :: items))
    (hlast : Text.Plain last) :
    ∃ before lead trail after,
      next? (woven ((gap, g) :: items) last) =
        some (before, ⟨g.family, lead, g.core, trail⟩, after) ∧
      Takes gap g before lead ∧ Leaves g items last trail after := by
  obtain ⟨⟨hgap, hg⟩, hrest⟩ := hitems.of_cons
  dsimp only at hgap hg
  obtain ⟨trail, after, hleaves, hproper, hends⟩ := exists_leaves hrest hlast hg
  have htext : woven ((gap, g) :: items) last =
      gap ++ (g.lead ++ g.core ++ (trail ++ after)) := by
    rw [hleaves.text_eq, woven]
    simp [Found.text]
  by_cases hbrace : g.lead = [] ∧ IsComment g.family.filler g.core ∧
      ∃ mark, g.family.mark? = some mark ∧ ∃ before lead, gap = before ++ lead ∧ IsLead mark lead
  · obtain ⟨hnil, hcore, mark, hmark, before, lead, rfl, hlead⟩ := hbrace
    refine ⟨before, lead, trail, after, ?_, .brace hnil hcore hmark hlead rfl, hleaves⟩
    have hproper' : Found.Proper ⟨g.family, lead, g.core, trail⟩ :=
      hproper.withLead hcore hmark hlead
    have hends' : Found.Ends ⟨g.family, lead, g.core, trail⟩ after := ⟨hends.trail, hends.line⟩
    have hfound := next?_append hproper' hgap.of_append.1 hends' (by
      intro hempty
      obtain ⟨space, -, hcons⟩ := hlead
      rw [show lead = [] from hempty] at hcons
      cases hcons)
    rw [htext, hnil, ← hfound]
    simp [Found.text]
  · refine ⟨gap, g.lead, trail, after, ?_, .own, hleaves⟩
    have hfound := next?_append hproper hgap hends (by
      intro hnil hcore mark hmark x y hxy hlead
      exact hbrace ⟨hnil, hcore, mark, hmark, x, y, hxy, hlead⟩)
    rw [htext, ← hfound]
    simp [Found.text]

end Woven

end Stencil
