import Stencil.Proofs.Jsp.Recording

/-!
# Rows of attributes

The attributes of a tag or directive are read one behind the other (`Jsp.Row`). The names that may
be given once only are recorded in order, and a reading goes on as long as each of them is new. So
when it ends they are pairwise distinct, and when it finds a duplicate an attribute in front of it
has the name (`Jsp.readsRow`). Every tag and directive starts with no name recorded, which is why
the names are those of its own attributes (`Jsp.readsTag`, `Jsp.admits_of_directive`,
`Jsp.repeats_of_faulty_directive`).
-/

set_option autoImplicit false

namespace Stencil.Jsp

open Matcher (hooked many maybe oneOf ref sequence)

variable {view left : View} {c d : Cursor} {el : Bool} {b : Bearer} {verdict : Verdict}
  {as : List Attribute}

/-! ## Rows in a text -/

/-- Attributes one behind the other at the start of a text, and what stands behind them. White space
sets each of them off, and each of them is read with the switch as those before it left it. -/
inductive Row (b : Bearer) : Bool → Text → List Attribute → Text → Prop
  | nil (el : Bool) (t : Text) : Row b el t [] t
  | cons {el : Bool} {t rest behind : Text} {a : Attribute} {as : List Attribute}
      (hblank : t.head?.any Text.isXmlSpace = true) (hfirst : attribute? el t = some (a, rest))
      (hothers : Row b (b.switch el a) rest as behind) : Row b el t (a :: as) behind

/-- The names of attributes that may be given once only. -/
def Bearer.uniqueNames (b : Bearer) (as : List Attribute) : List Text :=
  (as.map (·.name)).filter b.isUnique

/-- Recording one name and then the unique names behind it is recording those of the whole row. -/
theorem Bearer.recorded_append (b : Bearer) (a : Attribute) (as : List Attribute)
    (names : List Text) :
    b.recorded a.name names ++ b.uniqueNames as = names ++ b.uniqueNames (a :: as) := by
  unfold recorded uniqueNames
  cases hunique : b.isUnique a.name <;> simp [hunique]

/-- A unique name of a row is that of its first attribute or stands behind it. -/
theorem Bearer.mem_uniqueNames_cons {a : Attribute} {name : Text} :
    name ∈ b.uniqueNames (a :: as) ↔
      (name = a.name ∧ b.isUnique a.name = true) ∨ name ∈ b.uniqueNames as := by
  simp only [uniqueNames, List.map_cons, List.mem_filter, List.mem_cons]
  constructor
  · rintro ⟨rfl | hmem, hunique⟩
    · exact .inl ⟨rfl, hunique⟩
    · exact .inr ⟨hmem, hunique⟩
  · rintro (⟨rfl, hunique⟩ | ⟨hmem, hunique⟩)
    · exact ⟨.inl rfl, hunique⟩
    · exact ⟨.inr hmem, hunique⟩

/-- What reading a row comes to: it ends, and the names that may be given once only are distinct
from each other and from those recorded before; or the name behind a row is found to be recorded
before the row or in it. -/
inductive ReadsRow (b : Bearer) (el : Bool) (view : View) (c : Cursor) : Verdict → Prop
  | ends {as : List Attribute} {d : Cursor} {left : View} (hrow : Row b el c.rest as d.rest)
      (hpast : d.past = 0) (hnames : attributeNames left = attributeNames view ++ b.uniqueNames as)
      (hdistinct : (b.uniqueNames as).Nodup)
      (hnew : ∀ name ∈ b.uniqueNames as, name ∉ attributeNames view) :
      ReadsRow b el view c (.ends d left)
  | faults {as : List Attribute} {front blanks name rest : Text}
      (hrow : Row b el c.rest as (blanks ++ (name ++ rest))) (nonempty : blanks ≠ [])
      (hblanks : ∀ x ∈ blanks, Text.isXmlSpace x = true) (hunique : b.isUnique name = true)
      (hold : name ∈ attributeNames view ++ b.uniqueNames as)
      (hrest : c.rest = front ++ (name ++ rest)) :
      ReadsRow b el view c (.faults ⟨.duplicateAttribute name, c.position + front.length⟩)

/-- An attribute in front of a row. -/
theorem ReadsRow.cons {u : Text} {a : Attribute} (h : ReadsRow b (b.switch el a) left d verdict)
    (hblank : c.rest.head?.any Text.isXmlSpace = true)
    (hfirst : attribute? el c.rest = some (a, d.rest)) (hleads : c.Leads u d) (hpast : c.past = 0)
    (hnew : b.isUnique a.name = true → a.name ∉ attributeNames view)
    (hnames : attributeNames left = b.recorded a.name (attributeNames view)) :
    ReadsRow b el view c verdict := by
  have hrecorded {name : Text} (hmem : name ∈ attributeNames view) :
      name ∈ attributeNames left := by
    rw [hnames, Bearer.recorded]
    split
    · exact List.mem_append_left _ hmem
    · exact hmem
  have hself (hunique : b.isUnique a.name = true) : a.name ∈ attributeNames left := by
    rw [hnames, Bearer.recorded, if_pos hunique]
    exact List.mem_append_right _ (List.mem_singleton_self _)
  cases h with
  | @ends as e left' hrow hpast' hnames' hdistinct hnew' =>
      refine .ends (.cons hblank hfirst hrow) hpast' ?_ ?_ ?_
      · rw [hnames', hnames, b.recorded_append]
      · unfold Bearer.uniqueNames at hdistinct ⊢
        rw [List.map_cons, List.filter_cons]
        split
        · rename_i hunique
          exact List.nodup_cons.2 ⟨fun hmem => hnew' _ hmem (hself hunique), hdistinct⟩
        · exact hdistinct
      · intro name hmem hold
        rcases Bearer.mem_uniqueNames_cons.1 hmem with ⟨rfl, hunique⟩ | hmem
        · exact hnew hunique hold
        · exact hnew' name hmem (hrecorded hold)
  | @faults as front blanks name rest hrow nonempty hblanks hunique hold hrest =>
      have hposition : d.position + front.length = c.position + (u ++ front).length := by
        simp only [Cursor.position, hpast, hleads.past_eq hpast, hleads.offset_eq,
          List.length_append]
        omega
      rw [hposition]
      refine .faults (.cons hblank hfirst hrow) nonempty hblanks hunique ?_ ?_
      · rwa [← b.recorded_append, ← hnames]
      · rw [hleads.rest_eq, hrest, List.append_assoc]

/-- Attributes are read as long as there are any and their names are new. -/
theorem readsRow (hel : view elEnabledKey = some (.flag el)) (hpast : c.past = 0)
    (h : (maybe (many (ref b.attributeRule))).Parses rules view c verdict) :
    ReadsRow b el view c verdict := by
  induction hn : c.rest.length using Nat.strongRecOn generalizing c view el with
  | ind n ih =>
      rcases Matcher.parses_maybe_iff.1 h with ⟨-, rfl⟩ | ⟨hmany, hmatches⟩
      · exact .ends (.nil el c.rest) hpast (by simp [Bearer.uniqueNames]) List.nodup_nil (by
          simp [Bearer.uniqueNames])
      rw [Matcher.parses_many_iff (takes_ref _) hpast] at hmany
      rcases Matcher.parses_sequence_cons_iff.1 hmany with
        ⟨c₁, view₁, hfirst, hothers⟩ | ⟨hfirst, hstays⟩
      · have hothers := Matcher.parses_sequence_singleton_iff.1 hothers
        obtain ⟨x, t, htakes⟩ := takes_ref _ hpast hfirst
        have hlt : c₁.rest.length < n := by
          rw [← hn, htakes.rest_eq]
          simp
        cases readsAttribute hel hpast hfirst with
        | @ends u a _ _ hblank hleads hvalue hattribute hnew hnames hswitch =>
            have hattribute := hattribute _ hvalue
            rw [← hleads.rest_eq] at hattribute
            exact (ih _ hlt hswitch (hleads.past_eq hpast) hothers rfl).cons hblank hattribute
              hleads hpast hnew hnames
      · cases readsAttribute hel hpast hfirst with
        | ends => exact absurd rfl (hstays _ _)
        | fails => exact absurd rfl hmatches
        | @faults blanks name rest nonempty hblanks hrest hunique hold =>
            have hrow : Row b el c.rest [] (blanks ++ (name ++ rest)) := hrest ▸ .nil el c.rest
            exact .faults hrow nonempty hblanks hunique (List.mem_append_left _ hold) hrest

/-! ## Tags and directives -/

/-- How what bears attributes starts: the text in front of the attributes. -/
def Bearer.Opens : Bearer → Text → Prop
  | page, t => ∃ blanks, (∀ x ∈ blanks, Text.isXmlSpace x = true) ∧
      t = "<%@".toList ++ (blanks ++ "page".toList)
  | library, t => ∃ blanks, (∀ x ∈ blanks, Text.isXmlSpace x = true) ∧
      t = "<%@".toList ++ (blanks ++ "taglib".toList)
  | tag, t => ∃ name, Text.IsQName name ∧ t = '<' :: name

/-- The rules for the attributes of one bearer: no name is given twice, unless it is one that may
be; and a library directive names its prefix, and either its address or its directory. -/
def Bearer.Admits : Bearer → List Attribute → Prop
  | page, as => ((as.map (·.name)).filter fun name => name != "import".toList).Nodup
  | library, as => (as.map (·.name)).Nodup ∧ "prefix".toList ∈ as.map (·.name) ∧
      ("uri".toList ∈ as.map (·.name) ↔ "tagdir".toList ∉ as.map (·.name))
  | tag, as => (as.map (·.name)).Nodup

/-- A text starts with a tag or directive that has attributes, and what stands behind the
attributes. -/
def Bears (b : Bearer) (el : Bool) (t : Text) (as : List Attribute) (behind : Text) : Prop :=
  ∃ opening inside, b.Opens opening ∧ t = opening ++ inside ∧ Row b el inside as behind

/-- A text starts with a tag or directive, and behind its front a name stands that one of the
attributes in the front has. White space sets the name off. -/
def Repeats (b : Bearer) (el : Bool) (t front name : Text) : Prop :=
  ∃ as blanks rest, Bears b el t as (blanks ++ (name ++ rest)) ∧ blanks ≠ [] ∧
    (∀ x ∈ blanks, Text.isXmlSpace x = true) ∧ t = front ++ (name ++ rest) ∧
    b.isUnique name = true ∧ name ∈ as.map (·.name)

section Reset

/-- No names are recorded when the attributes of a tag are about to be read. -/
theorem attributeNames_enter : attributeNames (view.enter [resetAttributeNames]) = [] :=
  attributeNames_set []

/-- Forgetting the recorded names leaves the switch of the expression language alone. -/
theorem switch_enter : view.enter [resetAttributeNames] elEnabledKey = view elEnabledKey :=
  switch_set []

variable {opening : Text}

/-- A row that ends gives a bearer its attributes, with distinct unique names. -/
theorem ReadsRow.bears (h : ReadsRow b el view d verdict) (hnone : attributeNames view = [])
    (hopens : b.Opens opening) (hleads : c.Leads opening d) {stop : Cursor}
    (hends : verdict = .ends stop left) :
    ∃ as, Bears b el c.rest as stop.rest ∧ (b.uniqueNames as).Nodup ∧
      attributeNames left = b.uniqueNames as ∧ stop.past = 0 := by
  subst hends
  cases h with
  | @ends as _ _ hrow hpast hnames hdistinct hnew =>
      refine ⟨as, ⟨opening, d.rest, hopens, hleads.rest_eq, hrow⟩, hdistinct, ?_, hpast⟩
      rw [hnames, hnone, List.nil_append]

/-- A row that fails for a name tells which name of the text stands there twice. -/
theorem ReadsRow.repeats (h : ReadsRow b el view d verdict) (hnone : attributeNames view = [])
    (hopens : b.Opens opening) (hleads : c.Leads opening d) (hpast : c.past = 0) {f : Fault}
    (hfaults : verdict = .faults f) :
    ∃ front name, Repeats b el c.rest front name ∧
      f = ⟨.duplicateAttribute name, c.position + front.length⟩ := by
  subst hfaults
  cases h with
  | @faults as front blanks name rest hrow nonempty hblanks hunique hold hrest =>
      rw [hnone, List.nil_append, Bearer.uniqueNames, List.mem_filter] at hold
      refine ⟨opening ++ front, name, ⟨as, blanks, rest, ⟨opening, d.rest, hopens, hleads.rest_eq,
        hrow⟩, nonempty, hblanks, ?_, hunique, hold.1⟩, ?_⟩
      · rw [hleads.rest_eq, hrest, List.append_assoc]
      · simp only [Cursor.position, hpast, hleads.past_eq hpast, hleads.offset_eq,
          List.length_append]
        congr 1
        omega

end Reset

/-! ### Tags -/

/-- What reading the start of a tag comes to. -/
inductive ReadsTag (el : Bool) (c : Cursor) : Verdict → Prop
  | ends {as : List Attribute} {blanks : Text} {d : Cursor} {left : View}
      (hbears : Bears .tag el c.rest as (blanks ++ d.rest))
      (hblanks : ∀ x ∈ blanks, Text.isXmlSpace x = true)
      (hadmits : Bearer.tag.Admits as) : ReadsTag el c (.ends d left)
  | fails : ReadsTag el c .fails
  | faults {front name : Text} (hrepeats : Repeats .tag el c.rest front name) :
      ReadsTag el c (.faults ⟨.duplicateAttribute name, c.position + front.length⟩)

/-- Where every name may be given once only all of them are. -/
theorem Bearer.uniqueNames_eq (h : b ≠ .page) (as : List Attribute) :
    b.uniqueNames as = as.map (·.name) := by
  cases b with
  | page => exact absurd rfl h
  | library | tag => exact List.filter_eq_self.2 fun _ _ => rfl

/-- The name of a start tag is read whole and remembered, or it is not read. -/
theorem actionName_cases (hpast : c.past = 0) (h : (ref .actionName).Parses rules view c verdict) :
    verdict = .fails ∨ ∃ name d, Text.IsQName name ∧ c.Leads name d ∧
      verdict = .ends d (view.edits [.set tagNameKey (.text name)]) := by
  rw [parses_ref_iff, production] at h
  cases verdict with
  | fails => exact .inl rfl
  | ends d left =>
      obtain ⟨view₁, hbody, hleave⟩ := Matcher.parses_hooked_ends_iff.1 h
      obtain ⟨rfl, name, hname, hleads⟩ :=
        leads_qName (Matcher.parses_sequence_singleton_iff.1 hbody)
      cases hleave
      exact .inr ⟨name, d, hname, hleads, by rw [hleads.upTo_eq hpast]⟩
  | faults f =>
      rcases Matcher.parses_hooked_faults_iff.1 h with hbody | ⟨d, view₁, hbody, hleave⟩
      · exact absurd (Matcher.parses_sequence_singleton_iff.1 hbody)
          (not_faults_of_plain (plain_ref (by decide)) hpast f)
      · cases hleave

/-- White space that may be missing is read without recording anything. -/
theorem plain_maybe_space : (maybe (ref .space) : Production).Plain (Switched el) IsPlain := by
  rw [Matcher.Plain]
  exact plain_ref (by decide)

/-- The attributes of a start tag are read as a row. -/
theorem readsRow_of_actionAttributes (hel : view elEnabledKey = some (.flag el))
    (hpast : c.past = 0) (h : (maybe (ref .actionAttributes)).Parses rules view c verdict) :
    ReadsRow .tag el view c verdict := by
  refine readsRow hel hpast (Matcher.parses_maybe_iff.2 ?_)
  have h := Matcher.parses_maybe_iff.1 h
  rwa [parses_ref_iff, parses_ref_iff] at h

/-- A start tag is read behind its name with no attribute recorded, or it is not read. -/
theorem behind_actionName (hpast : c.past = 0)
    (h : (rule .actionStart).Parses rules view c verdict) :
    verdict = .fails ∨ ∃ name d left, Text.IsQName name ∧ c.Leads ('<' :: name) d ∧
      attributeNames left = [] ∧ left elEnabledKey = view elEnabledKey ∧
      (sequence [maybe (ref .actionAttributes), maybe (ref .space)]).Parses rules left d
        verdict := by
  rw [rule, Matcher.parses_labelled_iff, production, Matcher.parses_hooked_nil_iff] at h
  rcases behind_plain (plain_ref (by decide)) hpast h with rfl | ⟨c₁, hpast₁, hbracket, h₁⟩
  · exact .inl rfl
  rw [parses_ref_iff, production, Matcher.parses_pattern_iff, Matcher.ofStop_eq_ends_iff]
    at hbracket
  have hleads := Cursor.leads_textBefore (by decide) hbracket.1
  rcases Matcher.parses_sequence_cons_iff.1 h₁ with ⟨d, left, hname, hothers⟩ | ⟨hname, hstays⟩
  · rcases actionName_cases hpast₁ hname with heq | ⟨name, _, hqName, hleads', heq⟩
    · cases heq
    cases heq
    -- the name of the tag is recorded elsewhere
    refine .inr ⟨name, d, _, hqName, hleads.trans hleads', ?_, ?_, hothers⟩
    · simp [attributeNames, View.edits, View.edit, View.enter, resetAttributeNames, Value.members,
        attributeNamesKey, tagNameKey]
    · simp [View.edits, View.edit, View.enter, resetAttributeNames, attributeNamesKey,
        elEnabledKey, tagNameKey]
  · rcases actionName_cases hpast₁ hname with rfl | ⟨name, _, -, -, rfl⟩
    · exact .inl rfl
    · exact absurd rfl (hstays _ _)

/-- The start of a tag is read as its name and a row of attributes. -/
theorem readsTag (hel : view elEnabledKey = some (.flag el)) (hpast : c.past = 0)
    (h : (rule .actionStart).Parses rules view c verdict) : ReadsTag el c verdict := by
  rcases behind_actionName hpast h with
    rfl | ⟨name, c₁, view₁, hqName, hleads, hnone, hswitch, h₁⟩
  · exact .fails
  have hopens : Bearer.tag.Opens ('<' :: name) := ⟨name, hqName, rfl⟩
  have hrow {verdict : Verdict}
      (h : (maybe (ref .actionAttributes)).Parses rules view₁ c₁ verdict) :
      ReadsRow .tag el view₁ c₁ verdict :=
    readsRow_of_actionAttributes (hswitch.trans hel) (hleads.past_eq hpast) h
  rcases Matcher.parses_sequence_cons_iff.1 h₁ with
    ⟨c₂, view₂, hattributes, h₂⟩ | ⟨hattributes, hstays⟩
  · obtain ⟨as, hbears, hdistinct, -, hpast₂⟩ := (hrow hattributes).bears hnone hopens hleads rfl
    rw [Bearer.uniqueNames_eq (b := .tag) (by decide)] at hdistinct
    rcases behind_plain plain_maybe_space hpast₂ h₂ with rfl | ⟨c₃, -, hspace, h₃⟩
    · exact .fails
    obtain ⟨blanks, hblanks, hleads'⟩ := leads_maybe_space hspace
    rw [Matcher.parses_sequence_nil_iff.1 h₃]
    exact .ends (hleads'.rest_eq ▸ hbears) hblanks hdistinct
  · cases verdict with
    | ends d left => exact absurd rfl (hstays d left)
    | fails => exact .fails
    | faults f =>
        obtain ⟨front, name', hrepeats, rfl⟩ :=
          (hrow hattributes).repeats hnone hopens hleads hpast rfl
        exact .faults hrepeats

/-! ### Directives -/

section Directives

variable {word : String} {nonempty : word.toList ≠ []} {onMatch : List MatchHook} {r : Rule}
  {front : Text} {e : Cursor} {f : Fault}

/-- A directive is read as its word and a row of attributes, or not at all. -/
theorem readsRow_of_word (hel : view elEnabledKey = some (.flag el)) (hpast : c.past = 0)
    (h : (sequence [text word nonempty, many (ref b.attributeRule)]).Parses rules view c verdict) :
    verdict = .fails ∨ ∃ d, c.Leads word.toList d ∧ ReadsRow b el view d verdict := by
  rcases behind_plain (m := text word nonempty) trivial hpast h with
    rfl | ⟨d, hpast', hword, h⟩
  · exact .inl rfl
  have hmany := Matcher.parses_sequence_singleton_iff.1 h
  have hleads : c.Leads word.toList d := Matcher.leads_of_parses_literal hword
  have hrow (hmatches : verdict ≠ .fails) : ReadsRow b el view d verdict :=
    readsRow hel hpast' (Matcher.parses_maybe_iff.2 (.inr ⟨hmany, hmatches⟩))
  cases verdict with
  | fails => exact .inl rfl
  | ends stop left => exact .inr ⟨d, hleads, hrow nofun⟩
  | faults f => exact .inr ⟨d, hleads, hrow nofun⟩

/-- A directive of a sort with attributes, behind the front `<%@`. -/
theorem bears_of_directive
    (hr : production r = hooked [resetAttributeNames] onMatch
      (sequence [text word nonempty, many (ref b.attributeRule)]))
    (hopens : b.Opens (front ++ word.toList)) (hleads : e.Leads front c)
    (hel : view elEnabledKey = some (.flag el)) (hpast : c.past = 0)
    (h : (ref r).Parses rules view c (.ends d left)) :
    ∃ as view₁, Bears b el e.rest as d.rest ∧ (b.uniqueNames as).Nodup ∧
      attributeNames view₁ = b.uniqueNames as ∧
      view₁.leave (c.upTo d) c.position onMatch = .ok left := by
  rw [parses_ref_iff, hr] at h
  obtain ⟨view₁, hbody, hleave⟩ := Matcher.parses_hooked_ends_iff.1 h
  rcases readsRow_of_word (switch_enter.trans hel) hpast hbody with heq | ⟨d₁, hleads₁, hrow⟩
  · cases heq
  obtain ⟨as, hbears, hdistinct, hnames, -⟩ :=
    hrow.bears attributeNames_enter hopens (hleads.trans hleads₁) rfl
  exact ⟨as, view₁, hbears, hdistinct, hnames, hleave⟩

/-- A fault in a directive is a repeated name, or comes from the check at its end. -/
theorem repeats_of_directive
    (hr : production r = hooked [resetAttributeNames] onMatch
      (sequence [text word nonempty, many (ref b.attributeRule)]))
    (hopens : b.Opens (front ++ word.toList)) (hleads : e.Leads front c) (hpast : e.past = 0)
    (hel : view elEnabledKey = some (.flag el))
    (h : (ref r).Parses rules view c (.faults f)) :
    (∃ t name, Repeats b el e.rest t name ∧ f = ⟨.duplicateAttribute name, e.position + t.length⟩) ∨
      ∃ (t : Text) (view₁ : View), view₁.leave t c.position onMatch = .error f := by
  rw [parses_ref_iff, hr] at h
  rcases Matcher.parses_hooked_faults_iff.1 h with hbody | ⟨d, view₁, -, hleave⟩
  · rcases readsRow_of_word (switch_enter.trans hel) (hleads.past_eq hpast) hbody with
      heq | ⟨d₁, hleads₁, hrow⟩
    · cases heq
    · exact .inl (hrow.repeats attributeNames_enter hopens (hleads.trans hleads₁) hpast rfl)
  · exact .inr ⟨_, view₁, hleave⟩

/-- Library directives that pass the check name their prefix and one source. -/
theorem complete_of_check {t : Text} {position : Nat}
    (h : view.leave t position [checkTaglibAttributes] = .ok left) :
    "prefix".toList ∈ attributeNames view ∧
      ("uri".toList ∈ attributeNames view ↔ "tagdir".toList ∉ attributeNames view) := by
  simp only [View.leave, checkTaglibAttributes] at h
  split at h
  · rename_i heq
    split at heq
    · cases heq
    rename_i hnamed
    split at heq
    · cases heq
    rename_i hsource
    simp only [List.contains_eq_mem, Bool.not_eq_true', decide_eq_false_iff_not, not_not] at hnamed
    simp only [List.contains_eq_mem, beq_iff_eq, decide_eq_decide] at hsource
    exact ⟨hnamed, (not_iff_comm.1 (not_iff.1 hsource)).symm⟩
  · cases h

/-- The check of a library directive never reports a repeated name. -/
theorem mismatch_of_check {t name : Text} {position : Nat}
    (h : view.leave t position [checkTaglibAttributes] = .error f) :
    f.cause ≠ .duplicateAttribute name := by
  simp only [View.leave, checkTaglibAttributes] at h
  split at h
  · cases h
  · rename_i heq
    cases h
    split at heq
    · cases heq
      rintro ⟨⟩
    · split at heq <;> cases heq
      rintro ⟨⟩

/-- A directive is read behind its start with the map as it was, or it is not read. -/
theorem behind_directiveStart (hpast : c.past = 0)
    (h : (rule .directive).Parses rules view c verdict) :
    verdict = .fails ∨ ∃ blanks d, (∀ x ∈ blanks, Text.isXmlSpace x = true) ∧
      c.Leads ("<%@".toList ++ blanks) d ∧ d.past = 0 ∧
      (sequence [oneOf [ref .includeDirective, ref .pageDirective, ref .taglibDirective],
        maybe (ref .space), ref .close]).Parses rules view d verdict := by
  rw [rule, Matcher.parses_labelled_iff, production] at h
  rcases behind_plain (plain_ref (by decide)) hpast h with rfl | ⟨c₁, hpast₁, hstart, h₁⟩
  · exact .inl rfl
  rcases behind_plain plain_maybe_space hpast₁ h₁ with rfl | ⟨c₂, hpast₂, hspace, h₂⟩
  · exact .inl rfl
  rw [parses_ref_iff] at hstart
  have hleads₁ : c.Leads "<%@".toList c₁ := Matcher.leads_of_parses_literal hstart
  obtain ⟨blanks, hblanks, hleads₂⟩ := leads_maybe_space hspace
  exact .inr ⟨blanks, c₂, hblanks, hleads₁.trans hleads₂, hpast₂, h₂⟩

/-- What is accepted as a directive: an inclusion, or what admits its attributes. -/
theorem admits_of_directive (hel : view elEnabledKey = some (.flag el)) (hpast : c.past = 0)
    (h : (rule .directive).Parses rules view c (.ends d left)) :
    (∃ blanks t, (∀ x ∈ blanks, Text.isXmlSpace x = true) ∧
        c.Leads ("<%@".toList ++ (blanks ++ ("include".toList ++ t))) d) ∨
      ∃ b as blanks, b ≠ Bearer.tag ∧ Bears b el c.rest as (blanks ++ ("%>".toList ++ d.rest)) ∧
        (∀ x ∈ blanks, Text.isXmlSpace x = true) ∧ b.Admits as := by
  rcases behind_directiveStart hpast h with heq | ⟨blanks, c₁, hblanks, hleads, hpast₁, h₁⟩
  · cases heq
  obtain ⟨c₂, view₂, hsort, h₂⟩ := h₁.of_sequence_cons
  obtain ⟨c₃, view₃, hspace, h₃⟩ := h₂.of_sequence_cons
  have hclose := Matcher.parses_sequence_singleton_iff.1 h₃
  rw [parses_ref_iff] at hclose
  obtain ⟨blanks', hblanks', hleads₃⟩ := leads_maybe_space hspace
  have hends : c₂.Leads (blanks' ++ "%>".toList) d :=
    hleads₃.trans (Matcher.leads_of_parses_literal hclose)
  have hbehind : c₂.rest = blanks' ++ ("%>".toList ++ d.rest) := by
    rw [hends.rest_eq, List.append_assoc]
  obtain ⟨m, hm, hsort⟩ := hsort.exists_choice
  simp only [List.mem_cons, List.not_mem_nil, or_false] at hm
  rcases hm with rfl | rfl | rfl
  · rw [parses_ref_iff, production] at hsort
    obtain ⟨c', view', hinclude, hothers⟩ := hsort.of_sequence_cons
    obtain ⟨t, hleads'⟩ := hothers.moves
    have hword : c₁.Leads "include".toList c' := Matcher.leads_of_parses_literal hinclude
    refine .inl ⟨blanks, t ++ (blanks' ++ "%>".toList), hblanks, ?_⟩
    have hall := hleads.trans ((hword.trans hleads').trans hends)
    simpa only [List.append_assoc] using hall
  · obtain ⟨as, view', hbears, hdistinct, -⟩ := bears_of_directive (b := .page) rfl
      ⟨blanks, hblanks, List.append_assoc ..⟩ hleads hel hpast₁ hsort
    exact .inr ⟨.page, as, blanks', by decide, hbehind ▸ hbears, hblanks', hdistinct⟩
  · obtain ⟨as, view', hbears, hdistinct, hnames, hleave⟩ := bears_of_directive (b := .library) rfl
      ⟨blanks, hblanks, List.append_assoc ..⟩ hleads hel hpast₁ hsort
    have hcomplete := complete_of_check hleave
    rw [Bearer.uniqueNames_eq (b := .library) (by decide)] at hdistinct hnames
    rw [hnames] at hcomplete
    exact .inr ⟨.library, as, blanks', by decide, hbehind ▸ hbears, hblanks', hdistinct,
      hcomplete⟩

/-- Where a duplicate is found in a directive, the name stands there behind an attribute that has
it. -/
theorem repeats_of_faulty_directive (hel : view elEnabledKey = some (.flag el)) (hpast : c.past = 0)
    (h : (rule .directive).Parses rules view c (.faults f)) {name : Text}
    (hcause : f.cause = .duplicateAttribute name) :
    ∃ b t, Repeats b el c.rest t name ∧ f.position = c.position + t.length := by
  rcases behind_directiveStart hpast h with heq | ⟨blanks, c₁, hblanks, hleads, hpast₁, h₁⟩
  · cases heq
  rcases Matcher.parses_sequence_cons_iff.1 h₁ with ⟨c₂, view₂, hsort, h₂⟩ | ⟨hsort, -⟩
  · -- the end of a directive finds nothing wrong
    have hplain : (sequence [maybe (ref .space), ref .close] : Production).Plain
        (Switched (elEnabled.holds view₂)) IsPlain := by
      simp [Matcher.Plain, Matcher.AllPlain, IsPlain, recordingRules]
    obtain ⟨t, hleads'⟩ := hsort.moves
    exact absurd h₂ (not_faults_of_plain hplain (hleads'.past_eq hpast₁) f)
  obtain ⟨m, hm, hsort⟩ := hsort.exists_faulty
  simp only [List.mem_cons, List.not_mem_nil, or_false] at hm
  rcases hm with rfl | rfl | rfl
  · exact absurd hsort (not_faults_of_plain (plain_ref (by decide)) hpast₁ f)
  · rcases repeats_of_directive (b := .page) rfl ⟨blanks, hblanks, List.append_assoc ..⟩ hleads
      hpast hel hsort with ⟨t, name', hrepeats, rfl⟩ | ⟨t, view', hleave⟩
    · cases hcause
      exact ⟨.page, t, hrepeats, rfl⟩
    · cases hleave
  · rcases repeats_of_directive (b := .library) rfl ⟨blanks, hblanks, List.append_assoc ..⟩ hleads
      hpast hel hsort with ⟨t, name', hrepeats, rfl⟩ | ⟨t, view', hleave⟩
    · cases hcause
      exact ⟨.library, t, hrepeats, rfl⟩
    · exact absurd hcause (mismatch_of_check hleave)

end Directives

end Stencil.Jsp
