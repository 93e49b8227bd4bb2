import Stencil.Proofs.Jsp.Delimiters

/-!
# Where two texts meet

Template text in which no construct starts may start one when something else is put behind it. If
that is inert (`Jsp.Inert`), which means that it holds none of the signs with which constructs
start, there are few ways in which this can come about, and `Jsp.Fuses` lists them: a dollar or hash
sign meets a brace, or the beginning of a tag meets what completes its qualified name.
-/

set_option autoImplicit false

namespace Stencil

namespace Text

variable {s t p after w : Text}

/-- A name with more characters of names behind it is a name. -/
theorem IsNcName.append (h : s.IsNcName) (ht : ∀ x ∈ t, isNcNameChar x = true) :
    (s ++ t).IsNcName := by
  obtain ⟨c, rest, rfl, hc, hrest⟩ := h
  exact ⟨c, rest ++ t, rfl, hc, List.forall_mem_append.2 ⟨hrest, ht⟩⟩

/-- The front of a name is a name, and behind it stand characters of names. -/
theorem IsNcName.of_append (h : (s ++ t).IsNcName) (nonempty : s ≠ []) :
    s.IsNcName ∧ ∀ x ∈ t, isNcNameChar x = true := by
  obtain ⟨c, rest, heq, hc, hrest⟩ := h
  obtain ⟨c', s, rfl⟩ := List.exists_cons_of_ne_nil nonempty
  obtain ⟨rfl, htail⟩ := List.cons.inj heq
  have hall : ∀ x ∈ s ++ t, isNcNameChar x = true := by rwa [← htail] at hrest
  rw [List.forall_mem_append] at hall
  exact ⟨⟨_, s, rfl, hc, hall.1⟩, hall.2⟩

/-- A qualified name starts with a name, a colon and the start of another one. -/
theorem startsQName_iff_colon :
    startsQName t = true ↔
      ∃ name y rest, name.IsNcName ∧ isNcNameStart y = true ∧ t = name ++ ':' :: y :: rest := by
  rw [startsQName_iff]
  constructor
  · rintro ⟨_, rest, ⟨name, _, hname, ⟨y, behind, rfl, hy, -⟩, rfl⟩, rfl⟩
    exact ⟨name, y, behind ++ rest, hname, hy, by simp⟩
  · rintro ⟨name, y, rest, hname, hy, rfl⟩
    exact ⟨name ++ ':' :: [y], rest, ⟨name, [y], hname, ⟨y, [], rfl, hy, by simp⟩, rfl⟩, by simp⟩

/-- A text and what is put behind it that only together start a qualified name: the second starts a
name behind the colon of the first, or stands in the middle of the name in front of the colon. -/
inductive Completes (t p after : Text) : Prop
  | behindColon {name more : Text} {y : Char} (hname : name.IsNcName) (ht : t = name ++ [':'])
      (hy : isNcNameStart y = true) (hp : p = y :: more)
  | insideName {more rest : Text} {y : Char} (hname : (t ++ p).IsNcName)
      (hmore : ∀ x ∈ more, isNcNameChar x = true) (hy : isNcNameStart y = true)
      (hafter : after = more ++ ':' :: y :: rest)

/-- What completes a qualified name makes one. -/
theorem Completes.startsQName (h : Completes t p after) :
    startsQName (t ++ (p ++ after)) = true := by
  rw [startsQName_iff_colon]
  cases h with
  | @behindColon name more y hname ht hy hp =>
      exact ⟨name, y, more ++ after, hname, hy, by simp [ht, hp]⟩
  | @insideName more rest y hname hmore hy hafter =>
      exact ⟨t ++ p ++ more, y, rest, hname.append hmore, hy, by simp [hafter]⟩

/-- Where a qualified name starts only since something without a colon is put behind a text, the two
complete it together. -/
theorem completes_of_startsQName (nonempty : p ≠ []) (hcolon : ':' ∉ p)
    (hnot : startsQName (t ++ w) = false) (h : startsQName (t ++ (p ++ after)) = true) :
    Completes t p after := by
  obtain ⟨name, y, rest, hname, hy, heq⟩ := startsQName_iff_colon.1 h
  obtain ⟨x, p, rfl⟩ := List.exists_cons_of_ne_nil nonempty
  rcases List.append_eq_append_iff.1 heq with ⟨back, hback, hbehind⟩ | ⟨back, rfl, hbehind⟩
  · -- the text ends in front of the colon, which is not in what comes next either
    rcases List.append_eq_append_iff.1 hbehind with ⟨more, rfl, hafter⟩ | ⟨more, hmore, hafter⟩
    · rw [hback, ← List.append_assoc] at hname
      obtain ⟨hfront, hchars⟩ := hname.of_append (by simp)
      exact .insideName hfront hchars hy hafter
    · cases more with
      | nil =>
          rw [List.append_nil] at hmore
          rw [hback, ← hmore] at hname
          exact .insideName hname (List.forall_mem_nil _) hy hafter.symm
      | cons c more =>
          obtain ⟨rfl, -⟩ := List.cons.inj hafter
          exact absurd (hmore ▸ by simp) hcolon
  · -- the text goes on behind the name in front of the colon
    match back, hbehind with
    | [], hbehind =>
        obtain ⟨rfl, -⟩ := List.cons.inj hbehind
        exact absurd (List.mem_cons_self ..) hcolon
    | [c], hbehind =>
        obtain ⟨rfl, htail⟩ := List.cons.inj hbehind
        obtain ⟨rfl, -⟩ := List.cons.inj htail
        exact .behindColon hname rfl hy rfl
    | c :: d :: back, hbehind =>
        obtain ⟨rfl, htail⟩ := List.cons.inj hbehind
        obtain ⟨rfl, -⟩ := List.cons.inj htail
        have hstarts : startsQName (name ++ ':' :: y :: back ++ w) = true :=
          startsQName_iff_colon.2 ⟨name, y, back ++ w, hname, hy, by simp⟩
        rw [hnot] at hstarts
        cases hstarts

end Text

namespace Jsp

variable {el escaped : Bool} {t u w p after : Text}

/-! ## Runs of template text -/

/-- A construct starts inside a text when another one stands behind it. -/
def StartsInside (el escaped : Bool) (t u : Text) : Prop :=
  ∃ lead x behind, t = lead ++ x :: behind ∧
    startsConstruct el (behindBackslash escaped lead) (x :: (behind ++ u)) = true

/-- Nothing starts inside an empty text. -/
theorem not_startsInside_nil : ¬StartsInside el escaped [] u := by
  rintro ⟨lead, x, behind, heq, -⟩
  simp at heq

/-- A construct starts inside a text at its first character or behind it. -/
theorem startsInside_cons_iff {x : Char} :
    StartsInside el escaped (x :: t) u ↔
      startsConstruct el escaped (x :: (t ++ u)) = true ∨ StartsInside el (x == '\\') t u := by
  constructor
  · rintro ⟨lead, y, behind, heq, hstarts⟩
    cases lead with
    | nil =>
        obtain ⟨rfl, rfl⟩ := List.cons.inj heq
        exact .inl hstarts
    | cons z lead =>
        obtain ⟨rfl, htail⟩ := List.cons.inj heq
        exact .inr ⟨lead, y, behind, htail, hstarts⟩
  · rintro (hstarts | ⟨lead, y, behind, rfl, hstarts⟩)
    · exact ⟨[], x, t, rfl, hstarts⟩
    · exact ⟨x :: lead, y, behind, rfl, hstarts⟩

/-- Two texts are one run of template text if no construct starts in the first, and the second is
one behind it. -/
theorem templateRun_append_eq_iff :
    templateRun el escaped (t ++ u) = t ++ u ↔
      ¬StartsInside el escaped t u ∧ templateRun el (behindBackslash escaped t) u = u := by
  induction t generalizing escaped with
  | nil => simp [not_startsInside_nil, behindBackslash]
  | cons x t ih =>
      rw [startsInside_cons_iff, not_or, behindBackslash, and_assoc, ← ih, List.cons_append]
      by_cases hstarts : startsConstruct el escaped (x :: (t ++ u)) = true
      · simp [templateRun_of_starts hstarts, hstarts]
      · rw [templateRun_cons (by simpa using hstarts)]
        simp [hstarts]

/-! ## Inert texts -/

/-- The signs that matter to where a construct starts: those with which one starts, the backslash
that keeps one from starting, and the percent sign and colon that one needs. -/
def markers : List Char := ['<', '$', '#', '\\', '%', ':']

/-- A text in which no construct starts, and which starts none behind an angle bracket but by
continuing a name. -/
structure Inert (p : Text) : Prop where
  nonempty : p ≠ []
  unmarked : ∀ x ∈ p, x ∉ markers
  slash : ∀ more, p = '/' :: more → ∃ x rest, more = x :: rest ∧ Text.isNcNameStart x = false

/-- An inert text belongs to the run of template text in front of it and to that behind it. -/
theorem Inert.templateRun_append_eq_iff (hp : Inert p) :
    templateRun el escaped (p ++ u) = p ++ u ↔ templateRun el false u = u := by
  have hplain : ∀ x ∈ p, (x == '<' || isElMark x || x == '\\') = false := by
    intro x hx
    have hmarkers := hp.unmarked x hx
    simp only [markers, List.mem_cons, not_or] at hmarkers
    simp [isElMark, hmarkers]
  obtain ⟨x, p, rfl⟩ := List.exists_cons_of_ne_nil hp.nonempty
  rw [List.forall_mem_cons] at hplain
  rw [List.cons_append, templateRun_plain hplain.1, templateRun_plain_append hplain.2]
  simp

/-- Template text and what is put behind it that only together start a construct, in front of some
text: a dollar or hash sign that no backslash escapes meets a brace, or an angle bracket, perhaps
with a slash, gets a qualified name. -/
inductive Fuses (t p after : Text) : Prop
  | expression {lead more : Text} {x : Char} (hmark : isElMark x = true)
      (hescape : ∀ lead', lead ≠ lead' ++ ['\\']) (ht : t = lead ++ [x]) (hp : p = '{' :: more)
  | tag {lead slash name : Text} (hslash : slash = [] ∨ slash = ['/'])
      (ht : t = lead ++ '<' :: (slash ++ name)) (hname : Text.Completes name p after)

/-- Where no markup starts, no qualified name does. -/
theorem not_startsQName_of_markup (h : startsMarkup t = false) : Text.startsQName t = false := by
  rw [← Bool.not_eq_true] at h ⊢
  exact fun hname => h (startsMarkup_iff.2 (.inr (.inl hname)))

/-- Where no markup starts with a slash, no qualified name stands behind the slash. -/
theorem not_startsQName_of_slash (h : startsMarkup ('/' :: t) = false) :
    Text.startsQName t = false := by
  rw [← Bool.not_eq_true] at h ⊢
  exact fun hname => h (startsMarkup_iff.2 (.inr (.inr ⟨t, rfl, hname⟩)))

/-- Where a tag starts only since something inert is put behind an angle bracket and some text, it
completes the name of the tag. -/
theorem Inert.completes_of_startsMarkup (hp : Inert p) (hnot : startsMarkup (t ++ w) = false)
    (h : startsMarkup (t ++ (p ++ after)) = true) :
    ∃ slash name, (slash = [] ∨ slash = ['/']) ∧ t = slash ++ name ∧
      Text.Completes name p after := by
  have hcolon : ':' ∉ p := fun hmem => hp.unmarked _ hmem (by decide)
  rcases startsMarkup_iff.1 h with ⟨more, hmore⟩ | hname | ⟨more, hmore, hname⟩
  · cases t with
    | nil =>
        obtain ⟨x, p, rfl⟩ := List.exists_cons_of_ne_nil hp.nonempty
        obtain ⟨rfl, -⟩ := List.cons.inj hmore
        exact absurd (by decide) (hp.unmarked '%' (List.mem_cons_self ..))
    | cons x t =>
        obtain ⟨rfl, -⟩ := List.cons.inj hmore
        cases hnot
  · exact ⟨[], t, .inl rfl, rfl,
      Text.completes_of_startsQName hp.nonempty hcolon (not_startsQName_of_markup hnot) hname⟩
  · cases t with
    | nil =>
        obtain ⟨x, p, rfl⟩ := List.exists_cons_of_ne_nil hp.nonempty
        obtain ⟨rfl, rfl⟩ := List.cons.inj hmore
        obtain ⟨y, rest, rfl, hy⟩ := hp.slash p rfl
        simp [Text.startsQName, hy] at hname
    | cons x t =>
        obtain ⟨rfl, rfl⟩ := List.cons.inj hmore
        exact ⟨['/'], t, .inr rfl, rfl,
          Text.completes_of_startsQName hp.nonempty hcolon (not_startsQName_of_slash hnot) hname⟩

/-- Where template text and what follows fuse, a construct starts inside the template text. -/
theorem Fuses.startsInside (h : Fuses t p after) : StartsInside true false t (p ++ after) := by
  cases h with
  | @expression lead more x hmark hescape ht hp =>
      have hunescaped : behindBackslash false lead = false := by
        rw [← Bool.not_eq_true, behindBackslash_iff, not_exists]
        exact hescape
      exact ⟨lead, x, [], ht, by simp [startsConstruct, hunescaped, hmark, hp, startsBrace]⟩
  | @tag lead slash name hslash ht hname =>
      refine ⟨lead, '<', slash ++ name, ht, startsConstruct_bracket (startsMarkup_iff.2 ?_)⟩
      rcases hslash with rfl | rfl
      · exact .inr (.inl hname.startsQName)
      · exact .inr (.inr ⟨_, by simp, hname.startsQName⟩)

/-- Template text and something inert behind it start a construct only by fusing. -/
theorem Inert.startsInside_iff_fuses (hp : Inert p) (hnot : ¬StartsInside true false t w) :
    StartsInside true false t (p ++ after) ↔ Fuses t p after := by
  refine ⟨?_, Fuses.startsInside⟩
  rintro ⟨lead, x, behind, rfl, hstarts⟩
  have hnot' : startsConstruct true (behindBackslash false lead) (x :: (behind ++ w)) = false := by
    rw [← Bool.not_eq_true]
    exact fun hstarts' => hnot ⟨lead, x, behind, rfl, hstarts'⟩
  simp only [startsConstruct, Bool.or_eq_false_iff, Bool.true_and] at hnot'
  simp only [startsConstruct, Bool.or_eq_true, Bool.and_eq_true, Bool.true_and] at hstarts
  obtain ⟨hnoTag, hnoExpression⟩ := hnot'
  rcases hstarts with ⟨hbracket, hmarkup⟩ | ⟨⟨hescape, hmark⟩, hbrace⟩
  · rw [hbracket, Bool.true_and] at hnoTag
    obtain ⟨slash, name, hslash, rfl, hname⟩ := hp.completes_of_startsMarkup hnoTag hmarkup
    rw [beq_iff_eq] at hbracket
    exact .tag hslash (by rw [hbracket]) hname
  · rw [hescape, hmark, Bool.true_and, Bool.true_and] at hnoExpression
    cases behind with
    | nil =>
        obtain ⟨more, hmore⟩ := startsBrace_iff.1 hbrace
        obtain ⟨y, p, rfl⟩ := List.exists_cons_of_ne_nil hp.nonempty
        obtain ⟨rfl, -⟩ := List.cons.inj hmore
        refine .expression hmark (fun lead' hlead => ?_) rfl rfl
        rw [behindBackslash_iff.2 ⟨lead', hlead⟩] at hescape
        cases hescape
    | cons y behind =>
        -- the brace stood there already
        obtain ⟨more, hmore⟩ := startsBrace_iff.1 hbrace
        obtain ⟨rfl, -⟩ := List.cons.inj hmore
        cases hnoExpression

end Jsp

end Stencil
