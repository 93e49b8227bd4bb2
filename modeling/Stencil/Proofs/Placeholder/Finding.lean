import Stencil.Proofs.Placeholder.Form

/-!
# Finding placeholders in plain text

What is found at the start of a text is a proper placeholder, and a proper placeholder is found
where it starts, unless it could have more of the text around it. Between plain text the first
placeholder is therefore the first one that was put there: up to its first sentinel a placeholder
has so few forms that none of them ends another, save for a brace in front of a comment.
-/

set_option autoImplicit false

namespace Stencil

open Placeholder

namespace Found

/-- What can be found: the parts have the forms that belong to the family. -/
inductive Proper : Found → Prop
  /-- A condition, perhaps with a comment behind it. -/
  | condition {core trail : Text} (hcore : IsCondition core)
      (htrail : trail = [] ∨ IsTrail Sentinel.opening trail) :
      Proper ⟨.opening, [], core, trail⟩
  /-- A comment, perhaps with a brace in front of it. -/
  | comment {family : Family} {lead core : Text} (hfamily : family ≠ .identifier)
      (hlead : lead = [] ∨ ∃ mark, family.mark? = some mark ∧ IsLead mark lead)
      (hcore : IsComment family.filler core) : Proper ⟨family, lead, core, []⟩
  /-- A line comment. -/
  | lineComment {core : Text} (hcore : IsLineComment core) : Proper ⟨.comment, [], core, []⟩
  /-- A name, perhaps with a comment behind it. -/
  | name {core trail : Text} (hcore : IsName core)
      (htrail : trail = [] ∨ IsTrail Sentinel.identifierEnd trail) :
      Proper ⟨.identifier, [], core, trail⟩

/-- The text of a placeholder up to its first sentinel. -/
inductive Front : Found → Text → Prop
  | condition {core trail space : Text} (hcore : IsCondition core) (hspace : Text.Blanks space) :
      Front ⟨.opening, [], core, trail⟩ ("if".toList ++ space ++ ['('])
  | comment {family : Family} {lead core space : Text} (hfamily : family ≠ .identifier)
      (hlead : lead = [] ∨ ∃ mark, family.mark? = some mark ∧ IsLead mark lead)
      (hcore : IsComment family.filler core) (hspace : Text.Blanks space) :
      Front ⟨family, lead, core, []⟩ (lead ++ "/*".toList ++ space)
  | lineComment {core : Text} : Front ⟨.comment, [], core, []⟩ "//".toList
  | name {core trail : Text} : Front ⟨.identifier, [], core, trail⟩ []

/-- In front of its first sentinel a placeholder has none. -/
theorem Front.plain {f : Found} {front : Text} (h : Front f front) : Text.Plain front := by
  cases h with
  | condition hcore hspace =>
      exact ((Text.plain_of_all (by decide)).append hspace.plain).append
        (Text.plain_of_all (by decide))
  | @comment family lead core space hfamily hlead hcore hspace =>
      refine (Text.Plain.append ?_ (Text.plain_of_all (by decide))).append hspace.plain
      rcases hlead with rfl | ⟨mark, hmark, space', hspace', rfl⟩
      · exact Text.plain_nil
      · intro c hc
        rcases List.mem_cons.1 hc with rfl | hc
        · rcases Family.mark?_cases hmark with rfl | rfl <;> decide
        · exact hspace'.plain c hc
  | lineComment => exact Text.plain_of_all (by decide)
  | name => exact Text.plain_nil

/-- A front does not start with white space. -/
theorem Front.head {f : Found} {front : Text} (h : Front f front) {c : Char}
    (hc : front.head? = some c) : Text.isBlank c = false := by
  cases h with
  | condition hcore hspace =>
      obtain rfl : 'i' = c := by simpa using hc
      decide
  | @comment family lead core space hfamily hlead hcore hspace =>
      rcases hlead with rfl | ⟨mark, hmark, space', hspace', rfl⟩
      · obtain rfl : '/' = c := by simpa using hc
        decide
      · obtain rfl : mark = c := by simpa using hc
        rcases Family.mark?_cases hmark with rfl | rfl <;> decide
  | lineComment =>
      obtain rfl : '/' = c := by simpa using hc
      decide
  | name => cases hc

/-- A proper placeholder is its front, a sentinel of its family and something behind it. -/
theorem Proper.front {f : Found} (h : f.Proper) :
    ∃ front back, Front f front ∧ f.text = front ++ f.family.sentinel :: back := by
  cases h with
  | @condition core trail hcore htrail =>
      obtain ⟨space, n, space', hspace, hspace', rfl⟩ := hcore
      refine ⟨_, List.replicate n Sentinel.opening ++ ')' :: space' ++ ['{'] ++ trail,
        .condition ⟨_, n, space', hspace, hspace', rfl⟩ hspace, ?_⟩
      simp [Found.text, List.replicate_succ, Family.sentinel, Family.filler]
  | @comment family lead core hfamily hlead hcore =>
      obtain ⟨space, back, hsplit, hspace⟩ := hcore.split family.isBlank_filler
      have hfiller : family.sentinel = family.filler := by
        cases family <;> first | rfl | exact absurd rfl hfamily
      exact ⟨_, back, .comment hfamily hlead hcore hspace, by
        simp [Found.text, hfiller, hsplit]⟩
  | lineComment hcore =>
      obtain ⟨n, rfl⟩ := hcore
      exact ⟨_, List.replicate n Sentinel.comment, .lineComment, by
        simp [Found.text, List.replicate_succ, Family.sentinel, Family.filler]⟩
  | @name core trail hcore htrail =>
      obtain ⟨body, -, rfl⟩ := hcore
      exact ⟨_, body ++ [Sentinel.identifierEnd] ++ trail, .name, by
        simp [Found.text, Family.sentinel]⟩

/-- The signs of a front. -/
theorem Front.signs {f : Found} {front : Text} (h : Front f front) :
    (f.family = .opening ∧ IsCondition f.core ∧ Text.signs front = "if(".toList) ∨
    (f.family ≠ .identifier ∧ IsComment f.family.filler f.core ∧
      ∃ lead : Text, Text.signs front = lead ++ "/*".toList ∧
        (lead = [] ∧ f.lead = [] ∨ ∃ mark, f.family.mark? = some mark ∧ lead = [mark] ∧
          IsLead mark f.lead)) ∨
    (f.family = .comment ∧ Text.signs front = "//".toList) ∨
    (f.family = .identifier ∧ Text.signs front = []) := by
  cases h with
  | condition hcore hspace =>
      refine Or.inl ⟨rfl, hcore, ?_⟩
      rw [Text.signs_append, Text.signs_append, Text.signs_of_blanks hspace]
      decide
  | @comment family lead core space hfamily hlead hcore hspace =>
      refine Or.inr (Or.inl ⟨hfamily, hcore, Text.signs lead, ?_, ?_⟩)
      · rw [Text.signs_append, Text.signs_append, Text.signs_of_blanks hspace, List.append_nil]
        rfl
      · rcases hlead with rfl | ⟨mark, hmark, space', hspace', rfl⟩
        · exact Or.inl ⟨rfl, rfl⟩
        · refine Or.inr ⟨mark, hmark, ?_, space', hspace', rfl⟩
          have hsigns := Text.signs_append [mark] space'
          rw [List.singleton_append] at hsigns
          rw [hsigns, Text.signs_of_blanks hspace']
          rcases Family.mark?_cases hmark with rfl | rfl <;> decide
  | lineComment => exact Or.inr (Or.inr (Or.inl ⟨rfl, by decide⟩))
  | name => exact Or.inr (Or.inr (Or.inr ⟨rfl, by decide⟩))

/-- One front ends another only as a comment behind a brace. -/
theorem Front.overlap {f g : Found} {before front front' : Text} (hf : Front f front)
    (hg : Front g front') (hfamily : f.family = g.family) (h : front = before ++ front') :
    before = [] ∨
      (IsComment g.family.filler g.core ∧ g.lead = [] ∧
        ∃ mark, g.family.mark? = some mark ∧ IsLead mark before) := by
  cases before with
  | nil => exact Or.inl rfl
  | cons c before =>
      right
      have hc : Text.isBlank c = false := hf.head (by rw [h]; rfl)
      have hcons : Text.signs (c :: before) = c :: Text.signs before := by
        simp [Text.signs, hc]
      have hsigns : Text.signs front = c :: Text.signs before ++ Text.signs front' := by
        rw [h, Text.signs_append, hcons]
      rcases hf.signs with ⟨hF, -, hx⟩ | ⟨hF, -, lead, hx, hlead⟩ | ⟨hF, hx⟩ | ⟨hF, hx⟩ <;>
        rcases hg.signs with ⟨hG, -, hy⟩ | ⟨hG, hcore, lead', hy, hlead'⟩ | ⟨hG, hy⟩ | ⟨hG, hy⟩ <;>
        rw [hx, hy] at hsigns
      · exact absurd (congrArg List.length hsigns) (by simp)
      · exact absurd (congrArg List.reverse hsigns) (by simp)
      · exact absurd (congrArg List.reverse hsigns) (by simp)
      · rw [hF, hG] at hfamily
        cases hfamily
      · exact absurd (congrArg List.reverse hsigns) (by simp)
      · -- two comments, so that the brace of the first is what stands in front of the second
        rw [← List.append_assoc, List.append_cancel_right_eq] at hsigns
        rcases hlead with ⟨rfl, -⟩ | ⟨mark, hmark, rfl, -⟩
        · cases hsigns
        · rw [List.cons_append, List.cons.injEq, eq_comm (a := []), List.append_eq_nil_iff]
            at hsigns
          obtain ⟨rfl, hblank, rfl⟩ := hsigns
          refine ⟨hcore, ?_, mark, by rw [← hfamily]; exact hmark, before,
            Text.blanks_of_signs hblank, rfl⟩
          rcases hlead' with ⟨-, hnil⟩ | ⟨mark', -, hcons', -⟩
          · exact hnil
          · cases hcons'
      · exact absurd (congrArg List.reverse hsigns) (by simp)
      · exact absurd (hfamily.trans hG) hF
      · rw [hF, hG] at hfamily
        cases hfamily
      · exact absurd (congrArg List.reverse hsigns) (by simp)
      · exact absurd (congrArg List.length hsigns) (by simp)
      · rw [hF, hG] at hfamily
        cases hfamily
      · cases hsigns
      · cases hsigns
      · cases hsigns
      · cases hsigns

/-- The first sentinel of a text tells the family of the placeholder that it belongs to, and the
text in front of it ends with the front of that placeholder. -/
theorem Proper.fronts {f g : Found} (hf : f.Proper) (hg : g.Proper)
    {before before' rest rest' : Text} (hbefore : Text.Plain before)
    (hbefore' : Text.Plain before')
    (h : before ++ (f.text ++ rest) = before' ++ (g.text ++ rest')) :
    f.family = g.family ∧
      ∃ front front', Front f front ∧ Front g front' ∧ before ++ front = before' ++ front' := by
  obtain ⟨front, back, hfront, htext⟩ := hf.front
  obtain ⟨front', back', hfront', htext'⟩ := hg.front
  have hsplit : (before ++ front) ++ f.family.sentinel :: (back ++ rest) =
      (before' ++ front') ++ g.family.sentinel :: (back' ++ rest') := by
    rw [htext, htext'] at h
    simpa using h
  obtain ⟨heq, hsentinel, -⟩ := Text.cancel (hbefore.append hfront.plain)
    (hbefore'.append hfront'.plain) (Family.isSentinel_sentinel _) (Family.isSentinel_sentinel _)
    hsplit
  exact ⟨Family.sentinel_inj hsentinel, front, front', hfront, hfront', heq⟩

/-- A placeholder that starts in front of another is that other with the brace in front of it. -/
theorem Proper.overlap {f g : Found} (hf : f.Proper) (hg : g.Proper) {before rest rest' : Text}
    (hbefore : Text.Plain before) (h : f.text ++ rest = before ++ (g.text ++ rest')) :
    f.family = g.family ∧
      (before = [] ∨
        (IsComment g.family.filler g.core ∧ g.lead = [] ∧
          ∃ mark, g.family.mark? = some mark ∧ IsLead mark before)) := by
  obtain ⟨hfamily, front, front', hfront, hfront', heq⟩ := hf.fronts hg Text.plain_nil hbefore h
  exact ⟨hfamily, hfront.overlap hfront' hfamily heq⟩

/-- Nothing behind a placeholder could be taken for a part of it. -/
structure Ends (f : Found) (after : Text) : Prop where
  trail : f.trail = [] → IsCondition f.core ∨ IsName f.core →
    ∀ x y, after = x ++ y → ¬ IsTrail f.family.filler x
  line : after.head? ≠ some Sentinel.comment

end Found

namespace Placeholder

/-- What is recognised as an opening is one, and stands at the start of the text. -/
theorem opening?_spec {t rest : Text} {f : Found} (h : opening? t = some (f, rest)) :
    f.Proper ∧ f.family = .opening ∧ t = f.text ++ rest := by
  unfold opening? at h
  rw [Option.orElse_eq_orElse, Option.orElse_eq_or, Option.or_eq_some_iff] at h
  rcases h with h | ⟨-, h⟩
  · obtain ⟨core, rest', trail, hscan, hbehind, rfl⟩ := trailed?_eq_some_iff.1 h
    obtain ⟨hcore, rfl⟩ := condition_eq_some_iff.1 hscan
    rcases (trailing_eq_some_iff (by decide)).1 hbehind with ⟨htrail, rfl⟩ | ⟨rfl, rfl, -⟩
    · exact ⟨.condition hcore (Or.inr htrail), rfl, by simp [Found.text]⟩
    · exact ⟨.condition hcore (Or.inl rfl), rfl, by simp [Found.text]⟩
  · obtain ⟨lead, core, hlead, hcore, rfl, rfl⟩ :=
      (bracedComment?_eq_some_iff (by decide) (by decide)).1 h
    refine ⟨.comment (by decide) ?_ hcore, rfl, by simp [Found.text]⟩
    exact hlead.imp_right fun hlead => ⟨'{', rfl, hlead⟩

/-- What is recognised as a closing is one, and stands at the start of the text. -/
theorem closing?_spec {t rest : Text} {f : Found} (h : closing? t = some (f, rest)) :
    f.Proper ∧ f.family = .closing ∧ t = f.text ++ rest := by
  unfold closing? at h
  obtain ⟨lead, core, hlead, hcore, rfl, rfl⟩ :=
    (bracedComment?_eq_some_iff (by decide) (by decide)).1 h
  refine ⟨.comment (by decide) ?_ hcore, rfl, by simp [Found.text]⟩
  exact hlead.imp_right fun hlead => ⟨'}', rfl, hlead⟩

/-- A line comment is recognised with all its fillers. -/
theorem lineComment_eq_some_iff {t taken rest : Text} :
    Scan.all [.text "//".toList, .run1 (· == Sentinel.comment)] t = some (taken, rest) ↔
      IsLineComment taken ∧ rest.head? ≠ some Sentinel.comment ∧ t = taken ++ rest := by
  simp only [Scan.all_cons_eq_some_iff, Scan.all_nil_eq_some_iff, Scan.text_eq_some_iff,
    run1_eq_some_iff]
  constructor
  · rintro ⟨_, _, _, ⟨rfl, rfl⟩, ⟨_, _, _, ⟨⟨n, rfl⟩, hrest, rfl⟩, ⟨rfl, rfl⟩, rfl⟩, rfl⟩
    exact ⟨⟨n, by simp⟩, hrest, by simp⟩
  · rintro ⟨⟨n, rfl⟩, hrest, rfl⟩
    exact ⟨_, _, _, ⟨rfl, List.append_assoc ..⟩,
      ⟨_, _, _, ⟨⟨n, rfl⟩, hrest, rfl⟩, ⟨rfl, rfl⟩, rfl⟩, by simp⟩

/-- What is recognised as a comment is one, and stands at the start of the text. -/
theorem comment?_spec {t rest : Text} {f : Found} (h : comment? t = some (f, rest)) :
    f.Proper ∧ f.family = .comment ∧ t = f.text ++ rest := by
  unfold comment? at h
  obtain ⟨⟨core, rest'⟩, hscan, heq⟩ := Option.map_eq_some_iff.1 h
  cases heq
  rw [Option.orElse_eq_orElse, Option.orElse_eq_or, Option.or_eq_some_iff] at hscan
  rcases hscan with hscan | ⟨-, hscan⟩
  · obtain ⟨hcore, rfl⟩ := (commentOf_eq_some_iff (by decide)).1 hscan
    exact ⟨.comment (by decide) (Or.inl rfl) hcore, rfl, by simp [Found.text]⟩
  · obtain ⟨hcore, -, rfl⟩ := lineComment_eq_some_iff.1 hscan
    exact ⟨.lineComment hcore, rfl, by simp [Found.text]⟩

/-- What is recognised as an identifier is one, and stands at the start of the text. -/
theorem identifier?_spec {t rest : Text} {f : Found} (h : identifier? t = some (f, rest)) :
    f.Proper ∧ f.family = .identifier ∧ t = f.text ++ rest := by
  unfold identifier? at h
  obtain ⟨core, rest', trail, hscan, hbehind, rfl⟩ := trailed?_eq_some_iff.1 h
  obtain ⟨hcore, rfl⟩ := name_eq_some_iff.1 hscan
  rcases (trailing_eq_some_iff (by decide)).1 hbehind with ⟨htrail, rfl⟩ | ⟨rfl, rfl, -⟩
  · exact ⟨.name hcore (Or.inr htrail), rfl, by simp [Found.text]⟩
  · exact ⟨.name hcore (Or.inl rfl), rfl, by simp [Found.text]⟩

/-- What is found is proper and stands at the start. -/
theorem found?_spec {t rest : Text} {f : Found} (h : found? t = some (f, rest)) :
    f.Proper ∧ t = f.text ++ rest := by
  unfold found? at h
  simp only [Option.orElse_eq_orElse, Option.orElse_eq_or, Option.or_eq_some_iff] at h
  rcases h with h | ⟨-, h | ⟨-, h | ⟨-, h⟩⟩⟩
  · exact ⟨(opening?_spec h).1, (opening?_spec h).2.2⟩
  · exact ⟨(closing?_spec h).1, (closing?_spec h).2.2⟩
  · exact ⟨(comment?_spec h).1, (comment?_spec h).2.2⟩
  · exact ⟨(identifier?_spec h).1, (identifier?_spec h).2.2⟩

/-- Placeholders of one family are not recognised as those of another. -/
theorem eq_none_of_family_ne {recognise : Text → Option (Found × Text)} {family : Family}
    (hspec : ∀ {t rest : Text} {g : Found}, recognise t = some (g, rest) →
      g.Proper ∧ g.family = family ∧ t = g.text ++ rest)
    {f : Found} (hf : f.Proper) (hne : f.family ≠ family) (rest : Text) :
    recognise (f.text ++ rest) = none := by
  cases hfound : recognise (f.text ++ rest) with
  | none => rfl
  | some answer =>
      obtain ⟨g, rest'⟩ := answer
      obtain ⟨hg, hfamily, htext⟩ := hspec hfound
      exact absurd ((hf.overlap hg Text.plain_nil htext).1.trans hfamily) hne

/-- A comment is not a condition, since it starts in another way. -/
theorem condition_comment_eq_none {lead core rest : Text} {filler : Char}
    (hlead : lead = [] ∨ IsLead '{' lead) (hcore : IsComment filler core) :
    condition (lead ++ core ++ rest) = none := by
  cases hscan : condition (lead ++ core ++ rest) with
  | none => rfl
  | some answer =>
      obtain ⟨taken, rest'⟩ := answer
      obtain ⟨⟨space, n, space', -, -, rfl⟩, htext⟩ := condition_eq_some_iff.1 hscan
      obtain ⟨body, -, rfl⟩ := hcore
      have hhead := congrArg List.head? htext
      rcases hlead with rfl | ⟨space'', -, rfl⟩
      · simp at hhead
      · simp at hhead

/-- The comment behind a placeholder is taken if there is one, and nothing that follows is taken for
it. -/
theorem trailing_append {filler : Char} (hne : filler ≠ '*') {trail rest : Text}
    (htrail : trail = [] ∨ IsTrail filler trail)
    (hends : trail = [] → ∀ x y, rest = x ++ y → ¬ IsTrail filler x) :
    trailing filler (trail ++ rest) = some (trail, rest) := by
  rw [trailing_eq_some_iff hne]
  rcases htrail with rfl | htrail
  · exact Or.inr ⟨rfl, rfl, hends rfl⟩
  · exact Or.inl ⟨htrail, rfl⟩

/-- What stands in front of a core is a mark of its family, if anything does. -/
theorem lead_of_mark {family : Family} {mark : Char} (hmark : family.mark? = some mark)
    {lead : Text} (hlead : lead = [] ∨ ∃ mark, family.mark? = some mark ∧ IsLead mark lead) :
    lead = [] ∨ IsLead mark lead := by
  refine hlead.imp_right ?_
  rintro ⟨mark', hmark', hlead⟩
  rw [hmark, Option.some.injEq] at hmark'
  rw [hmark']
  exact hlead

section Complete

variable {f : Found} {rest : Text}

/-- A proper opening is recognised where it ends. -/
theorem opening?_text (hf : f.Proper) (hfamily : f.family = .opening) (hends : f.Ends rest) :
    opening? (f.text ++ rest) = some (f, rest) := by
  cases hf with
  | @condition core trail hcore htrail =>
      have hbehind := trailing_append (by decide) htrail fun hnil => hends.trail hnil (Or.inl hcore)
      have hscan : condition (core ++ trail ++ rest) = some (core, trail ++ rest) :=
        condition_eq_some_iff.2 ⟨hcore, List.append_assoc ..⟩
      unfold opening?
      rw [Found.text, List.nil_append, trailed?_eq_some_iff.2 ⟨core, _, trail, hscan, hbehind, rfl⟩]
      rfl
  | @comment family lead core _ hlead hcore =>
      subst hfamily
      have hmark := lead_of_mark rfl hlead
      have hbraced : bracedComment? .opening '{' Sentinel.opening (lead ++ core ++ rest) =
          some (⟨.opening, lead, core, []⟩, rest) :=
        (bracedComment?_eq_some_iff (by decide) (by decide)).2
          ⟨lead, core, hmark, hcore, rfl, rfl⟩
      unfold opening? trailed?
      rw [Found.text, List.append_nil, condition_comment_eq_none hmark hcore, hbraced]
      rfl
  | lineComment => cases hfamily
  | name => cases hfamily

/-- A proper closing is recognised, whatever follows. -/
theorem closing?_text (hf : f.Proper) (hfamily : f.family = .closing) :
    closing? (f.text ++ rest) = some (f, rest) := by
  cases hf with
  | condition => cases hfamily
  | @comment family lead core _ hlead hcore =>
      subst hfamily
      unfold closing?
      rw [Found.text, List.append_nil]
      exact (bracedComment?_eq_some_iff (by decide) (by decide)).2
        ⟨lead, core, lead_of_mark rfl hlead, hcore, rfl, rfl⟩
  | lineComment => cases hfamily
  | name => cases hfamily

/-- A proper comment is recognised where it ends. -/
theorem comment?_text (hf : f.Proper) (hfamily : f.family = .comment) (hends : f.Ends rest) :
    comment? (f.text ++ rest) = some (f, rest) := by
  cases hf with
  | condition => cases hfamily
  | @comment family lead core _ hlead hcore =>
      subst hfamily
      obtain rfl : lead = [] := by
        rcases hlead with rfl | ⟨mark, hmark, -⟩
        · rfl
        · cases hmark
      have hscan : commentOf Sentinel.comment (core ++ rest) = some (core, rest) :=
        (commentOf_eq_some_iff (by decide)).2 ⟨hcore, rfl⟩
      unfold comment?
      rw [Found.text, List.nil_append, List.append_nil, hscan]
      rfl
  | @lineComment core hcore =>
      have hnone : commentOf Sentinel.comment (core ++ rest) = none := by
        cases hscan : commentOf Sentinel.comment (core ++ rest) with
        | none => rfl
        | some answer =>
            obtain ⟨taken, rest'⟩ := answer
            obtain ⟨⟨body, -, rfl⟩, htext⟩ := (commentOf_eq_some_iff (by decide)).1 hscan
            obtain ⟨n, rfl⟩ := hcore
            simp at htext
      unfold comment?
      rw [Found.text, List.nil_append, List.append_nil, hnone,
        lineComment_eq_some_iff.2 ⟨hcore, hends.line, rfl⟩]
      rfl
  | name => cases hfamily

/-- A proper identifier is recognised where it ends. -/
theorem identifier?_text (hf : f.Proper) (hfamily : f.family = .identifier) (hends : f.Ends rest) :
    identifier? (f.text ++ rest) = some (f, rest) := by
  cases hf with
  | condition => cases hfamily
  | comment hne => exact absurd hfamily hne
  | lineComment => cases hfamily
  | @name core trail hcore htrail =>
      have hbehind := trailing_append (by decide) htrail fun hnil => hends.trail hnil (Or.inr hcore)
      have hscan : name (core ++ trail ++ rest) = some (core, trail ++ rest) :=
        name_eq_some_iff.2 ⟨hcore, List.append_assoc ..⟩
      unfold identifier?
      rw [Found.text, List.nil_append]
      exact trailed?_eq_some_iff.2 ⟨core, _, trail, hscan, hbehind, rfl⟩

/-- A proper placeholder is found where it starts, if nothing behind it could be a part of it. -/
theorem found?_text (hf : f.Proper) (hends : f.Ends rest) :
    found? (f.text ++ rest) = some (f, rest) := by
  have hopening : f.family ≠ .opening → opening? (f.text ++ rest) = none :=
    fun hne => eq_none_of_family_ne opening?_spec hf hne rest
  have hclosing : f.family ≠ .closing → closing? (f.text ++ rest) = none :=
    fun hne => eq_none_of_family_ne closing?_spec hf hne rest
  have hcomment : f.family ≠ .comment → comment? (f.text ++ rest) = none :=
    fun hne => eq_none_of_family_ne comment?_spec hf hne rest
  unfold found?
  simp only [Option.orElse_eq_orElse, Option.orElse_eq_or]
  cases hfamily : f.family with
  | opening => rw [opening?_text hf hfamily hends, Option.some_or]
  | closing =>
      rw [hopening (by simp [hfamily]), Option.none_or, closing?_text hf hfamily, Option.some_or]
  | comment =>
      rw [hopening (by simp [hfamily]), Option.none_or, hclosing (by simp [hfamily]),
        Option.none_or, comment?_text hf hfamily hends, Option.some_or]
  | identifier =>
      rw [hopening (by simp [hfamily]), Option.none_or, hclosing (by simp [hfamily]),
        Option.none_or, hcomment (by simp [hfamily]), Option.none_or,
        identifier?_text hf hfamily hends]

end Complete

/-- Behind plain text a proper placeholder is the first that is found, if neither the text in front
of it nor the text behind it could be a part of it. -/
theorem next?_append {f : Found} {before after : Text} (hf : f.Proper)
    (hbefore : Text.Plain before) (hends : f.Ends after)
    (hlead : f.lead = [] → IsComment f.family.filler f.core →
      ∀ mark, f.family.mark? = some mark → ∀ x y, before = x ++ y → ¬ IsLead mark y) :
    next? (before ++ (f.text ++ after)) = some (before, f, after) := by
  unfold next?
  refine Text.firstMatch?_append (found?_text hf hends) fun x y hxy hne => ?_
  cases hfound : found? (y ++ (f.text ++ after)) with
  | none => rfl
  | some answer =>
      obtain ⟨g, rest⟩ := answer
      obtain ⟨hg, htext⟩ := found?_spec hfound
      have hplain : Text.Plain y := by
        rw [hxy] at hbefore
        exact hbefore.of_append.2
      rcases (hg.overlap hf hplain htext.symm).2 with hnil | ⟨hcore, hnil, mark, hmark, hy⟩
      · exact absurd hnil hne
      · exact absurd hy (hlead hnil hcore mark hmark x y hxy)

/-- Nothing is found in a text without sentinels. -/
theorem found?_of_plain {t : Text} (ht : Text.Plain t) : found? t = none := by
  cases hfound : found? t with
  | none => rfl
  | some answer =>
      obtain ⟨g, rest⟩ := answer
      obtain ⟨hg, rfl⟩ := found?_spec hfound
      obtain ⟨front, back, -, hfront⟩ := hg.front
      have hmem : g.family.sentinel ∈ g.text ++ rest := by simp [hfront]
      exact absurd (ht _ hmem) (by simp [Family.isSentinel_sentinel])

/-- Nothing is found in plain text. -/
theorem next?_plain {t : Text} (ht : Text.Plain t) : next? t = none := by
  unfold next?
  refine Text.firstMatch?_eq_none fun x y hxy => found?_of_plain ?_
  rw [hxy] at ht
  exact ht.of_append.2

end Placeholder

end Stencil
