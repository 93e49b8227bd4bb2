import Stencil.Proofs.Matcher.Parsing

/-!
# Moving over a text

A match leads from one place of a text to a later one: what stands between is what was read
(`Cursor.Leads`). Every matcher does so (`Matcher.Parses.moves`), which is all that has to be known
of the parts of a sequence to see from its first part how the whole of it starts, and from its last
part how it ends.
-/

set_option autoImplicit false

namespace Stencil

namespace Cursor

variable {c d e : Cursor} {t t' : Text}

/-- A text leads from one place to another. -/
structure Leads (c : Cursor) (t : Text) (d : Cursor) : Prop where
  rest_eq : c.rest = t ++ d.rest
  front_eq : d.front = t.reverse ++ c.front
  past_eq : c.past = 0 → d.past = 0

/-- A text leads as many characters further on as it is long. -/
theorem Leads.offset_eq (h : c.Leads t d) : d.offset = c.offset + t.length := by
  rw [offset, h.front_eq, List.length_append, List.length_reverse, Nat.add_comm, offset]

/-- The empty text leads from a place to itself. -/
theorem Leads.refl (c : Cursor) : c.Leads [] c := ⟨rfl, rfl, id⟩

/-- Two texts one behind the other lead where the second one does. -/
theorem Leads.trans (h : c.Leads t d) (h' : d.Leads t' e) : c.Leads (t ++ t') e := by
  constructor
  · rw [h.rest_eq, h'.rest_eq, List.append_assoc]
  · rw [h'.front_eq, h.front_eq, List.reverse_append, List.append_assoc]
  · exact fun hpast => h'.past_eq (h.past_eq hpast)

/-- Two texts one behind the other lead over the place between them. -/
theorem Leads.exists_between (h : c.Leads (t ++ t') d) : ∃ e, c.Leads t e ∧ e.Leads t' d := by
  refine ⟨⟨t.reverse ++ c.front, t' ++ d.rest, c.past⟩, ⟨?_, rfl, id⟩, ⟨rfl, ?_, h.past_eq⟩⟩
  · rw [h.rest_eq, List.append_assoc]
  · rw [h.front_eq, List.reverse_append, List.append_assoc]

/-- A text leads to one place. -/
theorem Leads.stop_eq {d' : Cursor} (h : c.Leads t d) (h' : c.Leads t d') (hpast : c.past = 0) :
    d = d' := by
  obtain ⟨front, rest, past⟩ := d
  obtain ⟨front', rest', past'⟩ := d'
  obtain rfl : past = 0 := h.past_eq hpast
  obtain rfl : past' = 0 := h'.past_eq hpast
  obtain rfl : rest = rest' := List.append_cancel_left (h.rest_eq.symm.trans h'.rest_eq)
  obtain rfl : front = front' := h.front_eq.trans h'.front_eq.symm
  rfl

/-- The text between two places is what stands at the first, as far as the second. -/
theorem Leads.take_rest (h : c.Leads t d) : c.rest.take (d.offset - c.offset) = t := by
  have hlen : d.offset - c.offset = t.length := by
    rw [h.offset_eq]
    omega
  rw [hlen, h.rest_eq, List.take_left]

/-- One text leads from one place to another. -/
theorem Leads.unique (h : c.Leads t d) (h' : c.Leads t' d) : t = t' := by
  rw [← h.take_rest, h'.take_rest]

/-- What a place has up to another one is the text that leads there. -/
theorem Leads.upTo_eq (h : c.Leads t d) (hpast : c.past = 0) : c.upTo d = t := by
  show c.rest.take (d.offset + d.past - (c.offset + c.past)) = t
  rw [h.past_eq hpast, hpast]
  exact h.take_rest

/-- A word leads to the place behind it. -/
theorem leads_after? (h : c.after? t = some d) : c.Leads t d := by
  obtain ⟨rest, hrest, rfl⟩ := after?_eq_some_iff.1 h
  exact ⟨hrest, rfl, id⟩

/-- The place to which a word leads is the place behind it. -/
theorem after?_of_leads (hpast : c.past = 0) (h : c.Leads t d) : c.after? t = some d := by
  refine after?_eq_some_iff.2 ⟨d.rest, h.rest_eq, ?_⟩
  rw [← h.front_eq, hpast, ← h.past_eq hpast]

/-- There is no place behind a word that does not stand here. -/
theorem after?_of_not_stands (h : ¬t <+: c.rest) : c.after? t = none := by
  cases hafter : c.after? t with
  | none => rfl
  | some d => exact absurd ⟨d.rest, (leads_after? hafter).rest_eq.symm⟩ h

/-- The characters that are passed lead to where passing them ends. -/
theorem leads_advance (c : Cursor) (n : Nat) : c.Leads (c.rest.take n) (c.advance n) := by
  constructor
  · exact (List.take_append_drop n c.rest).symm
  · rfl
  · exact id

/-- A pattern leads somewhere. -/
theorem exists_leads_pattern {p : Pattern} (h : p.ahead? c = some d) : ∃ t, c.Leads t d := by
  obtain ⟨n, -, rfl⟩ := Pattern.ahead?_eq_some_iff.1 h
  exact ⟨_, leads_advance c (n + 1)⟩

/-- A pattern that takes a text in front of the rest leads behind that text. -/
theorem leads_of_width {p : Pattern} {rest : Text} (nonempty : t ≠ []) (hrest : c.rest = t ++ rest)
    (hwidth : p.width c.front c.rest = some t.length) (h : p.ahead? c = some d) : c.Leads t d := by
  obtain ⟨x, t, rfl⟩ := List.exists_cons_of_ne_nil nonempty
  rw [Pattern.ahead?, hwidth] at h
  have hd : c.advance (x :: t).length = d := Option.some.inj h
  have hleads := leads_advance c (x :: t).length
  rw [hd, hrest, List.take_left] at hleads
  exact hleads

/-- A character of one class and a run of another lead to the first character that is not of the
second class. -/
theorem leads_word {label : String} {isFirst isLater : Char → Bool}
    (h : (Pattern.word label isFirst isLater).ahead? c = some d) :
    ∃ x t, isFirst x = true ∧ (∀ y ∈ t, isLater y = true) ∧ c.Leads (x :: t) d := by
  cases hrest : c.rest with
  | nil => simp [Pattern.ahead?, Pattern.word, hrest] at h
  | cons x rest =>
      by_cases hx : isFirst x = true
      · refine ⟨x, rest.takeWhile isLater, hx, fun y hy => List.mem_takeWhile_imp hy, ?_⟩
        have hsplit : c.rest = x :: rest.takeWhile isLater ++ rest.dropWhile isLater := by
          rw [hrest, List.cons_append, List.takeWhile_append_dropWhile]
        exact leads_of_width (List.cons_ne_nil _ _) hsplit (by simp [Pattern.word, hrest, hx]) h
      · simp [Pattern.ahead?, Pattern.word, hrest, hx] at h

/-- A word in front of something leads over the word alone. -/
theorem leads_textBefore {label : String} {ahead : Text → Bool} (nonempty : t ≠ [])
    (h : (Pattern.textBefore label t ahead).ahead? c = some d) : c.Leads t d := by
  cases hrest : Text.after? t c.rest with
  | none => simp [Pattern.ahead?, Pattern.textBefore, hrest] at h
  | some rest =>
      by_cases hahead : ahead rest = true
      · exact leads_of_width nonempty (Text.after?_eq_some_iff.1 hrest)
          (by simp [Pattern.textBefore, hrest, hahead]) h
      · simp [Pattern.ahead?, Pattern.textBefore, hrest, hahead] at h

/-- Two fixed texts lead to the place behind the second, with what stands between them. -/
theorem leads_around {label : String} {first last : Text} {isMember : Char → Bool}
    (nonempty : first ≠ []) (h : (Pattern.around label first isMember last).ahead? c = some d) :
    ∃ t, c.Leads (first ++ t ++ last) d := by
  cases hfirst : Text.after? first c.rest with
  | none => simp [Pattern.ahead?, Pattern.around, hfirst] at h
  | some rest =>
      cases hlast : Text.after? last (rest.dropWhile isMember) with
      | none => simp [Pattern.ahead?, Pattern.around, hfirst, hlast] at h
      | some behind =>
          have hrest : c.rest = first ++ rest.takeWhile isMember ++ last ++ behind := by
            rw [List.append_assoc, ← Text.after?_eq_some_iff.1 hlast, List.append_assoc,
              List.takeWhile_append_dropWhile]
            exact Text.after?_eq_some_iff.1 hfirst
          refine ⟨_, leads_of_width (by simp [nonempty]) hrest ?_ h⟩
          simp only [Pattern.around, hfirst, hlast, List.length_append]

end Cursor

namespace Matcher

variable {ν : Type} {rules : Rules ν} {m body : Matcher ν} {view view' : View} {c stop : Cursor}

/-- Reading a fixed text leads over this text. -/
theorem leads_of_parses_literal {text : Text} {nonempty : text ≠ []}
    (h : (literal text nonempty).Parses rules view c (.ends stop view')) : c.Leads text stop := by
  rw [parses_literal_iff, ofStop_eq_ends_iff] at h
  exact Cursor.leads_after? h.1

/-- A reading that leads from one place to another. -/
def Moves (_ : View) (c : Cursor) (_ : View) (d : Cursor) : Prop := ∃ t, c.Leads t d

/-- Leading on is handed on from reading to reading. -/
theorem passage_moves : Passage Moves where
  refl _ c := ⟨[], .refl c⟩
  trans := by
    rintro - c - c' - c'' ⟨t, ht⟩ ⟨t', ht'⟩
    exact ⟨t ++ t', ht.trans ht'⟩
  stay := fun _ _ => ⟨[], .refl _⟩
  literal _ _ _ _ h := ⟨_, Cursor.leads_after? h⟩
  pattern _ _ _ _ h := Cursor.exists_leads_pattern h

mutual

/-- Hooks and conditions stay at their place, whatever they write. -/
theorem respects_moves (m : Matcher ν) : m.Respects Moves fun _ => True := by
  match m with
  | literal _ _ | pattern _ | ref _ => trivial
  | sequence parts | oneOf parts => exact allRespect_moves parts
  | maybe body | many body | labelled _ body => exact respects_moves body
  | upTo body terminator => exact ⟨respects_moves body, respects_moves terminator⟩
  | when _ body => exact ⟨fun _ c => ⟨[], .refl c⟩, respects_moves body⟩
  | whenElse _ body otherwise =>
      exact ⟨fun _ c => ⟨[], .refl c⟩, respects_moves body, respects_moves otherwise⟩
  | hooked _ _ body =>
      exact ⟨fun _ _ _ c => ⟨[], .refl c⟩, fun _ _ _ _ c => ⟨[], .refl c⟩, respects_moves body⟩

/-- So do those of several matchers. -/
theorem allRespect_moves (ms : List (Matcher ν)) : AllRespect Moves (fun _ => True) ms := by
  match ms with
  | [] => trivial
  | m :: ms => exact ⟨respects_moves m, allRespect_moves ms⟩

end

/-- Every reading leads from its start to its end. -/
theorem carries_moves_parse (m : Matcher ν) (depth : Nat) : (m.parse rules depth).Carries Moves :=
  carries_parse passage_moves (fun _ body _ _ => respects_moves body) depth (respects_moves m)

/-- A match leads from one place to another. -/
theorem Parses.moves (h : m.Parses rules view c (.ends stop view')) : ∃ t, c.Leads t stop := by
  obtain ⟨depth, hdepth⟩ := h
  exact carries_moves_parse m depth hdepth

/-- Behind a match no more is left than was there. -/
theorem Parses.length_rest_le (h : m.Parses rules view c (.ends stop view')) :
    stop.rest.length ≤ c.rest.length := by
  obtain ⟨t, hleads⟩ := h.moves
  rw [hleads.rest_eq, List.length_append]
  omega

/-- All that is read starts with a character of a class. -/
def StartsWith (rules : Rules ν) (isFirst : Char → Bool) (m : Matcher ν) : Prop :=
  ∀ ⦃view c stop view'⦄, m.Parses rules view c (.ends stop view') →
    ∃ x t, isFirst x = true ∧ c.Leads (x :: t) stop

/-- All that is read ends with a character of a class. -/
def EndsWith (rules : Rules ν) (isLast : Char → Bool) (m : Matcher ν) : Prop :=
  ∀ ⦃view c stop view'⦄, m.Parses rules view c (.ends stop view') →
    ∃ t x, isLast x = true ∧ c.Leads (t ++ [x]) stop

section Ends

variable {p : Char → Bool}

/-- What a fixed text reads starts with its first character. -/
theorem startsWith_literal {text : Text} {nonempty : text ≠ []}
    (h : text.head?.any p = true) : StartsWith rules p (literal text nonempty) := by
  intro view c stop view' hparses
  obtain ⟨x, t, rfl⟩ := List.exists_cons_of_ne_nil nonempty
  exact ⟨x, t, h, leads_of_parses_literal hparses⟩

/-- What a fixed text reads ends with its last character. -/
theorem endsWith_literal {text : Text} {nonempty : text ≠ []}
    (h : text.getLast?.any p = true) : EndsWith rules p (literal text nonempty) := by
  intro view c stop view' hparses
  have hleads := leads_of_parses_literal hparses
  rw [← List.dropLast_concat_getLast nonempty] at hleads
  rw [List.getLast?_eq_some_getLast nonempty] at h
  exact ⟨_, _, h, hleads⟩

/-- What a sequence reads starts as what its first part reads. -/
theorem StartsWith.sequence_cons (h : StartsWith rules p m) (ms : List (Matcher ν)) :
    StartsWith rules p (sequence (m :: ms)) := by
  intro view c stop view' hparses
  obtain ⟨c', view'', hfirst, hothers⟩ := hparses.of_sequence_cons
  obtain ⟨x, t, hx, hleads⟩ := h hfirst
  obtain ⟨t', hleads'⟩ := hothers.moves
  exact ⟨x, t ++ t', hx, hleads.trans hleads'⟩

/-- What a sequence reads ends as what its last part reads. -/
theorem EndsWith.sequence_concat (h : EndsWith rules p m) (ms : List (Matcher ν)) :
    EndsWith rules p (sequence (ms ++ [m])) := by
  induction ms with
  | nil =>
      intro view c stop view' hparses
      obtain ⟨c', view'', hlast, hnil⟩ := hparses.of_sequence_cons
      rw [parses_sequence_nil_iff] at hnil
      cases hnil
      exact h hlast
  | cons m' ms ih =>
      intro view c stop view' hparses
      obtain ⟨c', view'', hfirst, hothers⟩ := hparses.of_sequence_cons
      obtain ⟨t, hleads⟩ := hfirst.moves
      obtain ⟨t', x, hx, hleads'⟩ := ih hothers
      refine ⟨t ++ t', x, hx, ?_⟩
      rw [List.append_assoc]
      exact hleads.trans hleads'

/-- A repetition up to a terminator ends with a match of the terminator. -/
theorem exists_ending_of_upTo {parse ending : Parse} (hparse : parse.Carries Moves) {count : Nat}
    (h : parse.upTo ending count view c = .ok (.ends stop view')) :
    ∃ t c₁ view₁, c.Leads t c₁ ∧ ending view₁ c₁ = .ok (.ends stop view') := by
  induction count generalizing view c with
  | zero => cases h
  | succ count ih =>
      unfold Parse.upTo at h
      split at h
      · split at h
        · cases h
        split at h
        · rename_i c₁ view₁ hbody
          split at h
          · cases h
          · obtain ⟨t, hleads⟩ := hparse hbody
            obtain ⟨t', c₂, view₂, hleads', hending⟩ := ih h
            exact ⟨t ++ t', c₂, view₂, hleads.trans hleads', hending⟩
        · rename_i hfails
          exact absurd h (hfails stop view')
      · exact ⟨[], c, view, .refl c, h⟩

/-- A repetition up to a terminator ends with a match of the terminator. -/
theorem Parses.of_upTo {body : Matcher ν}
    (h : (upTo body m).Parses rules view c (.ends stop view')) :
    ∃ t c₁ view₁, c.Leads t c₁ ∧ m.Parses rules view₁ c₁ (.ends stop view') := by
  obtain ⟨depth, hdepth⟩ := parses_iff_succ.1 h
  obtain ⟨t, c₁, view₁, hleads, hending⟩ :=
    exists_ending_of_upTo (carries_moves_parse body depth) hdepth
  exact ⟨t, c₁, view₁, hleads, depth, hending⟩

/-- What is read up to a terminator ends as what the terminator reads. -/
theorem EndsWith.upTo (h : EndsWith rules p m) (body : Matcher ν) :
    EndsWith rules p (upTo body m) := by
  intro view c stop view' hparses
  obtain ⟨t, c₁, view₁, hleads, hending⟩ := hparses.of_upTo
  obtain ⟨t', x, hx, hleads'⟩ := h hending
  refine ⟨t ++ t', x, hx, ?_⟩
  rw [List.append_assoc]
  exact hleads.trans hleads'

/-- A choice that matches is a match of one of the choices. -/
theorem exists_choice_of_oneOf {choices : List (Matcher ν)} {read : Matcher ν → Parse}
    (h : Parse.oneOf (choices.map read) view c = .ok (.ends stop view')) :
    ∃ m ∈ choices, read m view c = .ok (.ends stop view') := by
  induction choices with
  | nil => cases h
  | cons m choices ih =>
      simp only [List.map_cons, Parse.oneOf] at h
      split at h
      · obtain ⟨m', hmem, hm'⟩ := ih h
        exact ⟨m', List.mem_cons_of_mem _ hmem, hm'⟩
      · exact ⟨m, List.mem_cons_self .., h⟩

/-- A choice that matches ends where one of the choices does. -/
theorem Parses.exists_choice {choices : List (Matcher ν)}
    (h : (Matcher.oneOf choices).Parses rules view c (.ends stop view')) :
    ∃ m ∈ choices, m.Parses rules view c (.ends stop view') := by
  obtain ⟨depth, hdepth⟩ := parses_iff_succ.1 h
  obtain ⟨m, hmem, hm⟩ := exists_choice_of_oneOf hdepth
  exact ⟨m, hmem, depth, hm⟩

/-- What a choice reads starts with a character of a class if that of all alternatives does. -/
theorem StartsWith.oneOf {choices : List (Matcher ν)} (h : ∀ m ∈ choices, StartsWith rules p m) :
    StartsWith rules p (oneOf choices) := by
  intro view c stop view' hparses
  obtain ⟨m, hmem, hm⟩ := hparses.exists_choice
  exact h m hmem hm

/-- A match under a condition is one behind asking it. -/
theorem Parses.of_when {test : Condition}
    (h : (when test body).Parses rules view c (.ends stop view')) :
    body.Parses rules (view.ask test) c (.ends stop view') := by
  obtain ⟨depth, hdepth⟩ := parses_iff_succ.1 h
  simp only [parse] at hdepth
  split at hdepth
  · exact ⟨depth, hdepth⟩
  · cases hdepth

/-- A condition changes nothing of what the text starts with. -/
theorem StartsWith.when (h : StartsWith rules p m) (test : Condition) :
    StartsWith rules p (when test m) :=
  fun _ _ _ _ hparses => h hparses.of_when

/-- A condition changes nothing of what the text ends with. -/
theorem EndsWith.when (h : EndsWith rules p m) (test : Condition) :
    EndsWith rules p (when test m) :=
  fun _ _ _ _ hparses => h hparses.of_when

end Ends

end Matcher

end Stencil
