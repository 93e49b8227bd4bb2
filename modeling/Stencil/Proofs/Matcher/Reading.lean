import Stencil.Matcher.Run

/-!
# Matching without layers

The engine behind matchers writes into layers of a store, drops them or folds them. Nothing of that
has to show: a matcher can be read as a recogniser that is handed an immutable map and answers with
another one, and a try that fails hands on the map that it was given. `Matcher.parse` reads matchers
this way.

Like the engine, a reading carries a bound on its depth. `Matcher.parse_mono` says that the bound
does not matter: what a reading comes to under one bound it comes to under every larger one.
-/

set_option autoImplicit false

namespace Stencil

/-! ## Changes of a map -/

/-- A condition that changes nothing when it is asked. -/
def Condition.OnlyAsks (test : Condition) : Prop := ∀ view, test.edits view = []

namespace View

/-- The map after a change. -/
def edit (view : View) : Edit → View
  | .set key value => fun k => if key = k then some value else view k
  | .delete key => fun k => if key = k then none else view k

/-- The map after changes in order. -/
def edits (view : View) (es : List Edit) : View := es.foldl edit view

/-- The map after a condition is asked. -/
def ask (test : Condition) (view : View) : View := view.edits (test.edits view)

/-- The map after hooks on entry, each of which sees the changes of those before it. -/
def enter (hooks : List EntryHook) (view : View) : View :=
  hooks.foldl (fun view hook => view.edits (hook view)) view

/-- The map after hooks on a match, or what the first of them reports that finds something wrong. -/
def leave (text : Text) (position : Nat) : List MatchHook → View → Except Fault View
  | [], view => .ok view
  | hook :: hooks, view =>
    match hook text view with
    | (es, none) => leave text position hooks (view.edits es)
    | (_, some cause) => .error ⟨cause, position⟩

end View

/-- A change of a store is seen as a change of its map. -/
theorem Store.view_edit (s : Store) (e : Edit) : (s.edit e).view = s.view.edit e := by
  funext key
  cases e with
  | set k value => exact s.view_set k key value
  | delete k => exact s.view_delete k key

/-- Changes of a store are seen as changes of its map. -/
theorem Store.view_edits (s : Store) (es : List Edit) : (s.edits es).view = s.view.edits es := by
  induction es generalizing s with
  | nil => rfl
  | cons e es ih =>
      show ((s.edit e).edits es).view = (s.view.edit e).edits es
      rw [ih, s.view_edit]

/-- A reader sees what a condition changes. -/
theorem Attempt.view_ask (a : Attempt) (test : Condition) :
    (a.ask test).store.view = a.store.view.ask test :=
  a.store.view_edits (test.edits a.store.view)

/-- The map stays as it is when a condition is asked that changes nothing. -/
theorem Condition.OnlyAsks.view_ask {test : Condition} (h : test.OnlyAsks) (view : View) :
    view.ask test = view := by
  rw [View.ask, h]
  rfl

/-- The state stays as it is when a condition is asked that changes nothing. -/
theorem Condition.OnlyAsks.attempt_ask {test : Condition} (h : test.OnlyAsks) (a : Attempt) :
    a.ask test = a := by
  rw [Attempt.ask, h]
  rfl

/-! ## Readings -/

/-- What reading a text at a place comes to. -/
inductive Verdict where
  /-- A match that ends at a place, and the map behind it. -/
  | ends (stop : Cursor) (view : View)
  /-- No match. -/
  | fails
  /-- A hook found something wrong. -/
  | faults (f : Fault)

/-- A match that ends at a place, if there is one, and leaves the map alone. -/
def Verdict.ofStop (view : View) : Option Cursor → Verdict
  | some stop => .ends stop view
  | none => .fails

/-- Reading the text at a place with a map in hand. -/
abbrev Parse := View → Cursor → Except Halt Verdict

namespace Parse

/-- A reading that leaves the map alone. -/
def pure (stop? : Cursor → Option Cursor) : Parse := fun view c => .ok (.ofStop view (stop? c))

/-- Readings one behind the other, each with the map of the one before it. -/
def sequence : List Parse → Parse
  | [] => fun view c => .ok (.ends c view)
  | parse :: parses => fun view c =>
    match parse view c with
    | .ok (.ends stop view') => sequence parses view' stop
    | failure => failure

/-- The first reading that matches, each with the map that the first was given. -/
def oneOf : List Parse → Parse
  | [] => fun _ _ => .ok .fails
  | parse :: parses => fun view c =>
    match parse view c with
    | .ok .fails => oneOf parses view c
    | verdict => verdict

/-- A reading, or none. -/
def maybe (parse : Parse) : Parse := fun view c =>
  match parse view c with
  | .ok .fails => .ok (.ends c view)
  | verdict => verdict

/-- A reading as often as it matches and moves on, at most `count` times. The last match may stay
where it is; the map behind it is kept all the same. -/
def more (parse : Parse) : Nat → Parse
  | 0 => fun _ _ => .error .tooDeep
  | count + 1 => fun view c =>
    match parse view c with
    | .ok (.ends stop view') =>
      if stop.position = c.position then .ok (.ends c view') else more parse count view' stop
    | .ok .fails => .ok (.ends c view)
    | failure => failure

/-- A reading once, and then as often as it matches and moves on. -/
def many (parse : Parse) (count : Nat) : Parse := fun view c =>
  match parse view c with
  | .ok (.ends stop view') =>
    if stop.position = c.position then .ok .fails else more parse count view' stop
  | failure => failure

/-- A reading as often as it takes to reach a terminator, at most `count` times. -/
def upTo (parse terminator : Parse) : Nat → Parse
  | 0 => fun _ _ => .error .tooDeep
  | count + 1 => fun view c =>
    match terminator view c with
    | .ok .fails =>
      if c.atEnd then .ok .fails
      else
        match parse view c with
        | .ok (.ends stop view') =>
          if stop.position = c.position then .ok .fails
          else upTo parse terminator count view' stop
        | failure => failure
    | verdict => verdict

/-- A reading with hooks. -/
def hooked (onEntry : List EntryHook) (onMatch : List MatchHook) (parse : Parse) : Parse :=
  fun view c =>
    match parse (view.enter onEntry) c with
    | .ok (.ends stop view') =>
      match view'.leave (c.upTo stop) c.position onMatch with
      | .ok view'' => .ok (.ends stop view'')
      | .error f => .ok (.faults f)
    | failure => failure

end Parse

/-- The place behind a pattern, if it matches here and takes a character. -/
def Pattern.ahead? (p : Pattern) (c : Cursor) : Option Cursor :=
  match p.width c.front c.rest with
  | none => none
  | some 0 => none
  | some (n + 1) => some (c.advance (n + 1))

namespace Pattern

variable {p : Pattern} {c d : Cursor}

/-- A pattern that takes a character wherever it matches. -/
def Consumes (p : Pattern) : Prop := ∀ front t, p.width front t ≠ some 0

/-- The place ahead has the characters that the pattern takes in front of it. -/
theorem ahead?_eq_some_iff :
    p.ahead? c = some d ↔ ∃ n, p.width c.front c.rest = some (n + 1) ∧ d = c.advance (n + 1) := by
  unfold ahead?
  rcases p.width c.front c.rest with _ | _ | n
  · simp
  · simp
  · simp [eq_comm]

/-- A pattern for one character takes one. -/
theorem consumes_charBefore (label : String) (admits : Char → Text → Bool) :
    (charBefore label admits).Consumes := by
  rintro front (_ | ⟨x, t⟩)
  · nofun
  · simp [charBefore]

/-- A pattern for a word takes at least the first character of one. -/
theorem consumes_word (label : String) (isFirst isLater : Char → Bool) :
    (word label isFirst isLater).Consumes := by
  rintro front (_ | ⟨x, t⟩)
  · nofun
  · simp [word]

/-- A pattern for a fixed text takes the text. -/
theorem consumes_textBefore (label : String) {text : Text} (nonempty : text ≠ [])
    (ahead : Text → Bool) : (textBefore label text ahead).Consumes := by
  intro front t
  unfold textBefore
  dsimp only
  cases Text.after? text t with
  | none => nofun
  | some rest => simp [nonempty]

/-- A pattern for two fixed texts takes the first of them. -/
theorem consumes_around (label : String) {first : Text} (nonempty : first ≠ [])
    (isMember : Char → Bool) (last : Text) : (around label first isMember last).Consumes := by
  intro front t
  have hpos := List.length_pos_iff.2 nonempty
  unfold around
  dsimp only
  cases Text.after? first t with
  | none => nofun
  | some rest =>
      dsimp only
      cases Text.after? last (rest.dropWhile isMember) with
      | none => nofun
      | some rest' =>
          simp only [ne_eq, Option.some.injEq]
          omega

/-- In the text the engine and the reading follow a pattern alike, and everywhere if the pattern
takes a character wherever it matches. -/
theorem after?_eq_ahead? (h : c.past = 0 ∨ p.Consumes) : p.after? c = p.ahead? c := by
  unfold after? ahead?
  cases hwidth : p.width c.front c.rest with
  | none => rfl
  | some n =>
      cases n with
      | zero =>
          rcases h with hpast | hconsumes
          · exact if_pos hpast
          · exact absurd hwidth (hconsumes _ _)
      | succ n => rfl

end Pattern

/-- Reading a text as a matcher, with a bound on the depth. -/
def Matcher.parse {ν : Type} (rules : Rules ν) : Nat → Matcher ν → Parse
  | 0, _ => fun _ _ => .error .tooDeep
  | depth + 1, m =>
    match m with
    | literal text _ => Parse.pure fun c => c.after? text
    | pattern p => Parse.pure p.ahead?
    | sequence parts => Parse.sequence (parts.map (parse rules depth))
    | oneOf choices => Parse.oneOf (choices.map (parse rules depth))
    | maybe body => Parse.maybe (parse rules depth body)
    | many body => Parse.many (parse rules depth body) depth
    | upTo body terminator =>
      Parse.upTo (parse rules depth body) (parse rules depth terminator) depth
    | when test body => fun view c =>
      if test.holds view then parse rules depth body (view.ask test) c else .ok .fails
    | whenElse test body otherwise => fun view c =>
      if test.holds view then parse rules depth body (view.ask test) c
      else parse rules depth otherwise (view.ask test) c
    | ref name =>
      match rules.body name with
      | some body => parse rules depth body
      | none => fun _ _ => .error (.undefinedRule (rules.label name))
    | labelled _ body => parse rules depth body
    | hooked onEntry onMatch body => Parse.hooked onEntry onMatch (parse rules depth body)

/-! ## The bound on the depth -/

namespace Parse

/-- A reading that answers like another one wherever that one comes to an end. -/
def Extends (parse' parse : Parse) : Prop :=
  ∀ view c, parse' view c = parse view c ∨ ∃ halt, parse view c = .error halt

section Extends

variable {ν : Type} {read read' : Matcher ν → Parse}
  {parse parse' ending ending' other other' : Parse}

/-- A reading extends itself. -/
theorem Extends.refl (parse : Parse) : Extends parse parse := fun _ _ => .inl rfl

/-- A sequence of readings that extend others extends the sequence of those. -/
theorem extends_sequence (parts : List (Matcher ν)) (h : ∀ m, Extends (read' m) (read m)) :
    Extends (sequence (parts.map read')) (sequence (parts.map read)) := by
  induction parts with
  | nil => exact .refl _
  | cons m ms ih =>
      intro view c
      rw [List.map_cons, List.map_cons, sequence, sequence]
      dsimp only
      rcases h m view c with heq | ⟨halt, heq⟩
      · rw [heq]
        rcases read m view c with halt | ⟨stop, view'⟩ | - | f
        · exact .inl rfl
        · exact ih view' stop
        · exact .inl rfl
        · exact .inl rfl
      · rw [heq]
        exact .inr ⟨halt, rfl⟩

/-- A choice among readings that extend others extends the choice among those. -/
theorem extends_oneOf (choices : List (Matcher ν)) (h : ∀ m, Extends (read' m) (read m)) :
    Extends (oneOf (choices.map read')) (oneOf (choices.map read)) := by
  induction choices with
  | nil => exact .refl _
  | cons m ms ih =>
      intro view c
      rw [List.map_cons, List.map_cons, oneOf, oneOf]
      dsimp only
      rcases h m view c with heq | ⟨halt, heq⟩
      · rw [heq]
        rcases read m view c with halt | ⟨stop, view'⟩ | - | f
        · exact .inl rfl
        · exact .inl rfl
        · exact ih view c
        · exact .inl rfl
      · rw [heq]
        exact .inr ⟨halt, rfl⟩

/-- An option extends another one if its body extends the other body. -/
theorem Extends.maybe (h : Extends parse' parse) : Extends (maybe parse') (maybe parse) := by
  intro view c
  unfold Parse.maybe
  rcases h view c with heq | ⟨halt, heq⟩
  · rw [heq]
    exact .inl rfl
  · rw [heq]
    exact .inr ⟨halt, rfl⟩

/-- With more rounds and a body that comes to an end more often a repetition does so, too. -/
theorem Extends.more (h : Extends parse' parse) {count count' : Nat} (hle : count ≤ count') :
    Extends (more parse' count') (more parse count) := by
  induction count generalizing count' with
  | zero => exact fun _ _ => .inr ⟨.tooDeep, rfl⟩
  | succ count ih =>
      obtain ⟨count', rfl⟩ : ∃ n, count' = n + 1 := ⟨count' - 1, by omega⟩
      intro view c
      unfold Parse.more
      rcases h view c with heq | ⟨halt, heq⟩
      · rw [heq]
        rcases parse view c with halt | ⟨stop, view'⟩ | - | f
        · exact .inl rfl
        · dsimp only
          split
          · exact .inl rfl
          · exact ih (by omega) view' stop
        · exact .inl rfl
        · exact .inl rfl
      · rw [heq]
        exact .inr ⟨halt, rfl⟩

/-- A repetition extends another one if its body does and it has no fewer rounds. -/
theorem Extends.many (h : Extends parse' parse) {count count' : Nat} (hle : count ≤ count') :
    Extends (many parse' count') (many parse count) := by
  intro view c
  unfold Parse.many
  rcases h view c with heq | ⟨halt, heq⟩
  · rw [heq]
    rcases parse view c with halt | ⟨stop, view'⟩ | - | f
    · exact .inl rfl
    · dsimp only
      split
      · exact .inl rfl
      · exact h.more hle view' stop
    · exact .inl rfl
    · exact .inl rfl
  · rw [heq]
    exact .inr ⟨halt, rfl⟩

/-- A repetition up to a terminator extends another one if its parts do and it has no fewer rounds.
-/
theorem Extends.upTo (h : Extends parse' parse) (hending : Extends ending' ending)
    {count count' : Nat} (hle : count ≤ count') :
    Extends (upTo parse' ending' count') (upTo parse ending count) := by
  induction count generalizing count' with
  | zero => exact fun _ _ => .inr ⟨.tooDeep, rfl⟩
  | succ count ih =>
      obtain ⟨count', rfl⟩ : ∃ n, count' = n + 1 := ⟨count' - 1, by omega⟩
      intro view c
      unfold Parse.upTo
      rcases hending view c with heq | ⟨halt, heq⟩
      · rw [heq]
        rcases ending view c with halt | ⟨stop, view'⟩ | - | f
        · exact .inl rfl
        · exact .inl rfl
        · -- the terminator fails, and the body is read
          dsimp only
          split
          · exact .inl rfl
          rcases h view c with heq' | ⟨halt, heq'⟩
          · rw [heq']
            rcases parse view c with halt | ⟨stop, view'⟩ | - | f
            · exact .inl rfl
            · dsimp only
              split
              · exact .inl rfl
              · exact ih (by omega) view' stop
            · exact .inl rfl
            · exact .inl rfl
          · rw [heq']
            exact .inr ⟨halt, rfl⟩
        · exact .inl rfl
      · rw [heq]
        exact .inr ⟨halt, rfl⟩

/-- Hooks around a reading that extends another one extend the same hooks around that. -/
theorem Extends.hooked (h : Extends parse' parse) (onEntry : List EntryHook)
    (onMatch : List MatchHook) :
    Extends (hooked onEntry onMatch parse') (hooked onEntry onMatch parse) := by
  intro view c
  unfold Parse.hooked
  rcases h (view.enter onEntry) c with heq | ⟨halt, heq⟩
  · rw [heq]
    exact .inl rfl
  · rw [heq]
    exact .inr ⟨halt, rfl⟩

/-- A choice by a condition extends another one by the same condition if its branches do. -/
theorem Extends.asking (h : Extends parse' parse) (hother : Extends other' other)
    (test : Condition) :
    Extends
      (fun view c => if test.holds view then parse' (view.ask test) c else other' (view.ask test) c)
      (fun view c =>
        if test.holds view then parse (view.ask test) c else other (view.ask test) c) := by
  intro view c
  dsimp only
  split
  · exact h (view.ask test) c
  · exact hother (view.ask test) c

end Extends

end Parse

namespace Matcher

variable {ν : Type} {rules : Rules ν}

/-- With a larger bound a reading says the same wherever it came to an end before. -/
theorem extends_parse {depth depth' : Nat} (hle : depth ≤ depth') (m : Matcher ν) :
    (m.parse rules depth').Extends (m.parse rules depth) := by
  induction depth generalizing depth' m with
  | zero => exact fun _ _ => .inr ⟨.tooDeep, rfl⟩
  | succ depth ih =>
      obtain ⟨depth', rfl⟩ : ∃ n, depth' = n + 1 := ⟨depth' - 1, by omega⟩
      have hle' : depth ≤ depth' := by omega
      have hpart : ∀ m : Matcher ν, (m.parse rules depth').Extends (m.parse rules depth) := ih hle'
      unfold parse
      cases m with
      | literal text nonempty => exact .refl _
      | pattern p => exact .refl _
      | sequence parts => exact Parse.extends_sequence parts hpart
      | oneOf choices => exact Parse.extends_oneOf choices hpart
      | maybe body => exact (hpart body).maybe
      | many body => exact (hpart body).many hle'
      | upTo body terminator => exact (hpart body).upTo (hpart terminator) hle'
      | when test body => exact (hpart body).asking (.refl (Parse.pure fun _ => none)) test
      | whenElse test body otherwise => exact (hpart body).asking (hpart otherwise) test
      | ref name =>
          cases hbody : rules.body name with
          | none =>
              simp only [hbody]
              exact .refl _
          | some body =>
              simp only [hbody]
              exact hpart body
      | labelled label body => exact hpart body
      | hooked onEntry onMatch body => exact (hpart body).hooked onEntry onMatch

/-- What a reading comes to under one bound it comes to under every larger one. -/
theorem parse_mono {depth depth' : Nat} {m : Matcher ν} {view : View} {c : Cursor}
    {verdict : Verdict} (hle : depth ≤ depth') (h : m.parse rules depth view c = .ok verdict) :
    m.parse rules depth' view c = .ok verdict := by
  rcases extends_parse hle m view c with heq | ⟨halt, heq⟩
  · exact heq.trans h
  · rw [heq] at h
    cases h

end Matcher

end Stencil
