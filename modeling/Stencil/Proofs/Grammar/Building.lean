import Mathlib.Data.List.Sort
import Mathlib.Data.String.Basic
import Stencil.Grammar
import Stencil.Proofs.Grammar.References
import Stencil.Proofs.Store.Layers

/-!
# Building a grammar

What a builder comes to under any sequence of calls is said by two facts on single calls. A call
declares the names it mentions (`GrammarBuilder.declares_after`), and a name is bound to what it was
bound to before, or else to what the call defines it as (`GrammarBuilder.body_after`). So a sequence
binds each name to its first definition, and building succeeds just when every name that was
mentioned has one.

The order in which rules came to a grammar shows in nothing but the order of its rules: names look
up the same matchers, and the bound under which these are tried adds up the same sizes
(`GrammarBuilder.rules_eq_of_body_eq`).
-/

set_option autoImplicit false

namespace Stencil

namespace Entries

variable {α : Type}

/-- An entry is found under a key exactly if the key is among the keys. -/
theorem isSome_get?_iff {key : String} {es : Entries α} :
    (es.get? key).isSome = true ↔ key ∈ es.map (·.1) := by
  induction es with
  | nil => simp [get?]
  | cons e es ih =>
      obtain ⟨k, v⟩ := e
      by_cases h : k = key
      · simp [get?, h]
      · simp [get?, h, Ne.symm h, ih]

/-- Putting a value adds its key to the keys, and no other. -/
theorem mem_keys_put {key k : String} {value : α} {es : Entries α} :
    k ∈ (es.put key value).map (·.1) ↔ k ∈ es.map (·.1) ∨ k = key := by
  rw [keys_put]
  split
  · rename_i hkey
    constructor
    · exact .inl
    · rintro (hk | rfl)
      · exact hk
      · exact hkey
  · rw [List.mem_append, List.mem_singleton]

/-- Where no key comes twice the entries are what is found under their keys. -/
theorem Distinct.mem_iff {es : Entries α} (h : es.Distinct) {key : String} {value : α} :
    (key, value) ∈ es ↔ es.get? key = some value := by
  induction es with
  | nil => simp [get?]
  | cons e es ih =>
      obtain ⟨k, v⟩ := e
      obtain ⟨hk, hes⟩ := List.nodup_cons.1 h
      by_cases heq : k = key
      · subst heq
        have hnot : (k, value) ∉ es := fun hmem => hk (List.mem_map.2 ⟨(k, value), hmem, rfl⟩)
        simp [get?, hnot, eq_comm]
      · simp [get?, heq, Ne.symm heq, ih hes]

/-- The entries that have a value, where it may be missing. -/
theorem get?_filterMap {es : Entries (Option α)} (h : es.Distinct) (key : String) :
    get? key (es.filterMap fun e => e.2.map (e.1, ·)) = (es.get? key).getD none := by
  induction es with
  | nil => rfl
  | cons e es ih =>
      obtain ⟨k, _ | v⟩ := e
      · obtain ⟨hk, hes⟩ := List.nodup_cons.1 h
        rw [List.filterMap_cons_none rfl, ih hes, get?]
        split
        · rename_i heq
          rw [heq] at hk
          rw [get?_eq_none hk]
          rfl
        · rfl
      · obtain ⟨-, hes⟩ := List.nodup_cons.1 h
        have hcons : ((k, some v) :: es).filterMap (fun e => e.2.map (e.1, ·)) =
            (k, v) :: es.filterMap fun e => e.2.map (e.1, ·) := rfl
        rw [hcons, get?, get?, ih hes]
        split <;> rfl

/-- Keys stay distinct where entries without a value are left out. -/
theorem Distinct.filterMap {es : Entries (Option α)} (h : es.Distinct) :
    Distinct (es.filterMap fun e => e.2.map (e.1, ·)) := by
  unfold Distinct List.Nodup at h ⊢
  rw [List.pairwise_map] at h ⊢
  rw [List.pairwise_filterMap]
  refine h.imp fun hne e he e' he' => ?_
  obtain ⟨v, -, rfl⟩ := Option.map_eq_some_iff.1 he
  obtain ⟨v', -, rfl⟩ := Option.map_eq_some_iff.1 he'
  exact hne

end Entries

/-- The sizes of matchers add up in any order. -/
theorem Matcher.sizes_perm {ν : Type} {ms ms' : List (Matcher ν)} (h : ms.Perm ms') :
    sizes ms = sizes ms' := by
  induction h with
  | nil => rfl
  | cons m _ ih => rw [sizes, sizes, ih]
  | swap m m' ms => simp only [sizes, Nat.add_left_comm]
  | trans _ _ ih ih' => exact ih.trans ih'

namespace GrammarBuilder

variable {b b' : GrammarBuilder} {name k : String} {m : Matcher String} {draft : Draft String}

/-- A name has been declared. -/
def Declares (b : GrammarBuilder) (name : String) : Prop := name ∈ b.bindings.map (·.1)

/-- A name is bound if the rules of the builder have a body for it. -/
theorem isBound_eq (b : GrammarBuilder) (name : String) :
    b.isBound name = (b.rules.body name).isSome := by
  simp only [isBound, rules]
  rcases b.bindings.get? name with _ | _ | m <;> rfl

/-! ## Single calls -/

/-- Declaring a name again changes nothing. -/
theorem declare_of_declares (h : b.Declares name) : b.declare name = b := by
  obtain ⟨binding, hbinding⟩ := Option.isSome_iff_exists.1 (Entries.isSome_get?_iff.2 h)
  rw [declare, hbinding]

/-- Behind a declaration the name is declared, and what was declared before. -/
theorem declares_declare : (b.declare name).Declares k ↔ b.Declares k ∨ k = name := by
  by_cases h : b.Declares name
  · rw [declare_of_declares h]
    constructor
    · exact .inl
    · rintro (hk | rfl)
      · exact hk
      · exact h
  · rw [declare, Entries.get?_eq_none h]
    exact Entries.mem_keys_put

/-- A declaration gives no rule a body and takes none away. -/
theorem body_declare (b : GrammarBuilder) (name k : String) :
    (b.declare name).rules.body k = b.rules.body k := by
  by_cases h : b.Declares name
  · rw [declare_of_declares h]
  · have hnone := Entries.get?_eq_none h
    rw [declare, hnone]
    simp only [rules, Entries.get?_put]
    split
    · rename_i heq
      rw [← heq, hnone]
      rfl
    · rfl

/-- Bindings stay distinct when a name is declared. -/
theorem distinct_declare (h : b.bindings.Distinct) (name : String) :
    (b.declare name).bindings.Distinct := by
  unfold declare
  split
  · exact h
  · exact h.put name none

/-- Declaring names again changes nothing. -/
theorem declareAll_of_declares {names : List String} (h : ∀ name ∈ names, b.Declares name) :
    b.declareAll names = b := by
  induction names with
  | nil => rfl
  | cons name names ih =>
      obtain ⟨hname, hnames⟩ := List.forall_mem_cons.1 h
      rw [declareAll, List.foldl_cons, declare_of_declares hname]
      exact ih hnames

/-- Behind declarations the names are declared, and what was declared before. -/
theorem declares_declareAll {names : List String} :
    (b.declareAll names).Declares k ↔ b.Declares k ∨ k ∈ names := by
  induction names generalizing b with
  | nil => simp [declareAll]
  | cons name names ih =>
      rw [declareAll, List.foldl_cons]
      exact ih.trans (by rw [declares_declare, List.mem_cons, or_assoc])

/-- Declarations give no rule a body and take none away. -/
theorem body_declareAll (b : GrammarBuilder) (names : List String) (k : String) :
    (b.declareAll names).rules.body k = b.rules.body k := by
  induction names generalizing b with
  | nil => rfl
  | cons name names ih =>
      rw [declareAll, List.foldl_cons]
      exact (ih _).trans (body_declare b name k)

/-- Bindings stay distinct when names are declared. -/
theorem distinct_declareAll (h : b.bindings.Distinct) (names : List String) :
    (b.declareAll names).bindings.Distinct := by
  induction names generalizing b with
  | nil => exact h
  | cons name names ih => exact ih (distinct_declare h name)

/-- A name that has a matcher is not bound again. -/
theorem bind_of_bound {m' : Matcher String} (h : b.rules.body name = some m') :
    b.bind name (.ok m) = (b.declare name, .error (.alreadyDefined name)) := by
  have hbound : (b.declare name).isBound name = true := by
    rw [isBound_eq, body_declare, h]
    rfl
  rw [bind, if_pos hbound]

/-- A name that has no matcher is bound. -/
theorem bind_of_unbound (h : b.rules.body name = none) :
    b.bind name (.ok m) =
      (⟨(b.declare name).bindings.put name (some (labelledAs name m))⟩,
        .ok (labelledAs name m)) := by
  have hbound : ¬(b.declare name).isBound name = true := by
    rw [isBound_eq, body_declare, h]
    nofun
  rw [bind, if_neg hbound]

/-- Defining a rule declares what its draft refers to and binds the rule. -/
theorem define_eq (h : draft.matcher? = .ok m) :
    b.define name draft = (b.declareAll m.refs).bind name (.ok m) := by
  obtain ⟨hrefs, -⟩ := Draft.refs_of_matcher? draft h
  cases draft with
  | plain text =>
      obtain ⟨-, hm⟩ := Draft.refs_of_ofText? h
      rw [define, show Matcher.ofText? text = _ from h, hm]
      rfl
  | _ => simp only [define, hrefs, h]

/-- Defining a rule that has a matcher changes nothing but that the names in the draft are known. -/
theorem define_of_bound {m' : Matcher String} (h : draft.matcher? = .ok m)
    (hbound : b.rules.body name = some m') :
    b.define name draft = (b.declareAll m.refs, .error (.alreadyDefined name)) := by
  have hdeclared : b.Declares name := by
    rw [Declares, ← Entries.isSome_get?_iff]
    by_contra hnone
    rw [Option.not_isSome_iff_eq_none] at hnone
    simp only [rules, hnone] at hbound
    cases hbound
  rw [define_eq h, bind_of_bound ((body_declareAll b m.refs name).trans hbound),
    declare_of_declares (declares_declareAll.2 (.inl hdeclared))]

/-- Defining a rule that has no matcher answers with the matcher under the rule's name. -/
theorem define_of_unbound (h : draft.matcher? = .ok m) (hbound : b.rules.body name = none) :
    (b.define name draft).2 = .ok (labelledAs name m) := by
  rw [define_eq h, bind_of_unbound ((body_declareAll b m.refs name).trans hbound)]

/-- A definition declares its name and all names that its matcher refers to. -/
theorem declares_define (h : draft.matcher? = .ok m) :
    (b.define name draft).1.Declares k ↔ b.Declares k ∨ k ∈ m.refs ∨ k = name := by
  rw [define_eq h, ← or_assoc, ← declares_declareAll]
  cases hbound : (b.declareAll m.refs).rules.body name with
  | some m' =>
      rw [bind_of_bound hbound]
      exact declares_declare
  | none =>
      rw [bind_of_unbound hbound]
      have hdeclare : k ∈ ((b.declareAll m.refs).declare name).bindings.map (·.1) ↔ _ :=
        declares_declare
      exact Entries.mem_keys_put.trans (by rw [hdeclare, or_assoc, or_self])

/-- A definition binds its name, unless a body was there before. -/
theorem body_define (h : draft.matcher? = .ok m) :
    (b.define name draft).1.rules.body k =
      (b.rules.body k).or (if name = k then some (labelledAs name m) else none) := by
  rw [define_eq h, ← body_declareAll b m.refs k]
  generalize b.declareAll m.refs = b
  cases hbound : b.rules.body name with
  | some m' =>
      rw [bind_of_bound hbound, body_declare]
      split
      · rename_i heq
        rw [← heq, hbound, Option.some_or]
      · rw [Option.or_none]
  | none =>
      rw [bind_of_unbound hbound]
      by_cases heq : name = k
      · subst heq
        rw [if_pos rfl, hbound, Option.none_or]
        simp [rules, Entries.get?_put]
      · rw [if_neg heq, Option.or_none, ← body_declare b name k]
        simp [rules, Entries.get?_put, heq]

/-- Bindings stay distinct when a name is defined. -/
theorem distinct_define (hb : b.bindings.Distinct) (h : draft.matcher? = .ok m) :
    (b.define name draft).1.bindings.Distinct := by
  have hdistinct := distinct_declareAll hb m.refs
  rw [define_eq h]
  generalize b.declareAll m.refs = b at hdistinct
  cases hbound : b.rules.body name with
  | some m' =>
      rw [bind_of_bound hbound]
      exact distinct_declare hdistinct name
  | none =>
      rw [bind_of_unbound hbound]
      exact (distinct_declare hdistinct name).put name _

/-! ## Sequences of calls -/

/-- A call to a builder. What is defined is a draft that stands for a matcher. -/
inductive Call where
  /-- Declare rules. -/
  | declare (names : List String)
  /-- Refer to a rule. -/
  | ref (name : String)
  /-- Define a rule. -/
  | define (name : String) (draft : Draft String) (m : Matcher String)
    (stands : draft.matcher? = .ok m)
  /-- Build the grammar. -/
  | build

namespace Call

/-- The names that a call declares, refers to or defines. -/
def names : Call → List String
  | declare names => names
  | ref name => [name]
  | define name _ m _ => m.refs ++ [name]
  | build => []

/-- What a call defines a name as. -/
def definition? (name : String) : Call → Option (Matcher String)
  | define name' _ m _ => if name' = name then some (labelledAs name' m) else none
  | declare _ | ref _ | build => none

end Call

/-- The builder after a call. -/
def after (b : GrammarBuilder) : Call → GrammarBuilder
  | .declare names => b.declareAll names
  | .ref name => b.declare name
  | .define name draft _ _ => (b.define name draft).1
  | .build => b

/-- The builder after calls. -/
def afterAll (b : GrammarBuilder) (calls : List Call) : GrammarBuilder := calls.foldl after b

/-- A call declares the names that it mentions. -/
theorem declares_after (call : Call) :
    (b.after call).Declares k ↔ b.Declares k ∨ k ∈ call.names := by
  cases call with
  | declare names => exact declares_declareAll
  | ref name => exact declares_declare.trans (by rw [Call.names, List.mem_singleton])
  | define name draft m stands =>
      exact (declares_define stands).trans
        (by rw [Call.names, List.mem_append, List.mem_singleton])
  | build => simp [after, Call.names]

/-- After a call a name is bound to what it was bound to before, or else to what the call defines it
as. -/
theorem body_after (b : GrammarBuilder) (call : Call) (k : String) :
    (b.after call).rules.body k = (b.rules.body k).or (call.definition? k) := by
  cases call with
  | declare names => rw [after, body_declareAll, Call.definition?, Option.or_none]
  | ref name => rw [after, body_declare, Call.definition?, Option.or_none]
  | define name draft m stands => exact body_define stands
  | build => rw [after, Call.definition?, Option.or_none]

/-- Bindings stay distinct whatever is called. -/
theorem distinct_after (h : b.bindings.Distinct) (call : Call) :
    (b.after call).bindings.Distinct := by
  cases call with
  | declare names => exact distinct_declareAll h names
  | ref name => exact distinct_declare h name
  | define name draft m stands => exact distinct_define h stands
  | build => exact h

/-- Behind calls those names are declared that the calls mention, and those from before. -/
theorem declares_afterAll {calls : List Call} :
    (b.afterAll calls).Declares k ↔ b.Declares k ∨ k ∈ calls.flatMap Call.names := by
  induction calls generalizing b with
  | nil => simp [afterAll]
  | cons call calls ih =>
      rw [afterAll, List.foldl_cons, List.flatMap_cons, List.mem_append, ← or_assoc,
        ← declares_after]
      exact ih

/-- After calls a name is bound to what it was bound to before, or else to the first definition of
it. -/
theorem body_afterAll (b : GrammarBuilder) (calls : List Call) (k : String) :
    (b.afterAll calls).rules.body k =
      (b.rules.body k).or (calls.findSome? (Call.definition? k)) := by
  induction calls generalizing b with
  | nil => simp [afterAll]
  | cons call calls ih =>
      have hrest : ((b.after call).afterAll calls).rules.body k = _ := ih (b.after call)
      rw [afterAll, List.foldl_cons, List.findSome?_cons]
      refine hrest.trans ?_
      rw [body_after, Option.or_assoc]
      cases call.definition? k <;> rfl

/-- Bindings stay distinct behind any number of calls. -/
theorem distinct_afterAll (h : b.bindings.Distinct) (calls : List Call) :
    (b.afterAll calls).bindings.Distinct := by
  induction calls generalizing b with
  | nil => exact h
  | cons call calls ih => exact ih (distinct_after h call)

/-- The definitions that a builder takes on a call: none if the rule has a matcher. -/
def taken (b : GrammarBuilder) : Call → List (String × Matcher String)
  | .define name draft _ _ =>
    match (b.define name draft).2 with
    | .ok m => [(name, m)]
    | .error _ => []
  | .declare _ | .ref _ | .build => []

/-- The definitions that a builder takes on calls, in order. -/
def takenAll (b : GrammarBuilder) : List Call → List (String × Matcher String)
  | [] => []
  | call :: calls => b.taken call ++ (b.after call).takenAll calls

/-- A builder takes the definition of a call if the name has no body yet. -/
theorem mem_taken_iff {call : Call} :
    (k, m) ∈ b.taken call ↔ b.rules.body k = none ∧ call.definition? k = some m := by
  cases call with
  | declare | ref | build => simp [taken, Call.definition?]
  | define name draft m' stands =>
      rw [taken, Call.definition?]
      cases hbound : b.rules.body name with
      | some m'' =>
          rw [define_of_bound stands hbound]
          simp only [List.not_mem_nil, false_iff]
          rintro ⟨hnone, hdefinition⟩
          split at hdefinition
          · rename_i heq
            rw [← heq, hbound] at hnone
            cases hnone
          · cases hdefinition
      | none =>
          rw [define_of_unbound stands hbound]
          simp only [List.mem_singleton, Prod.mk.injEq]
          constructor
          · rintro ⟨rfl, rfl⟩
            exact ⟨hbound, if_pos rfl⟩
          · rintro ⟨-, hdefinition⟩
            split at hdefinition
            · rename_i heq
              exact ⟨heq.symm, (Option.some.inj hdefinition).symm⟩
            · cases hdefinition

/-- What is taken is what was not bound before and is bound afterwards. -/
theorem mem_takenAll_iff {calls : List Call} :
    (k, m) ∈ b.takenAll calls ↔
      b.rules.body k = none ∧ (b.afterAll calls).rules.body k = some m := by
  induction calls generalizing b with
  | nil =>
      simp only [takenAll, List.not_mem_nil, false_iff]
      rintro ⟨hnone, hsome⟩
      cases hnone.symm.trans hsome
  | cons call calls ih =>
      rw [takenAll, List.mem_append, mem_taken_iff, ih, body_after,
        show b.afterAll (call :: calls) = (b.after call).afterAll calls from rfl,
        body_afterAll (b.after call), body_after]
      cases b.rules.body k <;> cases call.definition? k <;> simp

/-! ## Building -/

/-- A name is declared if there is a binding for it, with a body or without. -/
theorem declares_iff : b.Declares k ↔ ∃ binding, b.bindings.get? k = some binding := by
  rw [Declares, ← Entries.isSome_get?_iff, Option.isSome_iff_exists]

/-- The rules without a matcher are the declared names that are not bound. -/
theorem mem_unbound_iff (h : b.bindings.Distinct) :
    k ∈ b.unbound ↔ b.Declares k ∧ b.rules.body k = none := by
  rw [unbound, Grammar.sorted, List.mem_mergeSort, List.mem_map, declares_iff]
  simp only [rules]
  constructor
  · rintro ⟨⟨_, binding⟩, hmem, rfl⟩
    obtain ⟨hmem, hnone⟩ := List.mem_filter.1 hmem
    obtain rfl : binding = none := Option.isNone_iff_eq_none.1 hnone
    rw [h.mem_iff] at hmem
    exact ⟨⟨none, hmem⟩, by rw [hmem]; rfl⟩
  · rintro ⟨⟨binding, hget⟩, hnone⟩
    rw [hget] at hnone
    obtain rfl : binding = none := hnone
    exact ⟨(k, none), List.mem_filter.2 ⟨h.mem_iff.2 hget, rfl⟩, rfl⟩

/-- The rules without a matcher stand in the order of their characters, each of them once. -/
theorem pairwise_unbound (h : b.bindings.Distinct) : b.unbound.Pairwise (· < ·) := by
  have hnames : ((b.bindings.filter fun binding => binding.2.isNone).map (·.1)).Nodup :=
    List.Nodup.sublist (List.filter_sublist.map _) h
  have hnodup : b.unbound.Nodup := (List.mergeSort_perm _ _).nodup_iff.2 hnames
  have hsorted : b.unbound.Pairwise (· ≤ ·) := List.pairwise_mergeSort' (· ≤ ·) _
  exact (hsorted.and hnodup).imp fun ⟨hle, hne⟩ => lt_of_le_of_ne hle hne

/-- Building succeeds just when every declared name is bound. -/
theorem exists_build_iff (h : b.bindings.Distinct) :
    (∃ g, b.build = .ok g) ↔ ∀ k, b.Declares k → b.isBound k = true := by
  have hunbound : b.unbound = [] ↔ ∀ k, b.Declares k → b.isBound k = true := by
    simp only [List.eq_nil_iff_forall_not_mem, mem_unbound_iff h, isBound_eq, not_and,
      ← Option.isSome_iff_ne_none]
  rw [← hunbound, build]
  cases b.unbound <;> simp

/-- A built grammar has the rules of its builder. -/
theorem rules_of_build {g : Grammar} (h : b.build = .ok g) : g.rules = b.bound := by
  unfold build at h
  split at h
  · cases h
    rfl
  · cases h

/-- The grammar that is built has the rules of the builder. -/
theorem toRules_of_build (hb : b.bindings.Distinct) {g : Grammar} (h : b.build = .ok g) :
    g.toRules = b.rules := by
  have hbody : g.rule? = b.rules.body := by
    funext k
    rw [Grammar.rule?, rules_of_build h]
    exact Entries.get?_filterMap hb k
  rw [Grammar.toRules, hbody, rules_of_build h]
  rfl

/-- Building fails by naming the declared names that are not bound. -/
theorem error_of_build (hb : b.bindings.Distinct) {e : DefinitionError} (h : b.build = .error e) :
    ∃ names, e = .undefinedRules names ∧ names.Pairwise (· < ·) ∧
      ∀ k, k ∈ names ↔ b.Declares k ∧ b.isBound k = false := by
  refine ⟨b.unbound, ?_, pairwise_unbound hb, fun k => ?_⟩
  · unfold build at h
    split at h
    · cases h
    · exact (Except.error.inj h).symm
  · rw [mem_unbound_iff hb, isBound_eq, Option.isSome_eq_false_iff, Option.isNone_iff_eq_none]

/-! ## The order of the rules -/

/-- Builders that agree on the bodies have the same bound names, in some order. -/
theorem bound_perm (h : b.bindings.Distinct) (h' : b'.bindings.Distinct)
    (hbody : ∀ k, b.rules.body k = b'.rules.body k) : b.bound.Perm b'.bound := by
  have hmem {b : GrammarBuilder} (h : b.bindings.Distinct) {k : String} {m : Matcher String} :
      (k, m) ∈ b.bound ↔ b.rules.body k = some m := by
    rw [bound, h.filterMap.mem_iff, Entries.get?_filterMap h]
    rfl
  refine (List.perm_ext_iff_of_nodup h.filterMap.of_map h'.filterMap.of_map).2 ?_
  rintro ⟨k, m⟩
  exact (hmem h).trans (by rw [hbody]; exact (hmem h').symm)

/-- Builders in which the same names are bound to the same matchers have the same rules. -/
theorem rules_eq_of_body_eq (h : b.bindings.Distinct) (h' : b'.bindings.Distinct)
    (hbody : ∀ k, b.rules.body k = b'.rules.body k) : b.rules = b'.rules := by
  have hsizes : Matcher.sizes (b.bound.map (·.2)) = Matcher.sizes (b'.bound.map (·.2)) :=
    Matcher.sizes_perm ((bound_perm h h' hbody).map _)
  have hbodies : b.rules.body = b'.rules.body := funext hbody
  unfold rules at hbodies ⊢
  rw [Rules.mk.injEq]
  exact ⟨hbodies, rfl, hsizes⟩

/-! ## Any sequence of calls -/

/-- A label refers to nothing. -/
theorem refs_labelledAs (name : String) (m : Matcher String) :
    (labelledAs name m).refs = m.refs := by
  unfold labelledAs
  split <;> rfl

/-- A definition mentions what its matcher refers to. -/
theorem refs_subset_of_definition {call : Call} (h : call.definition? name = some m) :
    m.refs ⊆ call.names := by
  cases call with
  | declare | ref | build => cases h
  | define name' draft m' stands =>
      rw [Call.definition?] at h
      split at h
      · cases h
        rw [refs_labelledAs]
        exact List.subset_append_left ..
      · cases h

section Fresh

variable {calls calls' : List Call}

/-- The bindings behind calls to a fresh builder are distinct. -/
theorem distinct_fresh (calls : List Call) :
    (afterAll {} calls).bindings.Distinct :=
  distinct_afterAll (b := {}) List.nodup_nil calls

/-- A fresh builder has declared what the calls mention, and nothing else. -/
theorem declares_fresh :
    (afterAll {} calls).Declares k ↔ k ∈ calls.flatMap Call.names := by
  rw [declares_afterAll, Declares]
  exact or_iff_right List.not_mem_nil

/-- In a fresh builder the first definition of a name counts. -/
theorem body_fresh (calls : List Call) (k : String) :
    (afterAll {} calls).rules.body k = calls.findSome? (Call.definition? k) := by
  rw [body_afterAll]
  exact Option.none_or

/-- Where every name that was mentioned is bound the rules refer to defined rules alone. -/
theorem closed_fresh (h : ∀ k, (afterAll {} calls).Declares k →
    (afterAll {} calls).isBound k = true) : (afterAll {} calls).rules.Closed := by
  intro name m hbody r hr
  rw [body_fresh] at hbody
  obtain ⟨call, hcall, hdefinition⟩ := List.exists_of_findSome?_eq_some hbody
  rw [← isBound_eq]
  exact h r (declares_fresh.2
    (List.mem_flatMap.2 ⟨call, hcall, refs_subset_of_definition hdefinition hr⟩))

/-- Sequences of calls whose definitions are the same in any order lead to the same rules. -/
theorem body_eq_of_perm (h : (takenAll {} calls).Perm (takenAll {} calls')) (k : String) :
    (afterAll {} calls).rules.body k = (afterAll {} calls').rules.body k := by
  have htaken {calls : List Call} {m : Matcher String} :
      (k, m) ∈ takenAll {} calls ↔ (afterAll {} calls).rules.body k = some m :=
    mem_takenAll_iff.trans (and_iff_right rfl)
  apply Option.ext
  intro m
  rw [← htaken, ← htaken, h.mem_iff]

end Fresh

/-- Building in two phases is safe and does not depend on the order. After any calls to a fresh
builder a name is bound to its first definition and keeps it, and defining it again is an error that
changes nothing, but that the names in the draft are known. Building succeeds just when every name
that was declared, referred to or defined is bound, and otherwise names the others in order. No rule
of a built grammar looks up a rule that is missing. And calls with the same definitions in any
order, whatever else is declared and referred to, build grammars of the same names, whose rules are
described alike and match alike in every state and at every place; if one of the two is built, the
other is as well, unless the calls mention a name that has no definition. -/
theorem two_phase_building :
    (∀ calls : List Call,
      let b := afterAll {} calls
      let mentioned := calls.flatMap Call.names
      (∀ name, b.rules.body name = calls.findSome? (Call.definition? name)) ∧
      (∀ name m, b.rules.body name = some m →
        (∀ later, (b.afterAll later).rules.body name = some m) ∧
        ∀ draft m', draft.matcher? = .ok m' →
          b.define name draft = (b.declareAll m'.refs, .error (.alreadyDefined name)) ∧
          ((∀ r ∈ m'.refs, r ∈ mentioned) → (b.define name draft).1 = b)) ∧
      ((∃ g, b.build = .ok g) ↔ ∀ name ∈ mentioned, b.isBound name = true) ∧
      (∀ e, b.build = .error e → ∃ names, e = .undefinedRules names ∧ names.Pairwise (· < ·) ∧
        ∀ name, name ∈ names ↔ name ∈ mentioned ∧ b.isBound name = false) ∧
      ∀ g, b.build = .ok g → (∀ name, g.rule? name = b.rules.body name) ∧
        ∀ name m, g.rule? name = some m → ∀ a c missing,
          m.run g.toRules a c ≠ .error (.undefinedRule missing)) ∧
    ∀ calls calls' g, (takenAll {} calls).Perm (takenAll {} calls') →
      (afterAll {} calls).build = .ok g →
        ((∃ g', (afterAll {} calls').build = .ok g') ↔
          ∀ name ∈ calls'.flatMap Call.names, name ∈ g.names) ∧
        ∀ g', (afterAll {} calls').build = .ok g' → g.names.Perm g'.names ∧
          ∀ name m m', g.rule? name = some m → g'.rule? name = some m' →
            m.description id = m'.description id ∧
              ∀ a c, m.run g.toRules a c = m'.run g'.toRules a c := by
  refine ⟨fun calls => ⟨body_fresh calls, ?_, ?_, ?_, ?_⟩, ?_⟩
  · intro name m hbody
    refine ⟨fun later => ?_, fun draft m' hdraft => ?_⟩
    · rw [body_afterAll, hbody, Option.some_or]
    · have hdefine := define_of_bound hdraft hbody
      refine ⟨hdefine, fun hrefs => ?_⟩
      rw [hdefine]
      exact declareAll_of_declares fun r hr => declares_fresh.2 (hrefs r hr)
  · exact (exists_build_iff (distinct_fresh calls)).trans (by simp only [declares_fresh])
  · intro e hbuild
    simpa only [declares_fresh] using error_of_build (distinct_fresh calls) hbuild
  · intro g hbuild
    have hrules := toRules_of_build (distinct_fresh calls) hbuild
    have hclosed : g.toRules.Closed := by
      rw [hrules]
      exact closed_fresh ((exists_build_iff (distinct_fresh calls)).1 ⟨g, hbuild⟩)
    refine ⟨fun name => by rw [← hrules]; rfl, fun name m hm a c missing hrun => ?_⟩
    cases Matcher.onlyTooDeep_step hclosed _ (hclosed hm) hrun
  · intro calls calls' g hperm hbuild
    have hbody := body_eq_of_perm hperm
    have hrules := toRules_of_build (distinct_fresh calls) hbuild
    refine ⟨?_, fun g' hbuild' => ?_⟩
    · have hnames (name : String) :
          (afterAll {} calls').isBound name = true ↔ name ∈ g.names := by
        rw [isBound_eq, ← hbody, ← hrules]
        exact Entries.isSome_get?_iff
      rw [exists_build_iff (distinct_fresh calls')]
      simp only [declares_fresh, hnames]
    · have hsame : g.toRules = g'.toRules := by
        rw [hrules, toRules_of_build (distinct_fresh calls') hbuild']
        exact rules_eq_of_body_eq (distinct_fresh calls) (distinct_fresh calls') hbody
      refine ⟨?_, fun name m m' hm hm' => ?_⟩
      · rw [Grammar.names, Grammar.names, rules_of_build hbuild, rules_of_build hbuild']
        exact (bound_perm (distinct_fresh calls) (distinct_fresh calls') hbody).map _
      · have hrule : g.rule? name = g'.rule? name := congrFun (congrArg Rules.body hsame) name
        obtain rfl : m = m' := Option.some.inj ((hm.symm.trans hrule).trans hm')
        exact ⟨rfl, fun a c => by rw [hsame]⟩

/-- Two rules that refer to each other, defined in both orders, with a declaration, a reference and
a definition that comes too late in between. -/
theorem two_phase_building_of_recursive :
    let pair : Matcher String := .sequence [.literal ['('], .ref "VALUE", .literal [')']]
    let value : Matcher String := .oneOf [.ref "PAIR", .literal ['x']]
    let pairDraft : Draft String := .sequence [.plain ['('], .ref "VALUE", .plain [')']]
    let valueDraft : Draft String := .oneOf [.ref "PAIR", .plain ['x']]
    let definePair : Call := .define "PAIR" pairDraft pair rfl
    let defineValue : Call := .define "VALUE" valueDraft value rfl
    let calls := [definePair, .declare ["VALUE"], defineValue, .build]
    let calls' := [.ref "PAIR", defineValue, .build, definePair, definePair]
    ∃ g g', (afterAll {} calls).build = .ok g ∧ (afterAll {} calls').build = .ok g' ∧
      g.names ≠ g'.names ∧ g.names.Perm g'.names ∧
      ((afterAll {} calls).define "PAIR" valueDraft).1 = afterAll {} calls ∧
      (∀ a c, (labelledAs "PAIR" pair).run g.toRules a c =
        (labelledAs "PAIR" pair).run g'.toRules a c) := by
  intro pair value pairDraft valueDraft definePair defineValue calls calls'
  obtain ⟨hcalls, horder⟩ := two_phase_building
  obtain ⟨-, hkeeps, -⟩ := hcalls calls
  have hpair (b : GrammarBuilder) :
      b.define "PAIR" pairDraft = (b.declareAll ["VALUE"]).bind "PAIR" (.ok pair) :=
    define_eq (m := pair) rfl
  have hvalue (b : GrammarBuilder) :
      b.define "VALUE" valueDraft = (b.declareAll ["PAIR"]).bind "VALUE" (.ok value) :=
    define_eq (m := value) rfl
  have hfirst : afterAll {} calls =
      ⟨[("VALUE", some (.labelled "VALUE" value)), ("PAIR", some (.labelled "PAIR" pair))]⟩ := by
    simp only [calls, definePair, defineValue, afterAll, List.foldl_cons, List.foldl_nil, after,
      hpair, hvalue]
    rfl
  have hsecond : afterAll {} calls' =
      ⟨[("PAIR", some (.labelled "PAIR" pair)), ("VALUE", some (.labelled "VALUE" value))]⟩ := by
    simp only [calls', definePair, defineValue, afterAll, List.foldl_cons, List.foldl_nil, after,
      hpair, hvalue]
    rfl
  have hbuild : (afterAll {} calls).build =
      .ok ⟨[("VALUE", .labelled "VALUE" value), ("PAIR", .labelled "PAIR" pair)]⟩ := by
    rw [hfirst]
    simp [build, unbound, bound, Grammar.sorted]
  have hbuild' : (afterAll {} calls').build =
      .ok ⟨[("PAIR", .labelled "PAIR" pair), ("VALUE", .labelled "VALUE" value)]⟩ := by
    rw [hsecond]
    simp [build, unbound, bound, Grammar.sorted]
  have hperm : (takenAll {} calls).Perm (takenAll {} calls') := by
    simp only [calls, calls', definePair, defineValue, takenAll, taken, after, hpair, hvalue]
    exact List.Perm.swap _ _ []
  obtain ⟨-, halike⟩ := horder calls calls' _ hperm hbuild
  obtain ⟨hnames, hrules⟩ := halike _ hbuild'
  obtain ⟨-, hrun⟩ := hrules "PAIR" _ _ rfl rfl
  obtain ⟨-, htwice⟩ := hkeeps "PAIR" (.labelled "PAIR" pair) (by rw [hfirst]; rfl)
  obtain ⟨-, hsame⟩ := htwice valueDraft value rfl
  exact ⟨_, _, hbuild, hbuild', by decide, hnames, hsame (by decide), hrun⟩

end GrammarBuilder

end Stencil
