import Stencil.Proofs.Store.Layers
import Stencil.Store.Command
import Mathlib.Data.List.Forall2
import Mathlib.Logic.Function.Basic

/-!
# Stores as stacks of maps

What a store keeps in layers of changes can be kept in a stack of plain maps: opening a layer
duplicates the top map, writes go to the top map alone, committing puts the top map in the place of
the one below it, and rolling back drops it. `Maps` is such a stack, and `Maps.runAll` runs the
commands of a store on it. A store stands for the stack of what would be read if its newest layers
were dropped one after the other; each operation moves the store as it moves the stack, and so every
run of commands on a store shows what the same run shows on the stack.
-/

set_option autoImplicit false

namespace Stencil

namespace Store

/-- A stack of plain maps. -/
structure Maps where
  /-- The map that is read and written. -/
  top : View
  /-- The maps to fall back to, the nearest first. -/
  below : List View

/-- What a command answers on a stack of maps. It is a `Reply` that shows the stack itself in place
of its words. -/
inductive Answer where
  /-- Nothing to say. -/
  | done
  /-- A value that was read. -/
  | value (v : Value)
  /-- The answer to a question. -/
  | answer (yes : Bool)
  /-- The stack. -/
  | shown (m : Maps)
  /-- The command was refused. -/
  | refused (r : Refusal)
  /-- The transaction was given up. -/
  | aborted (reason : String)
  /-- The answers inside a transaction, each with the stack after its command. -/
  | nested (answers : List (Answer × Option Maps))

namespace Maps

/-- Put a value under a key of the top map. -/
def set (m : Maps) (key : String) (value : Value) : Maps :=
  { m with top := Function.update m.top key (some value) }

/-- Remove a key of the top map. -/
def delete (m : Maps) (key : String) : Maps :=
  { m with top := Function.update m.top key none }

/-- Duplicate the top map. -/
def begin (m : Maps) : Maps := { m with below := m.top :: m.below }

/-- Put the top map in the place of the second one, if there is one. -/
def commit? (m : Maps) : Option Maps :=
  match m.below with
  | [] => none
  | _ :: below => some { m with below := below }

/-- Drop the top map, if there is one below it. -/
def rollback? (m : Maps) : Option Maps :=
  match m.below with
  | [] => none
  | second :: below => some { top := second, below := below }

mutual

/-- Run one command, which gives an answer and the stack afterwards. -/
def run (m : Maps) : Command → Answer × Maps
  | .get key default => (.value ((m.top key).getD default), m)
  | .has key => (.answer (m.top key).isSome, m)
  | .set key value => (.done, m.set key value)
  | .delete key => (.done, m.delete key)
  | .begin => (.done, m.begin)
  | .commit =>
    match m.commit? with
    | some m' => (.done, m')
    | none => (.refused .commit, m)
  | .rollback =>
    match m.rollback? with
    | some m' => (.done, m')
    | none => (.refused .rollback, m)
  | .render => (.shown m, m)
  | .abort reason => (.aborted reason, m)
  | .transaction body =>
    match runBody m.begin body with
    | (answers, m', false) =>
      match m'.commit? with
      | some m'' => (.nested answers, m'')
      | none => (.refused .commit, m')
    | (answers, m', true) =>
      match m'.rollback? with
      | some m'' => (.nested answers, m'')
      | none => (.refused .rollback, m')

/-- Run commands up to the first that gives up, which gives the answers, the stack afterwards, and
whether a command gave up. -/
def runBody (m : Maps) : List Command → List (Answer × Option Maps) × Maps × Bool
  | [] => ([], m, false)
  | .abort reason :: _ => ([(.aborted reason, none)], m, true)
  | command :: rest =>
    let (answer, m') := run m command
    let (answers, m'', gaveUp) := runBody m' rest
    ((answer, some m') :: answers, m'', gaveUp)

end

/-- Run commands one after the other, which gives each answer with the stack after it. -/
def runAll (m : Maps) : List Command → List (Answer × Maps)
  | [] => []
  | command :: rest =>
    let (answer, m') := run m command
    (answer, m') :: runAll m' rest

end Maps

/-- A store shows a stack of maps: all that can be asked of the store is as the stack says. -/
structure Shows (s : Store) (m : Maps) : Prop where
  get (key : String) (default : Value) : s.get key default = (m.top key).getD default
  has (key : String) : s.has key = (m.top key).isSome
  depth : s.depth = m.below.length
  snapshot_distinct : s.snapshot.Distinct
  snapshot (key : String) : s.snapshot.get? key = m.top key
  /-- The oldest layer holds the bottom map, -/
  base (key : String) : s.base.get? key = (m.below.getLast?.getD m.top) key
  /-- and it holds no deletion. This is carried by the type of the settled values, which has no
  place for one; that deleting there erases the entry is what `base` says. -/
  no_deletion : ∀ layer ∈ s.layers.getLast?, ∀ change ∈ layer, change.2 ≠ none

mutual

/-- A reply agrees with an answer. A store is put in words as one that shows the stack. -/
inductive Reply.Agrees : Reply → Answer → Prop
  | done : Reply.Agrees .done .done
  | value (v : Value) : Reply.Agrees (.value v) (.value v)
  | answer (yes : Bool) : Reply.Agrees (.answer yes) (.answer yes)
  | shown {s : Store} {m : Maps} (h : s.Shows m) : Reply.Agrees (.shown s.render) (.shown m)
  | refused (r : Refusal) : Reply.Agrees (.refused r) (.refused r)
  | aborted (reason : String) : Reply.Agrees (.aborted reason) (.aborted reason)
  | nested {replies : List (Reply × Option Store)} {answers : List (Answer × Option Maps)}
      (h : AllAgree replies answers) : Reply.Agrees (.nested replies) (.nested answers)

/-- The replies inside a transaction agree with the answers, one by one, and the stores after them
show the stacks. -/
inductive AllAgree : List (Reply × Option Store) → List (Answer × Option Maps) → Prop
  | nil : AllAgree [] []
  | gaveUp {r : Reply} {a : Answer} (h : r.Agrees a) : AllAgree [(r, none)] [(a, none)]
  | cons {r : Reply} {a : Answer} {s : Store} {m : Maps}
      {replies : List (Reply × Option Store)} {answers : List (Answer × Option Maps)}
      (h : r.Agrees a) (hs : s.Shows m) (hrest : AllAgree replies answers) :
      AllAgree ((r, some s) :: replies) ((a, some m) :: answers)

end

/-- No layer of a store has a key twice. -/
structure Tidy (s : Store) : Prop where
  base : s.base.Distinct
  staged : ∀ layer ∈ s.staged, layer.Distinct

/-- What would be read if the newest layers were dropped one after the other. -/
def viewsBelow (base : Entries Value) : List Layer → List View
  | [] => []
  | _ :: below => (fun key => find? base key below) :: viewsBelow base below

/-- The stack of maps that a store stands for. -/
def maps (s : Store) : Maps := ⟨s.view, viewsBelow s.base s.staged⟩

section Shows

variable {s : Store}

/-- There is one map below for each staged layer. -/
theorem length_viewsBelow (base : Entries Value) (staged : List Layer) :
    (viewsBelow base staged).length = staged.length := by
  induction staged with
  | nil => rfl
  | cons layer below ih => rw [viewsBelow, List.length_cons, List.length_cons, ih]

/-- The bottom map is what the settled values say. -/
theorem getLast?_maps (s : Store) :
    s.maps.below.getLast?.getD s.maps.top = fun key => s.base.get? key := by
  obtain ⟨base, staged⟩ := s
  induction staged with
  | nil => rfl
  | cons layer below ih =>
      cases below with
      | nil => rfl
      | cons layer' below => exact ih

/-- The merged layers have each visible key once, with the value that is read under it. -/
theorem Tidy.snapshot (h : s.Tidy) :
    s.snapshot.Distinct ∧ ∀ key, s.snapshot.get? key = s.view key := by
  obtain ⟨base, staged⟩ := s
  obtain ⟨hbase, hstaged⟩ := h
  induction staged with
  | nil => exact ⟨hbase, fun key => rfl⟩
  | cons layer below ih =>
      obtain ⟨hlayer, hbelow⟩ := List.forall_mem_cons.1 hstaged
      obtain ⟨hdistinct, hget⟩ := ih hbase hbelow
      refine ⟨hdistinct.foldl_settle layer, fun key => ?_⟩
      have hsettled := Entries.get?_foldl_settle hlayer (snapshot ⟨base, below⟩) key
      rw [hget key] at hsettled
      refine hsettled.trans ?_
      show (layer.get? key).getD (find? base key below) = find? base key (layer :: below)
      rw [find?]
      cases layer.get? key <;> rfl

/-- A store shows the stack of maps that it stands for. -/
theorem Tidy.shows (h : s.Tidy) : s.Shows s.maps where
  get _ _ := rfl
  has _ := rfl
  depth := (length_viewsBelow s.base s.staged).symm
  snapshot_distinct := h.snapshot.1
  snapshot := h.snapshot.2
  base key := by rw [getLast?_maps]
  no_deletion := by
    intro layer hlayer change hchange
    rw [layers, List.getLast?_concat, Option.mem_some_iff] at hlayer
    subst hlayer
    obtain ⟨e, -, rfl⟩ := List.mem_map.1 hchange
    exact Option.some_ne_none e.2

end Shows

/-!
### Single operations

Each of them keeps the layers tidy and does to the store what it does to the stack.
-/

section Operations

variable {s : Store}

/-- No key comes twice when a value is set. -/
theorem Tidy.set (h : s.Tidy) (key : String) (value : Value) : (s.set key value).Tidy := by
  obtain ⟨base, staged⟩ := s
  cases staged with
  | nil => exact ⟨h.base.put key value, h.staged⟩
  | cons layer below =>
      obtain ⟨hlayer, hbelow⟩ := List.forall_mem_cons.1 h.staged
      exact ⟨h.base, List.forall_mem_cons.2 ⟨hlayer.put key _, hbelow⟩⟩

/-- No key comes twice when one is deleted. -/
theorem Tidy.delete (h : s.Tidy) (key : String) : (s.delete key).Tidy := by
  obtain ⟨base, staged⟩ := s
  cases staged with
  | nil => exact ⟨h.base.erase key, h.staged⟩
  | cons layer below =>
      obtain ⟨hlayer, hbelow⟩ := List.forall_mem_cons.1 h.staged
      exact ⟨h.base, List.forall_mem_cons.2 ⟨hlayer.put key _, hbelow⟩⟩

/-- No key comes twice when a layer is opened. -/
theorem Tidy.begin (h : s.Tidy) : s.begin.Tidy :=
  ⟨h.base, List.forall_mem_cons.2 ⟨List.nodup_nil, h.staged⟩⟩

/-- No key comes twice when a layer is dropped. -/
theorem Tidy.rollback (h : s.Tidy) : s.rollback.Tidy :=
  ⟨h.base, fun layer hlayer => h.staged layer (List.mem_of_mem_tail hlayer)⟩

/-- No key comes twice when a layer is kept. -/
theorem Tidy.commit (h : s.Tidy) : s.commit.Tidy := by
  obtain ⟨base, staged⟩ := s
  match staged with
  | [] => exact h
  | [layer] => exact ⟨h.base.foldl_settle layer, fun _ hnil => absurd hnil List.not_mem_nil⟩
  | layer :: below :: rest =>
      obtain ⟨-, hbelow⟩ := List.forall_mem_cons.1 h.staged
      obtain ⟨hsecond, hrest⟩ := List.forall_mem_cons.1 hbelow
      exact ⟨h.base, List.forall_mem_cons.2 ⟨distinct_foldl_put hsecond, hrest⟩⟩

/-- Setting a value sets it in the top map. -/
theorem maps_set (s : Store) (key : String) (value : Value) :
    (s.set key value).maps = s.maps.set key value := by
  have hview : (s.set key value).view = Function.update s.view key (some value) := by
    funext k
    rw [view_set, Function.update_apply]
    simp only [eq_comm]
  obtain ⟨base, staged⟩ := s
  cases staged <;> exact congrArg (Maps.mk · _) hview

/-- Deleting a key deletes it in the top map. -/
theorem maps_delete (s : Store) (key : String) : (s.delete key).maps = s.maps.delete key := by
  have hview : (s.delete key).view = Function.update s.view key none := by
    funext k
    rw [view_delete, Function.update_apply]
    simp only [eq_comm]
  obtain ⟨base, staged⟩ := s
  cases staged <;> exact congrArg (Maps.mk · _) hview

/-- Opening a layer duplicates the top map. -/
theorem maps_begin (s : Store) : s.begin.maps = s.maps.begin := rfl

/-- Dropping a layer drops the top map, and is refused alike. -/
theorem maps_rollback? (s : Store) : s.rollback?.map maps = s.maps.rollback? := by
  obtain ⟨base, staged⟩ := s
  cases staged <;> rfl

/-- Folding a layer into the one below leaves the maps below that one as they were. -/
theorem Tidy.maps_commit? (h : s.Tidy) : s.commit?.map maps = s.maps.commit? := by
  obtain ⟨base, staged⟩ := s
  cases staged with
  | nil => rfl
  | cons layer below =>
      have hlayer : layer.Distinct := (List.forall_mem_cons.1 h.staged).1
      have hontop : (⟨base, below⟩ : Store).begin.OnTop ⟨base, layer :: below⟩ :=
        .layer base below fun _ => hlayer
      have hview := hontop.view_commit
      cases below <;> exact congrArg (fun top => some (Maps.mk top _)) hview

end Operations

/-!
### Runs

A command and its run on the stack start from a store and from the stack that the store stands for.
-/

section Runs

variable {s : Store}

/-- A reply and the store after it come out as an answer and the stack after it. -/
structure Follows (x : Reply × Store) (y : Answer × Maps) : Prop where
  tidy : x.2.Tidy
  maps : x.2.maps = y.2
  agrees : x.1.Agrees y.1

/-- What commands run one after the other in a transaction come to on a store is what they come to
on a stack. -/
structure BodyFollows (x : List (Reply × Option Store) × Store × Bool)
    (y : List (Answer × Option Maps) × Maps × Bool) : Prop where
  tidy : x.2.1.Tidy
  maps : x.2.1.maps = y.2.1
  gaveUp : x.2.2 = y.2.2
  agree : AllAgree x.1 y.1

/-- The store behind a reply shows the stack behind the answer. -/
theorem Follows.shows {x : Reply × Store} {y : Answer × Maps} (h : Follows x y) :
    x.2.Shows y.2 := by
  have hshows := h.tidy.shows
  rwa [h.maps] at hshows

/-- The end of a layer, which is refused where no layer is open. -/
theorem Tidy.follows_commit? (h : s.Tidy) {r : Reply} {a : Answer} (hagrees : r.Agrees a) :
    Follows
      (match s.commit? with
        | some s' => (r, s')
        | none => (.refused .commit, s))
      (match s.maps.commit? with
        | some m' => (a, m')
        | none => (.refused .commit, s.maps)) := by
  rw [← h.maps_commit?]
  cases hcommit : s.commit? with
  | none => exact ⟨h, rfl, .refused .commit⟩
  | some s' =>
      unfold commit? at hcommit
      split at hcommit
      · cases hcommit
      · obtain rfl := Option.some.inj hcommit
        exact ⟨h.commit, rfl, hagrees⟩

/-- Dropping the layer of a transaction follows the stack. -/
theorem Tidy.follows_rollback? (h : s.Tidy) {r : Reply} {a : Answer} (hagrees : r.Agrees a) :
    Follows
      (match s.rollback? with
        | some s' => (r, s')
        | none => (.refused .rollback, s))
      (match s.maps.rollback? with
        | some m' => (a, m')
        | none => (.refused .rollback, s.maps)) := by
  rw [← maps_rollback?]
  cases hrollback : s.rollback? with
  | none => exact ⟨h, rfl, .refused .rollback⟩
  | some s' =>
      unfold rollback? at hrollback
      split at hrollback
      · cases hrollback
      · obtain rfl := Option.some.inj hrollback
        exact ⟨h.rollback, rfl, hagrees⟩

mutual

/-- A command does to a store and replies what it does to the stack of maps and answers. -/
theorem Tidy.follows_run {s : Store} (h : s.Tidy) (command : Command) :
    Follows (run s command) (s.maps.run command) := by
  match command with
  | .get key default => exact ⟨h, rfl, .value _⟩
  | .has key => exact ⟨h, rfl, .answer _⟩
  | .set key value => exact ⟨h.set key value, maps_set s key value, .done⟩
  | .delete key => exact ⟨h.delete key, maps_delete s key, .done⟩
  | .begin => exact ⟨h.begin, maps_begin s, .done⟩
  | .commit => exact h.follows_commit? .done
  | .rollback => exact h.follows_rollback? .done
  | .render => exact ⟨h, rfl, .shown h.shows⟩
  | .abort reason => exact ⟨h, rfl, .aborted reason⟩
  | .transaction body =>
      have hbody := follows_runBody h.begin body
      rw [maps_begin] at hbody
      rw [run, Maps.run]
      generalize runBody s.begin body = x at hbody ⊢
      generalize s.maps.begin.runBody body = y at hbody ⊢
      obtain ⟨replies, s', gaveUp⟩ := x
      obtain ⟨answers, m', gaveUp'⟩ := y
      obtain ⟨htidy, hmaps, hgaveUp, hagree⟩ := hbody
      subst hmaps hgaveUp
      cases gaveUp with
      | false => exact htidy.follows_commit? (.nested hagree)
      | true => exact htidy.follows_rollback? (.nested hagree)

/-- The commands of a transaction come to the same on a store and on the stack. -/
theorem Tidy.follows_runBody {s : Store} (h : s.Tidy) (body : List Command) :
    BodyFollows (runBody s body) (s.maps.runBody body) := by
  match body with
  | [] => exact ⟨h, rfl, rfl, .nil⟩
  | command :: rest =>
      have hcommand := follows_run h command
      have hrest := follows_runBody hcommand.tidy rest
      rw [hcommand.maps] at hrest
      by_cases habort : ∃ reason, command = .abort reason
      · obtain ⟨reason, rfl⟩ := habort
        exact ⟨h, rfl, rfl, .gaveUp (.aborted reason)⟩
      · rw [runBody, Maps.runBody]
        · exact ⟨hrest.tidy, hrest.maps, hrest.gaveUp,
            .cons hcommand.agrees hcommand.shows hrest.agree⟩
        · exact fun reason heq => habort ⟨reason, heq⟩
        · exact fun reason heq => habort ⟨reason, heq⟩

end

/-- A run of commands on a store shows, command by command, what it shows on the stack. -/
theorem Tidy.follows_runAll (h : s.Tidy) (commands : List Command) :
    List.Forall₂ Follows (runAll s commands) (s.maps.runAll commands) := by
  induction commands generalizing s with
  | nil => exact .nil
  | cons command rest ih =>
      have hcommand := h.follows_run command
      have hrest := ih hcommand.tidy
      rw [hcommand.maps] at hrest
      exact .cons hcommand hrest

/-- Committing and rolling back are refused where no layer is open, and nowhere else; then they
leave the store as it was. -/
theorem refused_iff (s : Store) :
    ((run s .commit).1 = .refused .commit ↔ s.depth = 0) ∧
      ((run s .rollback).1 = .refused .rollback ↔ s.depth = 0) ∧
      (s.depth = 0 → (run s .commit).2 = s ∧ (run s .rollback).2 = s) := by
  obtain ⟨base, staged⟩ := s
  cases staged with
  | nil => exact ⟨⟨fun _ => rfl, fun _ => rfl⟩, ⟨fun _ => rfl, fun _ => rfl⟩, fun _ => ⟨rfl, rfl⟩⟩
  | cons layer below =>
      have hdepth : depth ⟨base, layer :: below⟩ ≠ 0 := Nat.succ_ne_zero _
      have hcommit : (run ⟨base, layer :: below⟩ .commit).1 ≠ .refused .commit := nofun
      have hrollback : (run ⟨base, layer :: below⟩ .rollback).1 ≠ .refused .rollback := nofun
      exact ⟨iff_of_false hcommit hdepth, iff_of_false hrollback hdepth,
        fun h => absurd h hdepth⟩

/-- A store refines a stack of plain maps. Whatever commands are run on a store that starts from
entries of distinct keys, each reply agrees with what the same commands answer on the stack of the
single map that these entries make up, and the store after each of them shows the stack. Committing
and rolling back are refused where no layer is open, and nowhere else; then they change nothing. -/
theorem runAll_refines (initial : Entries Value) (hinitial : initial.Distinct)
    (commands : List Command) :
    List.Forall₂ (fun x y => x.1.Agrees y.1 ∧ x.2.Shows y.2)
        (runAll ⟨initial, []⟩ commands) (Maps.runAll ⟨initial.get?, []⟩ commands) ∧
      ∀ s : Store,
        ((run s .commit).1 = .refused .commit ↔ s.depth = 0) ∧
        ((run s .rollback).1 = .refused .rollback ↔ s.depth = 0) ∧
        (s.depth = 0 → (run s .commit).2 = s ∧ (run s .rollback).2 = s) := by
  have htidy : Tidy ⟨initial, []⟩ := ⟨hinitial, fun _ hnil => absurd hnil List.not_mem_nil⟩
  exact ⟨(htidy.follows_runAll commands).imp fun _ _ h => ⟨h.agrees, h.shows⟩, refused_iff⟩

/-- A deletion that an inner layer hands down through an outer one to the settled values, after a
transaction that is given up and before a commit that is refused. -/
theorem runAll_refines_of_handed_down :
    let initial : Entries Value := [("el", .flag true), ("tag", .null)]
    let commands : List Command :=
      [.transaction [.set "el" (.flag false), .abort "no match"], .begin, .begin, .delete "el",
        .commit, .has "el", .commit, .commit, .get "el" .null]
    initial.Distinct ∧
      (runAll ⟨initial, []⟩ commands).map (fun x => (x.2.has "el", x.2.depth)) =
        [(true, 0), (true, 1), (true, 2), (false, 2), (false, 1), (false, 1), (false, 0),
          (false, 0), (false, 0)] ∧
      List.Forall₂ (fun x y => x.1.Agrees y.1 ∧ x.2.Shows y.2)
        (runAll ⟨initial, []⟩ commands) (Maps.runAll ⟨initial.get?, []⟩ commands) := by
  intro initial commands
  have hinitial : initial.Distinct := by
    show ["el", "tag"].Nodup
    decide
  exact ⟨hinitial, by decide, (runAll_refines initial hinitial commands).1⟩

end Runs

end Store

end Stencil
