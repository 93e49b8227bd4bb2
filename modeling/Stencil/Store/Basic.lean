import Stencil.Store.Entries
import Stencil.Store.Value

/-!
# The transactional store

A store is a base of remembered values with staging layers on top of it. Writes go to the newest
layer; committing folds that layer into the one below, rolling back drops it. A deletion in a
staging layer is a change of its own, so that it can hide what lies below; in the base it simply
removes the entry, so that the type of the base has no place for a deletion. What a reader sees of a
store is its `view`.
-/

set_option autoImplicit false

namespace Stencil

/-- The changes staged by one layer: a new value, or `none` for a deletion. -/
abbrev Layer := Entries (Option Value)

/-- What a reader sees: the value under each key. -/
abbrev View := String → Option Value

/-- Remembered values with staged changes. -/
structure Store where
  /-- The values that are settled. -/
  base : Entries Value := []
  /-- The staged changes, the newest layer first. -/
  staged : List Layer := []
  deriving Repr

/-- A single change of a store. -/
inductive Edit where
  /-- Put a value under a key. -/
  | set (key : String) (value : Value)
  /-- Remove a key. -/
  | delete (key : String)
  deriving Repr

/-- Apply a staged change to settled entries. -/
def Entries.settle (base : Entries Value) (change : String × Option Value) : Entries Value :=
  match change with
  | (key, some value) => base.put key value
  | (key, none) => base.erase key

namespace Store

/-- The value under a key in a base with layers on top of it. -/
def find? (base : Entries Value) (key : String) : List Layer → Option Value
  | [] => base.get? key
  | layer :: below =>
    match layer.get? key with
    | some change => change
    | none => find? base key below

/-- What a reader sees of a store. -/
def view (s : Store) : View := fun key => find? s.base key s.staged

/-- The value under a key, or a default. -/
def get (s : Store) (key : String) (default : Value) : Value := (s.view key).getD default

/-- Whether a key has a value. -/
def has (s : Store) (key : String) : Bool := (s.view key).isSome

/-- Put a value under a key, in the newest layer. -/
def set (s : Store) (key : String) (value : Value) : Store :=
  match s.staged with
  | [] => { s with base := s.base.put key value }
  | layer :: below => { s with staged := layer.put key (some value) :: below }

/-- Remove a key, in the newest layer. -/
def delete (s : Store) (key : String) : Store :=
  match s.staged with
  | [] => { s with base := s.base.erase key }
  | layer :: below => { s with staged := layer.put key none :: below }

/-- Apply a single change. -/
def edit (s : Store) : Edit → Store
  | .set key value => s.set key value
  | .delete key => s.delete key

/-- Apply changes in order. -/
def edits (s : Store) (es : List Edit) : Store := es.foldl edit s

/-- The staging layers that are open. -/
def depth (s : Store) : Nat := s.staged.length

/-- Open a staging layer. -/
def begin (s : Store) : Store := { s with staged := [] :: s.staged }

/-- Fold the newest layer into what lies below it; nothing happens where no layer is open. -/
def commit (s : Store) : Store :=
  match s.staged with
  | [] => s
  | [layer] => { base := layer.foldl Entries.settle s.base, staged := [] }
  | layer :: below :: rest =>
    { s with staged := layer.foldl (fun l change => l.put change.1 change.2) below :: rest }

/-- Drop the newest layer; nothing happens where no layer is open. -/
def rollback (s : Store) : Store := { s with staged := s.staged.tail }

/-- Fold the newest layer, if there is one. -/
def commit? (s : Store) : Option Store := if s.staged.isEmpty then none else some s.commit

/-- Drop the newest layer, if there is one. -/
def rollback? (s : Store) : Option Store := if s.staged.isEmpty then none else some s.rollback

/-- Every visible key with its value, the oldest layer's keys first. -/
def snapshot (s : Store) : Entries Value :=
  s.staged.foldr (fun layer merged => layer.foldl Entries.settle merged) s.base

/-- A store in words: its visible entries and how many layers are open. -/
def render (s : Store) : Text :=
  let entry (e : String × Value) : Text :=
    Text.quoted e.1.toList ++ ": ".toList ++ e.2.render
  "MetadataStore(\x7b".toList ++ List.intercalate ", ".toList (s.snapshot.map entry) ++
    "\x7d, depth=".toList ++ Text.ofNat s.depth ++ [')']

/-- Opening a layer and dropping it leaves the store as it was. -/
theorem rollback_begin (s : Store) : s.begin.rollback = s := rfl

/-- Opening a layer hides nothing. -/
theorem view_begin (s : Store) : s.begin.view = s.view := rfl

/-- A put value is seen under its key, and the other keys look as before. -/
theorem view_set (s : Store) (key k : String) (value : Value) :
    (s.set key value).view k = if key = k then some value else s.view k := by
  unfold set view
  split
  · rename_i h
    simp [h, find?, Entries.get?_put]
  · rename_i h
    by_cases hk : key = k <;> simp [h, find?, Entries.get?_put, hk]

/-- A removed key has no value, and the other keys look as before. -/
theorem view_delete (s : Store) (key k : String) :
    (s.delete key).view k = if key = k then none else s.view k := by
  unfold delete view
  split
  · rename_i h
    simp [h, find?, Entries.get?_erase]
  · rename_i h
    by_cases hk : key = k <;> simp [h, find?, Entries.get?_put, hk]

end Store

end Stencil
