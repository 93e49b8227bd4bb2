import Stencil.Store.Basic

/-!
# Commands of a store

A store is driven by commands, each of which has a reply. A transaction runs commands in a layer of
its own: it is committed when they end, and rolled back when one of them aborts. Committing or
rolling back where no layer is open is refused and changes nothing.
-/

set_option autoImplicit false

namespace Stencil.Store

/-- Why a store refuses a command. -/
inductive Refusal where
  /-- A commit where no layer is open. -/
  | commit
  /-- A rollback where no layer is open. -/
  | rollback
  deriving DecidableEq, Repr

/-- A refusal in words. -/
def Refusal.message : Refusal → String
  | commit => "commit() without matching begin()"
  | rollback => "rollback() without matching begin()"

/-- Something to do with a store. -/
inductive Command where
  /-- Read a key. -/
  | get (key : String) (default : Value)
  /-- Ask whether a key has a value. -/
  | has (key : String)
  /-- Put a value under a key. -/
  | set (key : String) (value : Value)
  /-- Remove a key. -/
  | delete (key : String)
  /-- Open a layer. -/
  | begin
  /-- Fold the newest layer. -/
  | commit
  /-- Drop the newest layer. -/
  | rollback
  /-- Show the store. -/
  | render
  /-- Give up the transaction that the command stands in. -/
  | abort (reason : String)
  /-- Run commands in a layer of their own. -/
  | transaction (body : List Command)

/-- What a command answers. -/
inductive Reply where
  /-- Nothing to say. -/
  | done
  /-- A value that was read. -/
  | value (v : Value)
  /-- The answer to a question. -/
  | answer (yes : Bool)
  /-- The store in words. -/
  | shown (t : Text)
  /-- The command was refused. -/
  | refused (r : Refusal)
  /-- The transaction was given up. -/
  | aborted (reason : String)
  /-- The replies inside a transaction, each with the store after its command. The store is `none`
  for a command that gave the transaction up. -/
  | nested (replies : List (Reply × Option Store))

mutual

/-- Run one command, which gives a reply and the store afterwards. -/
def run (s : Store) : Command → Reply × Store
  | .get key default => (.value (s.get key default), s)
  | .has key => (.answer (s.has key), s)
  | .set key value => (.done, s.set key value)
  | .delete key => (.done, s.delete key)
  | .begin => (.done, s.begin)
  | .commit =>
    match s.commit? with
    | some s' => (.done, s')
    | none => (.refused .commit, s)
  | .rollback =>
    match s.rollback? with
    | some s' => (.done, s')
    | none => (.refused .rollback, s)
  | .render => (.shown s.render, s)
  | .abort reason => (.aborted reason, s)
  | .transaction body =>
    match runBody s.begin body with
    | (replies, s', false) =>
      match s'.commit? with
      | some s'' => (.nested replies, s'')
      | none => (.refused .commit, s')
    | (replies, s', true) =>
      match s'.rollback? with
      | some s'' => (.nested replies, s'')
      | none => (.refused .rollback, s')

/-- Run commands up to the first that gives up, which gives the replies, the store afterwards, and
whether a command gave up. -/
def runBody (s : Store) : List Command → List (Reply × Option Store) × Store × Bool
  | [] => ([], s, false)
  | .abort reason :: _ => ([(.aborted reason, none)], s, true)
  | command :: rest =>
    let (reply, s') := run s command
    let (replies, s'', gaveUp) := runBody s' rest
    ((reply, some s') :: replies, s'', gaveUp)

end

/-- Run commands one after the other, which gives each reply with the store after it. -/
def runAll (s : Store) : List Command → List (Reply × Store)
  | [] => []
  | command :: rest =>
    let (reply, s') := run s command
    (reply, s') :: runAll s' rest

end Stencil.Store
