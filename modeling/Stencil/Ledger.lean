import Stencil.Placeholder.Family

/-!
# The ledger of constructs

Substitution records each construct that it replaces. The place of a record in the ledger is its
number, and the only link between a placeholder and what it stands for.
-/

set_option autoImplicit false

namespace Stencil

/-- A construct that was replaced. -/
structure Record where
  /-- The text of the construct. -/
  construct : Text
  /-- The kind of the construct. -/
  kind : Kind
  deriving DecidableEq, Repr

/-- The records in the order of the source. -/
abbrev Ledger := List Record

namespace Ledger

/-- The ledger with one more record, and the number of the record. -/
def add (ledger : Ledger) (r : Record) : Nat × Ledger := (ledger.length, ledger ++ [r])

/-- The record with a number; negative numbers count from the end. -/
def record? (ledger : Ledger) (i : Int) : Option Record :=
  let i := if i < 0 then i + ledger.length else i
  if i < 0 then none else ledger[i.toNat]?

/-- Why there is no record with a number, in words. A number beyond 64 bits is no index at all. -/
def missing (i : Int) : String :=
  if Int64.minValue.toInt ≤ i && i ≤ Int64.maxValue.toInt then "list index out of range"
  else "cannot fit 'int' into an index-sized integer"

/-- The number of a new record leads back to it. -/
theorem record?_add (ledger : Ledger) (r : Record) :
    Ledger.record? (Ledger.add ledger r).2 (Ledger.add ledger r).1 = some r := by
  have h : ¬((ledger.length : Int) < 0) := by omega
  simp [record?, add, h]

end Ledger

end Stencil
