/-!
# Entries

A finite map as a list of entries in the order in which their keys first came. Putting a value
under a key that is present keeps its place; erasing a key and putting it again moves it to the
end. `get?_put` and `get?_erase` say what a later look-up finds.
-/

set_option autoImplicit false

namespace Stencil

/-- Keys with their values. -/
abbrev Entries (α : Type) := List (String × α)

namespace Entries

variable {α : Type}

/-- The value under a key. -/
def get? (key : String) : Entries α → Option α
  | [] => none
  | (k, v) :: rest => if k = key then some v else get? key rest

/-- The entries with a value put under a key. -/
def put (key : String) (value : α) : Entries α → Entries α
  | [] => [(key, value)]
  | (k, v) :: rest => if k = key then (key, value) :: rest else (k, v) :: put key value rest

/-- The entries without a key. -/
def erase (key : String) : Entries α → Entries α
  | [] => []
  | (k, v) :: rest => if k = key then erase key rest else (k, v) :: erase key rest

/-- A put value is found under its key, and the other keys keep theirs. -/
theorem get?_put (key k : String) (value : α) (es : Entries α) :
    get? k (put key value es) = if key = k then some value else get? k es := by
  induction es with
  | nil => rfl
  | cons e es ih =>
      obtain ⟨k', v⟩ := e
      by_cases h : k' = key
      · subst h
        by_cases hk : k' = k <;> simp [put, get?, hk]
      · by_cases hk : k' = k
        · subst hk
          simp [put, get?, h, Ne.symm h]
        · simp [put, get?, h, hk, ih]

/-- An erased key has no value, and the other keys keep theirs. -/
theorem get?_erase (key k : String) (es : Entries α) :
    get? k (erase key es) = if key = k then none else get? k es := by
  induction es with
  | nil => simp [erase, get?]
  | cons e es ih =>
      obtain ⟨k', v⟩ := e
      by_cases h : k' = key
      · subst h
        by_cases hk : k' = k
        · subst hk
          simpa [erase] using ih
        · simp [erase, get?, ih, hk]
      · by_cases hk : k' = k
        · subst hk
          simp [erase, get?, h, Ne.symm h]
        · simp [erase, get?, h, hk, ih]

end Entries

end Stencil
