/-!
# Bindings

A finite table from names to values. A name has at most one value; setting it again replaces the
value.

Headlines:
* `Bindings.get?_set`: after setting a name, that name has the new value and every other its old
  one.
* `Bindings.contains_set`: setting a name adds that name and no other.
-/

namespace LoxKit

/-- Values under names, in the order in which the names were first set. -/
structure Bindings (α : Type) where
  entries : List (String × α)
  deriving Repr

namespace Bindings

variable {α : Type}

/-- No bindings. -/
def empty : Bindings α :=
  ⟨[]⟩

/-- Sets a name in a list of entries. -/
def setEntry (name : String) (value : α) : List (String × α) → List (String × α)
  | [] => [(name, value)]
  | (n, v) :: rest => if n = name then (n, value) :: rest else (n, v) :: setEntry name value rest

/-- Binds a name to a value. -/
def set (b : Bindings α) (name : String) (value : α) : Bindings α :=
  ⟨setEntry name value b.entries⟩

/-- The value of a name in a list of entries. -/
def getEntry (name : String) : List (String × α) → Option α
  | [] => none
  | (n, v) :: rest => if n = name then some v else getEntry name rest

/-- The value of a name. -/
def get? (b : Bindings α) (name : String) : Option α :=
  getEntry name b.entries

/-- Whether a name is bound. -/
def contains (b : Bindings α) (name : String) : Bool :=
  (b.get? name).isSome

/-- The names that are bound. -/
def names (b : Bindings α) : List String :=
  b.entries.map Prod.fst

@[simp]
theorem get?_empty (name : String) : (empty : Bindings α).get? name = none := rfl

theorem getEntry_setEntry (name other : String) (value : α) (entries : List (String × α)) :
    getEntry other (setEntry name value entries) =
      if other = name then some value else getEntry other entries := by
  induction entries with
  | nil =>
    by_cases h : other = name
    · simp [setEntry, getEntry, h]
    · simp [setEntry, getEntry, h, Ne.symm h]
  | cons e rest ih =>
    obtain ⟨n, v⟩ := e
    by_cases hn : n = name
    · subst hn
      by_cases ho : other = n
      · simp [setEntry, getEntry, ho]
      · simp [setEntry, getEntry, ho, Ne.symm ho]
    · by_cases ho : n = other
      · subst ho
        simp [setEntry, getEntry, hn]
      · simp [setEntry, getEntry, hn, ho, ih]

/-- After setting a name, that name has the new value and every other its old one. -/
theorem get?_set (b : Bindings α) (name other : String) (value : α) :
    (b.set name value).get? other = if other = name then some value else b.get? other :=
  getEntry_setEntry name other value b.entries

@[simp]
theorem get?_set_self (b : Bindings α) (name : String) (value : α) :
    (b.set name value).get? name = some value := by
  rw [get?_set, if_pos rfl]

theorem get?_set_of_ne (b : Bindings α) {name other : String} (value : α) (h : other ≠ name) :
    (b.set name value).get? other = b.get? other := by
  rw [get?_set, if_neg h]

/-- Setting a name adds that name and no other. -/
theorem contains_set (b : Bindings α) (name other : String) (value : α) :
    (b.set name value).contains other = (decide (other = name) || b.contains other) := by
  unfold contains
  rw [get?_set]
  by_cases h : other = name <;> simp [h]

end Bindings

end LoxKit
