/-!
# Sorted tables

A finite map is a list of entries in increasing order of their keys. `insert` keeps the order and
replaces an earlier entry, so equal maps are equal lists and iteration is by key.
-/

set_option autoImplicit false

namespace SizedTypes

/-- Entries in increasing order of their keys. -/
abbrev Table (κ α : Type) : Type := List (κ × α)

namespace Table

variable {κ α β : Type} [LT κ] [DecidableLT κ] [DecidableEq κ]

/-- The value stored under `k`. -/
def find? (k : κ) : Table κ α → Option α
  | [] => none
  | (k', a) :: rest => if k = k' then some a else find? k rest

/-- Whether there is an entry for `k`. -/
def has (k : κ) (m : Table κ α) : Bool := (find? k m).isSome

/-- Add an entry, in place of an earlier one for the same key. -/
def insert (k : κ) (a : α) : Table κ α → Table κ α
  | [] => [(k, a)]
  | (k', a') :: rest =>
    if k = k' then (k, a) :: rest
    else if k < k' then (k, a) :: (k', a') :: rest
    else (k', a') :: insert k a rest

/-- Remove the entry for `k`, if there is one. -/
def erase (k : κ) : Table κ α → Table κ α
  | [] => []
  | (k', a') :: rest => if k = k' then rest else (k', a') :: erase k rest

/-- The table of a list of entries; a later entry replaces an earlier one. -/
def ofList (entries : List (κ × α)) : Table κ α :=
  entries.foldl (fun m e => insert e.1 e.2 m) []

/-- All entries of `m₂` on top of those of `m₁`. -/
def union (m₁ m₂ : Table κ α) : Table κ α :=
  m₂.foldl (fun m e => insert e.1 e.2 m) m₁

def keys (m : Table κ α) : List κ := m.map Prod.fst

def values (m : Table κ α) : List α := m.map Prod.snd

/-- Apply `f` to every value. -/
def mapValues (f : α → β) (m : Table κ α) : Table κ β := m.map fun e => (e.1, f e.2)

/-- Whether both tables have the same keys. -/
def sameKeys (m₁ : Table κ α) (m₂ : Table κ β) : Bool := decide (m₁.keys = m₂.keys)

theorem find?_insert_self (k : κ) (a : α) (m : Table κ α) : find? k (insert k a m) = some a := by
  induction m with
  | nil => simp [insert, find?]
  | cons e rest ih =>
    obtain ⟨k', a'⟩ := e
    simp only [insert]
    split
    · simp [find?]
    · split
      · simp [find?]
      · rename_i h _
        simp [find?, h, ih]

end Table
end SizedTypes
