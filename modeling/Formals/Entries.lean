/-!
# Entries in insertion order

A table is a list of keys and values in the order in which the keys were first inserted. Inserting a
key again changes its value in place, and erasing keeps the order of the others.
-/

namespace Formals

/-- A table in the order of insertion. -/
abbrev Entries (κ α : Type) := List (κ × α)

namespace Entries

variable {κ α : Type} [DecidableEq κ]

/-- The value of a key. -/
def get? (key : κ) : Entries κ α → Option α
  | [] => none
  | (k, v) :: rest => if k = key then some v else get? key rest

/-- Whether a key has a value. -/
def contains (key : κ) (entries : Entries κ α) : Bool := (entries.get? key).isSome

/-- Gives a key a value, in its place if it has one, and at the end otherwise. -/
def insert (key : κ) (value : α) : Entries κ α → Entries κ α
  | [] => [(key, value)]
  | (k, v) :: rest => if k = key then (k, value) :: rest else (k, v) :: insert key value rest

/-- Removes a key. -/
def erase (key : κ) : Entries κ α → Entries κ α
  | [] => []
  | (k, v) :: rest => if k = key then rest else (k, v) :: erase key rest

/-- The keys, in order. -/
def keys (entries : Entries κ α) : List κ := entries.map (·.1)

end Entries
end Formals
