import Formals.Json.Value
import Formals.Machine.Error

/-!
# Values from JSON

`Value.ofJson` turns a document into a value with new cells: an object becomes a hash with symbols
as keys, in the order of its members. Numbers have to be integers.
-/

namespace Formals

/-- Allocates cells, unless it fails. -/
abbrev Allocator := StateT Heap (Except RuntimeError)

/-- Allocates one cell. -/
def allocate (new : Heap → Value × Heap) : Allocator Value := fun h => .ok (new h)

/-- A hash with symbols as keys. The last of several values under one name counts. -/
def keywordEntries (entries : List (String × Value)) : Entries Key Value :=
  entries.foldl (fun found entry => Entries.insert (.sym entry.1) entry.2 found) []

mutual
/-- The value that a document stands for. -/
def Value.ofJson : Json → Allocator Value
  | .null => return .nil
  | .bool b => return .bool b
  | .int n =>
    match int64OfInt? n with
    | some n => return .int n
    | none => throw (.typeError (.notConvertible "Float" "Integer"))
  | .real .. | .broken => throw (.typeError (.notConvertible "Float" "Integer"))
  | .str s => return .str s
  | .arr items => do
    let values ← Value.ofItems items
    allocate (·.newArray values)
  | .obj members => do
    let entries ← Value.ofMembers members
    allocate (·.newHash (keywordEntries entries))

/-- The values of the items of an array. -/
def Value.ofItems : List Json → Allocator (List Value)
  | [] => return []
  | j :: rest => do
    let v ← Value.ofJson j
    return v :: (← Value.ofItems rest)

/-- The names and values of the members of an object. -/
def Value.ofMembers : List (String × Json) → Allocator (List (String × Value))
  | [] => return []
  | (name, j) :: rest => do
    let v ← Value.ofJson j
    return (name, v) :: (← Value.ofMembers rest)
end

end Formals
