import Formals.Json.Value

/-!
# Records and variants in JSON

A record is written as an object that has its fields as members, in any order and among others, or
as an array of its fields in their order of declaration, of which the last may be missing. A variant
is a record whose name is the member under a tag or the first item of the array.
-/

namespace Formals.Json

/-- The fields of a record, each given or not. Members of other names are ignored; a field given
twice and an item too many make the record unreadable. -/
def fields? (names : List String) : Json → Option (List (Option Json))
  | obj members => names.mapM fun name =>
    match valuesOf name members with
    | [] => some none
    | [value] => some (some value)
    | _ => none
  | arr items =>
    if items.length ≤ names.length then
      some (items.map some ++ List.replicate (names.length - items.length) none)
    else none
  | _ => none

/-- The fields of a record of which an array has to give every one. -/
def wholeFields? (names : List String) : Json → Option (List (Option Json))
  | arr items =>
    if items.length = names.length then (arr items).fields? names else none
  | j => j.fields? names

/-- A record without fields: an object, whatever its members, or the empty array. -/
def noFields? : Json → Option Unit
  | obj _ | arr [] => some ()
  | _ => none

/-- How the name of a variant may be given. -/
inductive Naming where
  /-- By the name alone. -/
  | byName
  /-- By the name or by its place among the names. -/
  | byNameOrPlace
  deriving DecidableEq

/-- The variant that a tag names. -/
def tagged? (names : List String) (naming : Naming) : Json → Option String
  | str s => if s ∈ names then some s else none
  | int n => if naming = .byNameOrPlace ∧ 0 ≤ n then names[n.toNat]? else none
  | _ => none

/-- The name of a variant, and the record without the tag. -/
def variant? (tag : String) (names : List String) (naming : Naming) :
    Json → Option (String × Json)
  | obj members =>
    match valuesOf tag members with
    | [name] =>
      (tagged? names naming name).map (·, obj (members.filter fun m => m.1 != tag))
    | _ => none
  | arr (name :: items) => (tagged? names naming name).map (·, arr items)
  | _ => none

/-- A field that has to be given. -/
def required? {α : Type} (read : Json → Option α) (field : Option Json) : Option α :=
  field.bind read

/-- A field that stands for `absent` when it is not given. -/
def optional? {α : Type} (absent : α) (read : Json → Option α) : Option Json → Option α
  | none => some absent
  | some j => read j

end Formals.Json
