import Formals.Double
import Formals.Words

/-!
# JSON values

`Json` is a JSON document with the members of its objects in the order in which they are written,
repeated names included; `normalize` sorts the members by name and keeps the last of equal names. A
number without fraction and exponent that fits in 64 bits is an integer, every other a double. A
document can hold pieces that are spelled correctly and stand for nothing (`broken`): half of a
surrogate pair, a number beyond the range of double precision. Such a piece matters only to who
reads it, which `readable` tells.
-/

namespace Formals

/-- A JSON document. -/
inductive Json where
  | null
  | bool (b : Bool)
  | int (n : Int)
  /-- A number of double precision by its sign, which zero has too, and its magnitude. -/
  | real (negative : Bool) (magnitude : Double)
  | str (s : String)
  | arr (items : List Json)
  | obj (members : List (String × Json))
  | broken
  deriving Inhabited

namespace Json

mutual
/-- How many arrays and objects lie around the innermost value. -/
def depth : Json → Nat
  | arr items => depthItems items + 1
  | obj members => depthMembers members + 1
  | _ => 0

/-- The greatest depth of some values. -/
def depthItems : List Json → Nat
  | [] => 0
  | j :: rest => max j.depth (depthItems rest)

/-- The greatest depth of some members. -/
def depthMembers : List (String × Json) → Nat
  | [] => 0
  | (_, j) :: rest => max j.depth (depthMembers rest)
end

mutual
/-- Whether nothing in a document is broken. -/
def sound : Json → Bool
  | arr items => soundItems items
  | obj members => soundMembers members
  | broken => false
  | _ => true

/-- Whether nothing in some values is broken. -/
def soundItems : List Json → Bool
  | [] => true
  | j :: rest => j.sound && soundItems rest

/-- Whether nothing in some members is broken. -/
def soundMembers : List (String × Json) → Bool
  | [] => true
  | (_, j) :: rest => j.sound && soundMembers rest
end

/-- Whether a document can be read where `limit` arrays and objects may still be opened. -/
def readable (limit : Nat) (j : Json) : Bool := j.depth ≤ limit && j.sound

/-- How many arrays and objects a text may open. -/
def depthLimit : Nat := 127

/-- Puts a member into members that are sorted by name, in the place of one with the same name. -/
def insertMember (name : String) (value : Json) : List (String × Json) → List (String × Json)
  | [] => [(name, value)]
  | (n, v) :: rest =>
    if name = n then (name, value) :: rest
    else if name < n then (name, value) :: (n, v) :: rest
    else (n, v) :: insertMember name value rest

/-- Members sorted by name, with the last of those that share a name. -/
def sortMembers (members : List (String × Json)) : List (String × Json) :=
  members.foldl (fun sorted m => insertMember m.1 m.2 sorted) []

mutual
/-- The document with the members of every object sorted and without repeated names. -/
def normalize : Json → Json
  | arr items => arr (normalizeItems items)
  | obj members => obj (sortMembers (normalizeMembers members))
  | j => j

/-- `normalize` on each value. -/
def normalizeItems : List Json → List Json
  | [] => []
  | j :: rest => j.normalize :: normalizeItems rest

/-- `normalize` on the value of each member. -/
def normalizeMembers : List (String × Json) → List (String × Json)
  | [] => []
  | (name, j) :: rest => (name, j.normalize) :: normalizeMembers rest
end

/-- The values of the members with a name, in order. -/
def valuesOf (name : String) (members : List (String × Json)) : List Json :=
  (members.filter fun m => m.1 == name).map (·.2)

/-- The last value of an object under a name. -/
def get? (name : String) : Json → Option Json
  | obj members => (valuesOf name members).getLast?
  | _ => none

/-- The text of a string. -/
def str? : Json → Option String
  | str s => some s
  | _ => none

/-- A truth value. -/
def bool? : Json → Option Bool
  | bool b => some b
  | _ => none

/-- A natural number below a bound. -/
def natBelow? (bound : Nat) : Json → Option Nat
  | int n => if 0 ≤ n ∧ n < bound then some n.toNat else none
  | _ => none

/-- An unsigned 32-bit integer. -/
def word? (j : Json) : Option UInt32 := (j.natBelow? UInt32.size).map UInt32.ofNat

/-- A signed 64-bit integer. -/
def int64? : Json → Option Int64
  | int n => int64OfInt? n
  | _ => none

/-- The items of an array, each read in the same way. -/
def list? {α : Type} (item : Json → Option α) : Json → Option (List α)
  | arr items => items.mapM item
  | _ => none

/-- `null` or a value that is read. -/
def nullable? {α : Type} (item : Json → Option α) : Json → Option (Option α)
  | null => some none
  | j => (item j).map some

end Json
end Formals
