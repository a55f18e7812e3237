import Formals.Machine.FromJson

/-!
# A notation for values

Values of every kind can be written in JSON. `null`, truth values, integers, texts and arrays stand
for themselves; an object names another kind by its member:

* `sym`, a symbol from its text,
* `hash`, a hash from its pairs of key and value, each key a valid one before its value is built,
* `keywords`, a hash with symbols as keys from its pairs of name and value,
* `object`, an object from the name of its class and, under `ivars`, its instance variables,
* `json`, what `Value.ofJson` makes of a document,
* `ref`, a value that has a name already.

Each array, hash and object is a new cell. The reader descends with `fuel`, which has to exceed the
depth of the document.
-/

namespace Formals

/-- Why a document is not the notation of a value. -/
inductive NotationError where
  | malformed
  /-- The value cannot be built. -/
  | runtime (e : RuntimeError)
  deriving DecidableEq, Repr

/-- Values with names. -/
abbrev NamedValues := List (String × Value)

/-- Builds values in a heap. -/
abbrev Builder := StateT Heap (Except NotationError)

namespace Builder

/-- Allocates cells. -/
def ofAllocator {α : Type} (a : Allocator α) : Builder α := fun h => (a.run h).mapError .runtime

/-- What has to be there. -/
def ofOption {α : Type} : Option α → Builder α
  | some a => return a
  | none => throw .malformed

/-- The items of an array. -/
def items : Json → Builder (List Json)
  | .arr js => return js
  | _ => throw .malformed

/-- The first and the second item of each item. -/
def pairs (j : Json) : Builder (List (Json × Json)) := do
  (← items j).mapM fun pair =>
    match pair with
    | .arr [a, b] => return (a, b)
    | _ => throw .malformed

/-- Names with their values. -/
def named (value : Json → Builder Value) (j : Json) : Builder NamedValues := do
  (← pairs j).mapM fun (name, v) => do
    let v ← value v
    return (← ofOption name.str?, v)

/-- Names with their values, unless there are none. -/
def namedOrNone (value : Json → Builder Value) : Option Json → Builder NamedValues
  | none | some .null => return []
  | some j => named value j

/-- An object from the name of its class and its instance variables. -/
def object (name : Json) (ivars : NamedValues) : Builder Value := do
  let all := ivars.foldl (fun es e => Entries.insert e.1 e.2 es) []
  let className ← ofOption name.str?
  ofAllocator (allocate (·.newObject { className, ivars := all }))

/-- A key of a hash. -/
def key (v : Value) : Builder Key := do
  match v.toKey (← get) with
  | .ok k => return k
  | .error e => throw (.runtime e)

/-- A value of a depth below the fuel. -/
def value (known : NamedValues) : (fuel : Nat) → Json → Builder Value
  | 0, _ => throw .malformed
  | fuel + 1, j =>
    match j with
    | .arr js => do
      let values ← js.mapM (value known fuel)
      ofAllocator (allocate (·.newArray values))
    | .obj _ => do
      if let some s := j.get? "sym" then return .sym (← ofOption s.str?)
      else if let some ps := j.get? "hash" then
        let entries ← (← pairs ps).mapM fun (k, v) => do
          let k ← key (← value known fuel k)
          return (k, ← value known fuel v)
        let all := entries.foldl (fun es e => Entries.insert e.1 e.2 es) []
        ofAllocator (allocate (·.newHash all))
      else if let some ps := j.get? "keywords" then
        let all := keywordEntries (← named (value known fuel) ps)
        ofAllocator (allocate (·.newHash all))
      else if let some name := j.get? "object" then
        object name (← namedOrNone (value known fuel) (j.get? "ivars"))
      else if let some document := j.get? "json" then
        ofAllocator (Value.ofJson document.normalize)
      else if let some name := j.get? "ref" then
        ofOption (known.lookup (← ofOption name.str?))
      else throw .malformed
    | _ => ofAllocator (Value.ofJson j)

/-- A value that may refer to others by name. -/
def valueOf (known : NamedValues) (j : Json) : Builder Value := value known (j.depth + 1) j

/-- Values with names, each of which may refer to those before it. -/
def valuesOf (known : NamedValues) : List (Json × Json) → Builder NamedValues
  | [] => return known
  | (name, v) :: others => do
    let v ← valueOf known v
    valuesOf (known ++ [(← ofOption name.str?, v)]) others

end Builder
end Formals
