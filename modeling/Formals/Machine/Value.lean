import Formals.Entries

/-!
# Values and the heap

Arrays, hashes and objects are shared and mutable: their values are handles of cells in a `Heap`,
and copying a handle does not copy the cell. The other values are immutable.
-/

namespace Formals

/-- A value. A number in an `array`, `hash` or `object` is the handle of its cell. -/
inductive Value where
  | nil
  | bool (b : Bool)
  | int (n : Int64)
  | str (s : String)
  | sym (s : String)
  | array (handle : Nat)
  | hash (handle : Nat)
  | object (handle : Nat)
  deriving DecidableEq, Repr, Inhabited

/-- What can be the key of a hash. -/
inductive Key where
  | nil
  | bool (b : Bool)
  | int (n : Int64)
  | str (s : String)
  | sym (s : String)
  deriving DecidableEq, Repr, Inhabited

/-- An object. -/
structure Object where
  className : String
  /-- The instance variables. -/
  ivars : Entries String Value := []
  deriving Repr, Inhabited

/-- The cells of arrays, hashes and objects. -/
structure Heap where
  arrays : Array (List Value) := #[]
  hashes : Array (Entries Key Value) := #[]
  objects : Array Object := #[]
  deriving Repr, Inhabited

namespace Heap

/-- The elements of an array. -/
def arrayAt (h : Heap) (handle : Nat) : List Value := h.arrays.getD handle []

/-- The entries of a hash. -/
def hashAt (h : Heap) (handle : Nat) : Entries Key Value := h.hashes.getD handle []

/-- The contents of an object. -/
def objectAt (h : Heap) (handle : Nat) : Object := h.objects.getD handle { className := "" }

/-- The heap with other elements in an array. -/
def setArray (h : Heap) (handle : Nat) (items : List Value) : Heap :=
  { h with arrays := h.arrays.setIfInBounds handle items }

/-- The heap with other entries in a hash. -/
def setHash (h : Heap) (handle : Nat) (entries : Entries Key Value) : Heap :=
  { h with hashes := h.hashes.setIfInBounds handle entries }

/-- The heap with an instance variable of an object set. -/
def setVariable (h : Heap) (handle : Nat) (name : String) (value : Value) : Heap :=
  let object := h.objectAt handle
  { h with
    objects := h.objects.setIfInBounds handle
      { object with ivars := object.ivars.insert name value } }

/-- A new array. -/
def newArray (h : Heap) (items : List Value) : Value × Heap :=
  (.array h.arrays.size, { h with arrays := h.arrays.push items })

/-- A new hash. -/
def newHash (h : Heap) (entries : Entries Key Value) : Value × Heap :=
  (.hash h.hashes.size, { h with hashes := h.hashes.push entries })

/-- A new object. -/
def newObject (h : Heap) (object : Object) : Value × Heap :=
  (.object h.objects.size, { h with objects := h.objects.push object })

/-- The number of cells. -/
def size (h : Heap) : Nat := h.arrays.size + h.hashes.size + h.objects.size

end Heap

/-- The symbol in a key, if it is one. -/
def Key.symbol? : Key → Option String
  | sym s => some s
  | _ => none

/-- The value of a key. -/
def Key.toValue : Key → Value
  | nil => .nil
  | bool b => .bool b
  | int n => .int n
  | str s => .str s
  | sym s => .sym s

namespace Value

/-- Only `nil` and `false` are not truthy. -/
def isTruthy : Value → Bool
  | nil | bool false => false
  | _ => true

/-- Whether a value is `nil`. -/
def isNil : Value → Bool
  | nil => true
  | _ => false

/-- The name of the class of a value. -/
def className (h : Heap) : Value → String
  | nil => "NilClass"
  | bool true => "TrueClass"
  | bool false => "FalseClass"
  | int _ => "Integer"
  | str _ => "String"
  | sym _ => "Symbol"
  | array _ => "Array"
  | hash _ => "Hash"
  | object handle => (h.objectAt handle).className

/-- Whether a value is a hash whose keys are all symbols. -/
def isKeywordHash (h : Heap) : Value → Bool
  | hash handle => (h.hashAt handle).all fun entry => entry.1.symbol?.isSome
  | _ => false

/-- The elements of an array. -/
def items? (h : Heap) : Value → Option (List Value)
  | array handle => some (h.arrayAt handle)
  | _ => none

/-- Whether two values are handles of one cell. -/
def sameCell : Value → Value → Bool
  | array a, array b | hash a, hash b | object a, object b => a == b
  | _, _ => false

end Value
end Formals
