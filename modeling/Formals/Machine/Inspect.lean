import Formals.Machine.Value
import Formals.Text.Quoted

/-!
# Values as text

`Heap.inspect?` writes a value out: `[1, :a, "s"]`, `{a: 1, "k" => nil}`, `#<Point @x=4>`. A value
that contains itself has no such text. Otherwise the cells around the innermost value are all
different, so that the number of cells bounds the depth.
-/

namespace Formals

/-- A key as text. -/
def Key.text : Key → String
  | nil => "nil"
  | bool true => "true"
  | bool false => "false"
  | int n => toString n
  | str s => quoted s
  | sym s => ":" ++ s

/-- An entry of a hash, from its key and the text of its value. -/
def entryText (key : Key) (value : String) : String :=
  match key.symbol? with
  | some name => s!"{name}: {value}"
  | none => s!"{key.text} => {value}"

namespace Heap

/-- A value with at most `depth` cells around the innermost value. -/
def inspectWithin? (h : Heap) : (depth : Nat) → Value → Option String
  | _, .nil => some "nil"
  | _, .bool true => some "true"
  | _, .bool false => some "false"
  | _, .int n => some (toString n)
  | _, .str s => some (quoted s)
  | _, .sym s => some (":" ++ s)
  | 0, _ => none
  | depth + 1, .array handle => do
    let items ← (h.arrayAt handle).mapM (inspectWithin? h depth)
    return "[" ++ ", ".intercalate items ++ "]"
  | depth + 1, .hash handle => do
    let entries ← (h.hashAt handle).mapM fun (key, value) => do
      return entryText key (← inspectWithin? h depth value)
    return "\x7b" ++ ", ".intercalate entries ++ "\x7d"
  | depth + 1, .object handle => do
    let object := h.objectAt handle
    let ivars ← object.ivars.mapM fun (name, value) => do
      return name ++ "=" ++ (← inspectWithin? h depth value)
    return "#<" ++ object.className ++ (if ivars.isEmpty then "" else " ") ++
      ", ".intercalate ivars ++ ">"

/-- A value as text, unless it contains itself. -/
def inspect? (h : Heap) (v : Value) : Option String := h.inspectWithin? h.size v

/-- Whether two values are equal to a depth: arrays by their elements, hashes by their entries in
whatever order, objects only if they are the same. -/
def equalWithin (h : Heap) : (depth : Nat) → Value → Value → Bool
  | 0, v, w => v == w
  | depth + 1, .array a, .array b =>
    a == b || ((h.arrayAt a).length == (h.arrayAt b).length &&
      ((h.arrayAt a).zip (h.arrayAt b)).all fun (v, w) => equalWithin h depth v w)
  | depth + 1, .hash a, .hash b =>
    a == b || ((h.hashAt a).length == (h.hashAt b).length &&
      (h.hashAt a).all fun (key, v) => ((h.hashAt b).get? key).any fun w => equalWithin h depth v w)
  | _ + 1, v, w => v == w

/-- Whether two values are equal. -/
def equal (h : Heap) (v w : Value) : Bool := h.equalWithin h.size v w

end Heap
end Formals
