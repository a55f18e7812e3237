import Formals.Span

/-!
# Names

The forms that the names of variables and attribute writers have, and the table of the names that a
list of parameters declares, in the order of their declaration. A group declares its names in the
scope of the whole list, so one table serves all levels.
-/

namespace Formals

/-- An ASCII letter or digit or an underscore. -/
def isNameChar (c : Char) : Bool := c.isAlphanum || c = '_'

/-- A lower-case ASCII letter or an underscore. -/
def isLocalStart (c : Char) : Bool := c.isLower || c = '_'

/-- An ASCII letter or an underscore. -/
def isNameStart (c : Char) : Bool := c.isAlpha || c = '_'

/-- The name of a local variable: `name`. -/
def isLocalName (text : String) : Bool :=
  match text.toList with
  | c :: rest => isLocalStart c && rest.all isNameChar
  | [] => false

/-- The name of a variable behind a sign: `@name` or `$name`. -/
def isSignedName (sign : Char) (text : String) : Bool :=
  match text.toList with
  | s :: c :: rest => s = sign && isNameStart c && rest.all isNameChar
  | _ => false

/-- The name of a method that writes an attribute: `name=`. -/
def isWriterName (text : String) : Bool :=
  match text.toList.reverse with
  | '=' :: name => isLocalName (String.ofList name.reverse)
  | _ => false

/-- A name that may be declared more than once. -/
def isThrowawayName (text : String) : Bool := text.toList.head? = some '_'

/-- The declared names, each with the span of its first declaration. -/
structure NameTable where
  declared : List (String × Span) := []
  deriving Repr, Inhabited

namespace NameTable

/-- The names, in the order of their declaration. -/
def names (t : NameTable) : List String := t.declared.map (·.1)

/-- Where a name was declared. -/
def get? (t : NameTable) (name : String) : Option Span :=
  (t.declared.find? fun d => d.1 == name).map (·.2)

/-- Whether a name is declared. -/
def contains (t : NameTable) (name : String) : Bool := (t.get? name).isSome

/-- Declares a name, or gives the span of the declaration that it already has. -/
def declare (t : NameTable) (name : String) (span : Span) : Except Span NameTable :=
  match t.get? name with
  | some earlier => .error earlier
  | none => .ok ⟨t.declared ++ [(name, span)]⟩

end NameTable
end Formals
