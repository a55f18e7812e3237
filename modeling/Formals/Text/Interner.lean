/-!
# Interned names

An `Interner` numbers the distinct texts that it is given, in the order of their first appearance. A
`Handle` is such a number; two texts have the same handle exactly if they are equal.
-/

namespace Formals

/-- The number of an interned text. -/
abbrev Handle := Nat

/-- The interned texts; the handle of a text is its position. -/
structure Interner where
  texts : List String := []
  deriving Repr, Inhabited

namespace Interner

/-- The handle of a text that is already interned. -/
def get? (t : Interner) (text : String) : Option Handle :=
  if text ∈ t.texts then some (t.texts.idxOf text) else none

/-- The handle of a text, which is interned if it was not. -/
def intern (t : Interner) (text : String) : Handle × Interner :=
  match t.get? text with
  | some handle => (handle, t)
  | none => (t.texts.length, ⟨t.texts ++ [text]⟩)

/-- The text that has a handle. -/
def resolve? (t : Interner) (handle : Handle) : Option String := t.texts[handle]?

/-- How many texts are interned. -/
def size (t : Interner) : Nat := t.texts.length

end Interner
end Formals
