import Formals.Machine.Value

/-!
# Errors of execution

`RuntimeError` says why the execution of a stream stopped. Some errors come from the arguments of a
call and can arise with any stream; the others mean that the stream itself is broken, and
`isArgumentError` tells them apart.
-/

namespace Formals

/-- How a value fails to be of the type that is wanted. -/
inductive TypeFault where
  /-- A value of one class cannot become one of another. -/
  | notConvertible (source target : String)
  /-- A value of this class cannot be a key. -/
  | notKey (className : String)
  /-- A value of this class has no instance variables. -/
  | withoutVariables (className : String)
  /-- A value of this class cannot be added to an integer. -/
  | notInteger (className : String)
  deriving DecidableEq, Repr

/-- The instruction at which a block is broken. -/
inductive BlockFault where
  | unclosedIf
  | strayElse
  | strayEnd
  deriving DecidableEq, Repr

/-- Why execution stopped. -/
inductive RuntimeError where
  | missingKeyword (name : String)
  | unknownKeywords (names : List String)
  | typeError (fault : TypeFault)
  | noMethod (method : String) (receiver : String)
  | argumentCount (given expected : Nat)
  | undefinedVariable (name : String)
  | integerOverflow
  /-- An instruction found too few values on the stack. -/
  | stackUnderflow (pc : Nat)
  /-- A stream left more values on the stack than it found, or fewer. -/
  | unbalancedStack (extra : Int)
  | malformedBlock (fault : BlockFault) (pc : Nat)
  deriving DecidableEq, Repr

/-- The text of a fault. -/
def TypeFault.message : TypeFault → String
  | notConvertible source target => s!"can't convert {source} into {target}"
  | notKey className => s!"{className} cannot be used as a hash key"
  | withoutVariables className => s!"can't modify instance variables of {className}"
  | notInteger className => s!"{className} can't be coerced into Integer"

/-- The mnemonic of the instruction at which a block is broken. -/
def BlockFault.mnemonic : BlockFault → String
  | unclosedIf => "if"
  | strayElse => "else"
  | strayEnd => "end"

namespace RuntimeError

/-- The text of an error. -/
def message : RuntimeError → String
  | missingKeyword name => s!"missing keyword: :{name}"
  | unknownKeywords names =>
    (if names.length = 1 then "unknown keyword: " else "unknown keywords: ") ++
      ", ".intercalate (names.map fun name => s!":{name}")
  | typeError fault => fault.message
  | noMethod method receiver => s!"undefined method `{method}' for an instance of {receiver}"
  | argumentCount given expected =>
    s!"wrong number of arguments (given {given}, expected {expected})"
  | undefinedVariable name => s!"undefined local variable `{name}'"
  | integerOverflow => "integer overflow"
  | stackUnderflow pc => s!"stack underflow at instruction {pc}"
  | unbalancedStack extra => s!"stack is unbalanced after binding: {extra} extra values"
  | malformedBlock fault pc => s!"unmatched `{fault.mnemonic}` at instruction {pc}"

/-- Whether an error comes from the arguments and not from the stream. -/
def isArgumentError : RuntimeError → Bool
  | missingKeyword _ | unknownKeywords _ | typeError _ | noMethod _ _ | argumentCount _ _
  | undefinedVariable _ | integerOverflow => true
  | stackUnderflow _ | unbalancedStack _ | malformedBlock _ _ => false

end RuntimeError

namespace Value

/-- The key that a value is. -/
def toKey (h : Heap) : Value → Except RuntimeError Key
  | nil => .ok .nil
  | bool b => .ok (.bool b)
  | int n => .ok (.int n)
  | str s => .ok (.str s)
  | sym s => .ok (.sym s)
  | v => .error (.typeError (.notKey (v.className h)))

/-- The elements that a value is taken apart into: those of an array, and none of `nil`. -/
def elements (h : Heap) : Value → Except RuntimeError (List Value)
  | array handle => .ok (h.arrayAt handle)
  | nil => .ok []
  | v => .error (.typeError (.notConvertible (v.className h) "Array"))

/-- The elements of the right-hand side of an assignment: those of an array, and any other value is
the only one. -/
def splat (h : Heap) : Value → List Value
  | array handle => h.arrayAt handle
  | v => [v]

end Value
end Formals
