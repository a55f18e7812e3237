import Formals.Binding.Error
import Formals.Code.Instruction
import Formals.Tree.Expr

/-!
# Code for expressions

`Expr.lower` gives the code that pushes the value of an expression: the code for its parts in the
order in which they are evaluated, and then the instructions that join their values. All of it
carries the span of the parameter or target to which the expression belongs.
-/

namespace Formals

/-- The number of parts of an expression, which has to fit in 32 bits. -/
def partCount (n : Nat) (span : Span) : Except BindError UInt32 :=
  if n < UInt32.size then .ok (UInt32.ofNat n) else .error (.malformed .tooManyElements span)

namespace Expr

mutual
/-- The code that pushes the value of an expression. -/
def lower (span : Span) : Expr → Except BindError Stream
  | nil => .ok [⟨.pushNil, span⟩]
  | bool true => .ok [⟨.pushTrue, span⟩]
  | bool false => .ok [⟨.pushFalse, span⟩]
  | self => .ok [⟨.pushSelf, span⟩]
  | int value => .ok [⟨.pushInt value, span⟩]
  | str value => .ok [⟨.pushString value, span⟩]
  | sym value => .ok [⟨.pushSymbol value, span⟩]
  | localVar name => .ok [⟨.localGet name, span⟩]
  | instanceVar name => .ok [⟨.instanceGet name, span⟩]
  | globalVar name => .ok [⟨.globalGet name, span⟩]
  | array elements => do
    let code ← lowerList span elements
    return code ++ [⟨.createArray (← partCount elements.length span), span⟩]
  | hash pairs => do
    let code ← lowerPairs span pairs
    return code ++ [⟨.createHash (← partCount pairs.length span), span⟩]
  | call none method arguments => do
    let code ← lowerList span arguments
    return code ++ [⟨.pushSelf, span⟩, ⟨.setArgc (← partCount arguments.length span), span⟩,
      ⟨.send method true false, span⟩]
  | call (some receiver) method arguments => do
    let code ← lowerList span arguments
    let target ← receiver.lower span
    return code ++ target ++ [⟨.setArgc (← partCount arguments.length span), span⟩,
      ⟨.send method false false, span⟩]

/-- The code that pushes the values of some expressions, the first one lowest. -/
def lowerList (span : Span) : List Expr → Except BindError Stream
  | [] => .ok []
  | e :: rest => do
    let first ← e.lower span
    return first ++ (← lowerList span rest)

/-- The code that pushes the keys and values of some pairs in turn. -/
def lowerPairs (span : Span) : List (Expr × Expr) → Except BindError Stream
  | [] => .ok []
  | (key, value) :: rest => do
    let first ← key.lower span
    let second ← value.lower span
    return first ++ second ++ (← lowerPairs span rest)
end

/-- Whether an expression is `self`. -/
def isSelf : Expr → Bool
  | self => true
  | _ => false

end Expr

/-- The code that takes the value on top of the stack and writes it to an attribute. -/
def writeAttribute (receiver : Expr) (writer : String) (span : Span) : Except BindError Stream := do
  let target ← receiver.lower span
  return target ++ [⟨.setArgc 1, span⟩, ⟨.send writer receiver.isSelf true, span⟩, ⟨.pop, span⟩]

end Formals
