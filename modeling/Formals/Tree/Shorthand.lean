import Formals.Code.Notation
import Formals.Tree.Body

/-!
# Short notation for trees

Trees can be written without spans as arrays of a kind and its parts: `["opt", "a", ["nil"]]` is an
optional parameter, `["splat", ["local", "a"]]` a target. Every span of such a tree is empty. The
readers descend with `fuel`, which has to exceed the depth of the document.
-/

namespace Formals

/-- A name, or `null` where there is none. -/
def Json.name? (j : Json) : Option (Option String) := j.nullable? Json.str?

namespace Expr

/-- An expression of a depth below the fuel in short notation. -/
def readShort : (fuel : Nat) → Json → Option Expr
  | 0, _ => none
  | fuel + 1, j =>
    match j with
    | .arr [.str "nil"] => some nil
    | .arr [.str "int", n] => n.decimal64?.map int
    | .arr [.str "string", s] => s.str?.map str
    | .arr [.str "sym", s] => s.str?.map sym
    | .arr [.str "lvar", s] => s.str?.map localVar
    | .arr [.str "ivar", s] => s.str?.map instanceVar
    | .arr [.str "array", elements] => (elements.list? (readShort fuel)).map array
    | .arr [.str "call", receiver, method, arguments] => do
      return call (← receiver.nullable? (readShort fuel)) (← method.str?)
        (← arguments.list? (readShort fuel))
    | _ => none

/-- An expression in short notation. -/
def ofShort? (j : Json) : Option Expr := readShort (j.depth + 1) j

end Expr

/-- A parameter of a depth below the fuel in short notation. -/
def ParamNode.readShort : (fuel : Nat) → Json → Option ParamNode
  | 0, _ => none
  | fuel + 1, j =>
    match j with
    | .arr [.str "marker", text] => text.str?.map .marker
    | .arr [.str "req", name] => do return .required (← name.str?) {}
    | .arr [.str "opt", name, default] => do
      return .optional (← name.str?) (← Expr.ofShort? default) {}
    | .arr [.str "rest", name] => do return .rest (← name.name?) {}
    | .arr [.str "kw", name, default] => do
      return .keyword (← name.str?) (← default.nullable? Expr.ofShort?) {}
    | .arr [.str "kwrest", name] => do return .keywordRest (← name.name?) {}
    | .arr [.str "destructure", children] => do
      return .group (← children.list? (ParamNode.readShort fuel)) {}
    | .arr [.str "attr", receiver, writer] => do
      return .attr (← Expr.ofShort? receiver) (← writer.str?) {}
    | _ => none

/-- A list of parameters in short notation. -/
def ParamList.ofShort? (j : Json) : Option ParamList := do
  return ⟨← j.list? (ParamNode.readShort (j.depth + 1)), {}⟩

/-- A target of a depth below the fuel in short notation. -/
def TargetNode.readShort : (fuel : Nat) → Json → Option TargetNode
  | 0, _ => none
  | fuel + 1, j =>
    match j with
    | .arr [.str "local", name] => do return .var .ofScope (← name.str?) {}
    | .arr [.str "ivar", name] => do return .var .ofInstance (← name.str?) {}
    | .arr [.str "gvar", name] => do return .var .ofProgram (← name.str?) {}
    | .arr [.str "nested", children] => do
      return .nested (← children.list? (TargetNode.readShort fuel)) {}
    | .arr [.str "splat", target] => do
      return .splat (← target.nullable? (TargetNode.readShort fuel)) {}
    | .arr [.str "attr", receiver, writer] => do
      return .attr (← Expr.ofShort? receiver) (← writer.str?) {}
    | _ => none

/-- A list of targets in short notation. -/
def TargetList.ofShort? (j : Json) : Option TargetList := do
  return ⟨← j.list? (TargetNode.readShort (j.depth + 1)), {}⟩

end Formals
