/-!
# Expressions

The expressions that stand as defaults of parameters and as receivers of attributes: literals,
variables, array and hash literals, and calls. `Expr.children` lists the parts of an expression in
the order in which they are evaluated, and `Expr.readsLocal` tells whether a local variable is read
anywhere in it.
-/

namespace Formals

/-- An expression. A call without receiver goes to `self`. -/
inductive Expr where
  | nil
  | bool (b : Bool)
  | self
  | int (value : Int64)
  | str (value : String)
  | sym (value : String)
  | localVar (name : String)
  | instanceVar (name : String)
  | globalVar (name : String)
  | array (elements : List Expr)
  | hash (pairs : List (Expr × Expr))
  | call (receiver : Option Expr) (method : String) (arguments : List Expr)
  deriving Inhabited

namespace Expr

/-- The direct parts of an expression, in the order in which they are evaluated: the receiver of a
call comes after its arguments. -/
def children : Expr → List Expr
  | array elements => elements
  | hash pairs => pairs.flatMap fun (key, value) => [key, value]
  | call receiver _ arguments => arguments ++ receiver.toList
  | _ => []

mutual
/-- Whether an expression reads a local variable anywhere. -/
def readsLocal (name : String) : Expr → Bool
  | localVar n => n == name
  | array elements => anyReadsLocal name elements
  | hash pairs => anyPairReadsLocal name pairs
  | call (some receiver) _ arguments => anyReadsLocal name arguments || receiver.readsLocal name
  | call none _ arguments => anyReadsLocal name arguments
  | _ => false

/-- Whether one of some expressions reads a local variable. -/
def anyReadsLocal (name : String) : List Expr → Bool
  | [] => false
  | e :: rest => e.readsLocal name || anyReadsLocal name rest

/-- Whether a key or a value reads a local variable. -/
def anyPairReadsLocal (name : String) : List (Expr × Expr) → Bool
  | [] => false
  | (key, value) :: rest =>
    key.readsLocal name || value.readsLocal name || anyPairReadsLocal name rest
end

end Expr
end Formals
