import Formals.Machine.Value

/-!
# Environments

An `Env` is what an instruction reads and changes apart from the stack: the heap, a chain of local
scopes, the global variables and `self`.
-/

namespace Formals

/-- The local variables of a scope, in the order of their assignment. -/
abbrev Scope := Entries String Value

/-- What instructions work on besides the stack. -/
structure Env where
  heap : Heap := {}
  /-- The innermost scope. -/
  scope : Scope := []
  /-- The scopes around it, from the inside out. -/
  outer : List Scope := []
  globals : Entries String Value := []
  selfValue : Value
  deriving Repr, Inhabited

namespace Env

/-- The scopes from the inside out. -/
def scopes (env : Env) : List Scope := env.scope :: env.outer

/-- The value of a local variable in the innermost scope that has it. -/
def local? (env : Env) (name : String) : Option Value :=
  env.scopes.findSome? (Entries.get? name)

/-- The value of a global variable. -/
def global? (env : Env) (name : String) : Option Value := env.globals.get? name

/-- The environment with a local variable set in the innermost scope. -/
def define (env : Env) (name : String) (value : Value) : Env :=
  { env with scope := env.scope.insert name value }

/-- Sets a variable in the first scope that has it. -/
def assignIn? (name : String) (value : Value) : List Scope → Option (List Scope)
  | [] => none
  | scope :: rest =>
    if scope.contains name then some (scope.insert name value :: rest)
    else (assignIn? name value rest).map (scope :: ·)

/-- The environment with a local variable set: in the innermost scope that has it, unless
`localOnly`, and else in the innermost scope. -/
def setLocal (env : Env) (name : String) (value : Value) (localOnly : Bool) : Env :=
  if localOnly || env.scope.contains name then env.define name value
  else
    match assignIn? name value env.outer with
    | some outer => { env with outer }
    | none => env.define name value

end Env
end Formals
