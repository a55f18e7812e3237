import Formals.Tree.Param
import Formals.Tree.Target

/-!
# Bodies and units

A unit is one input file: a list of bodies, each of which is compiled on its own. A body is a
method, a block or a `for` loop with its parameters, or a multiple assignment with its targets.
-/

namespace Formals

/-- What takes parameters. -/
inductive CallableKind where
  | method
  | block
  /-- The variables of a `for` loop outlive the loop. -/
  | forLoop
  deriving DecidableEq, Repr, Inhabited

/-- What is bound when a body is entered. -/
inductive Body where
  | callable (kind : CallableKind) (name : String) (params : Option ParamList) (span : Span)
  | assignment (name : String) (targets : TargetList) (span : Span)
  deriving Inhabited

/-- The name of a body. -/
def Body.name : Body → String
  | callable _ name _ _ | assignment name _ _ => name

/-- The span of a body. -/
def Body.span : Body → Span
  | callable _ _ _ span | assignment _ _ span => span

/-- One input file. -/
structure CompilationUnit where
  fileName : String := ""
  bodies : List Body := []
  deriving Inhabited

end Formals
