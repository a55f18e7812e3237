import Formals.Binding.Checking
import Formals.Binding.Lowering
import Formals.Binding.Plan

/-!
# Code for lists

The code for a level consumes the array on top of the stack: it binds the parameters or targets in
the order of their plan, drops the keyword hash if it is still there, and drops the array. Keyword
parameters share one hash, which the first of them moves from the end of the array onto the stack,
and which is checked for keys left over, unless a keyword rest took them, and dropped before a value
is taken from the array again.

A `Piece` is an item of a level together with the code that binds it in a given state.
-/

namespace Formals

/-- An item of a level: what the plan has to know of it, and the code that binds it. -/
structure Piece where
  part : Part
  span : Span
  code : LevelState → Except BindError Stream

namespace LevelState

/-- The instruction that takes the next value from the sequence. -/
def takeValue (s : LevelState) (span : Span) : Instruction :=
  match s.side with
  | .left => ⟨.arrayShift, span⟩
  | .right => ⟨.arrayPop, span⟩

/-- The code that puts the keyword hash on the stack, if it is not there. -/
def stageCode (s : LevelState) (span : Span) : Stream :=
  if s.keywordsStaged then [] else [⟨.stageKeywords, span⟩]

/-- The code that checks and drops the keyword hash, if it is there. -/
def unstageCode (s : LevelState) (span : Span) : Stream :=
  if s.keywordsStaged then
    (if s.keywordRestSeen then [] else [⟨.checkKeywords, span⟩]) ++ [⟨.pop, span⟩]
  else []

end LevelState

/-- The code that binds the items of a level to the array on top of the stack, which it drops. -/
def levelCode (pieces : List Piece) : Except BindError Stream := do
  let plan := Plan.ofList Piece.part pieces
  let bound ← plan.steps.mapM fun (state, piece) => piece.code state
  match plan.stuck with
  | some piece => throw (.malformed .unorderable piece.span)
  | none =>
    let last := (plan.steps.getLast?.map fun step => step.2.span).getD {}
    return bound.flatten ++ plan.final.unstageCode last ++ [⟨.pop, last⟩]

/-- The code that assigns the value on top of the stack to a parameter. -/
def setParam (name : String) (localOnly : Bool) (span : Span) : Instruction :=
  ⟨.localSet name localOnly, span⟩

/-- The code that binds a name, if there is one, to the value on top of the stack, which stays. -/
def shareWith (name : Option String) (localOnly : Bool) (span : Span) : Stream :=
  match name with
  | some name => [⟨.dup, span⟩, setParam name localOnly span]
  | none => []

/-- The code for the default of a parameter, which may not read the parameter. -/
def defaultCode (name : String) (default : Expr) (span : Span) : Except BindError Stream :=
  if default.readsLocal name then .error (.circular name span) else default.lower span

mutual
/-- A parameter as an item of its level. The parameters in a group are always local. -/
def Param.piece (localOnly : Bool) : Param → Piece
  | .required name span => ⟨.positional, span, fun s =>
    .ok (s.unstageCode span ++ [s.takeValue span, setParam name localOnly span])⟩
  | .optional name default span => ⟨.optional, span, fun s => do
    let absent ← defaultCode name default span
    return s.unstageCode span ++ [⟨.arrayIsEmpty, span⟩, ⟨.ifTrue, span⟩] ++ absent ++
      [⟨.orElse, span⟩, ⟨.arrayShift, span⟩, ⟨.endIf, span⟩, setParam name localOnly span]⟩
  | .rest name span => ⟨.rest, span, fun s =>
    .ok (s.unstageCode span ++ shareWith name localOnly span)⟩
  | .keyword name none span => ⟨.keyword, span, fun s =>
    .ok (s.stageCode span ++ [⟨.takeKeyword name, span⟩, setParam name localOnly span])⟩
  | .keyword name (some default) span => ⟨.keyword, span, fun s => do
    let absent ← defaultCode name default span
    return s.stageCode span ++
      [⟨.hasKeyword name, span⟩, ⟨.ifTrue, span⟩, ⟨.takeKeyword name, span⟩, ⟨.orElse, span⟩] ++
      absent ++ [⟨.endIf, span⟩, setParam name localOnly span]⟩
  | .keywordRest name span => ⟨.keywordRest, span, fun s =>
    .ok (s.stageCode span ++ shareWith name localOnly span)⟩
  | .group children span => ⟨.positional, span, fun s => do
    let inner ← levelCode (Param.pieces true children)
    return s.unstageCode span ++ [s.takeValue span, ⟨.dup, span⟩, ⟨.toArray, span⟩] ++ inner ++
      [⟨.pop, span⟩]⟩
  | .attr receiver writer span => ⟨.positional, span, fun s => do
    let write ← writeAttribute receiver writer span
    return s.unstageCode span ++ [s.takeValue span] ++ write⟩

/-- The parameters of a level as items. -/
def Param.pieces (localOnly : Bool) : List Param → List Piece
  | [] => []
  | p :: others => p.piece localOnly :: Param.pieces localOnly others
end

/-- The code that binds parameters to the array of arguments on top of the stack. With `localOnly`
the parameters of the outer level belong to the innermost scope; otherwise they assign a variable of
an outer scope where there is one. -/
def bindParams (params : List Param) (localOnly : Bool) : Except BindError Stream :=
  levelCode (Param.pieces localOnly params)

/-- The instruction that assigns the value on top of the stack to a variable. -/
def assignVariable (kind : VariableKind) (name : String) (span : Span) : Instruction :=
  match kind with
  | .ofScope => ⟨.localSet name false, span⟩
  | .ofInstance => ⟨.instanceSet name, span⟩
  | .ofProgram => ⟨.globalSet name, span⟩

/-- The code that assigns the value on top of the stack to the target of a splat. -/
def splatCode : Target → Except BindError Stream
  | .var kind name span => .ok [assignVariable kind name span]
  | .attr receiver writer span => writeAttribute receiver writer span
  | .nested _ span | .rest _ span => .error (.malformed .splatTarget span)

mutual
/-- A target as an item of its level. -/
def Target.piece : Target → Piece
  | .var kind name span => ⟨.positional, span, fun s =>
    .ok [s.takeValue span, assignVariable kind name span]⟩
  | .nested children span => ⟨.positional, span, fun s => do
    let inner ← levelCode (Target.pieces children)
    return [s.takeValue span, ⟨.toArray, span⟩] ++ inner⟩
  | .rest none span => ⟨.rest, span, fun _ => .ok []⟩
  | .rest (some target) span => ⟨.rest, span, fun _ => do
    return ⟨.dup, span⟩ :: (← splatCode target)⟩
  | .attr receiver writer span => ⟨.positional, span, fun s => do
    return s.takeValue span :: (← writeAttribute receiver writer span)⟩

/-- The targets of a level as items. -/
def Target.pieces : List Target → List Piece
  | [] => []
  | t :: others => t.piece :: Target.pieces others
end

/-- The code that assigns the elements of the array on top of the stack to targets. -/
def bindTargets (targets : List Target) : Except BindError Stream :=
  levelCode (Target.pieces targets)

/-- The code for a list of parameters. -/
def ParamList.compile? (list : Option ParamList) (localOnly : Bool) : Except BindError Stream := do
  bindParams (← ParamList.check? list) localOnly

/-- The code for a list of targets. -/
def TargetList.compile (list : TargetList) : Except BindError Stream := do
  bindTargets (← list.check)

end Formals
