import Formals.Binding.Error
import Formals.Binding.Names
import Formals.Binding.Signature
import Formals.Tree.Reading

/-!
# Checking lists

Nodes become parameters and targets if they keep the rules:

* names have the form of their kind, and no name is declared twice in a list, throwaway names apart;
* on each level the parameters come in the order required, optional, required, rest, required,
  keyword, keyword rest, each kind perhaps missing, with at most one rest and one keyword rest;
* groups are not empty and declare no keywords;
* on each level there is at most one splat, and it stands for a variable or an attribute.

`Phase` is the automaton of the order.
-/

namespace Formals

/-- Where in the order of parameters a level is. -/
inductive Phase where
  /-- Only required parameters so far. -/
  | leading
  /-- At the optional parameters. -/
  | optionals
  /-- At required parameters after optional ones. -/
  | trailing
  /-- After the rest. -/
  | afterRest
  /-- At the keyword parameters. -/
  | keywords
  /-- After the keyword rest. -/
  | closed
  deriving DecidableEq, Repr

/-- The phase after one more part, or why that part may not come here. -/
def Phase.next : Phase → Part → Except Malformation Phase
  | .keywords, .keyword => .ok .keywords
  | .keywords, .keywordRest => .ok .closed
  | .closed, .keyword => .error .keywordAfterKeywordRest
  | .closed, .keywordRest => .error .secondKeywordRest
  | .keywords, _ | .closed, _ => .error .positionalAfterKeyword
  | _, .keyword => .ok .keywords
  | _, .keywordRest => .ok .closed
  | .optionals, .positional => .ok .trailing
  | phase, .positional => .ok phase
  | .trailing, .optional => .error .requiredBetweenOptionals
  | .afterRest, .optional => .error .optionalAfterRest
  | _, .optional => .ok .optionals
  | .afterRest, .rest => .error .secondRest
  | _, .rest => .ok .afterRest

/-- The error for a node that could not be read, at its own span if it has one. -/
def unrecognized (role : NodeRole) (raw : Json) (parent : Span) : BindError :=
  .malformed (.unrecognized role ((raw.get? "type").bind Json.str?))
    (((raw.get? "span").bind Span.ofJson?).getD parent)

/-- Checks parameters and keeps the names declared so far. -/
abbrev Checker := StateT NameTable (Except BindError)

/-- Declares the name of a parameter. -/
def declareName (name : String) (span : Span) : Checker Unit := do
  if !isLocalName name then throw (.malformed (.notParameterName name) span)
  match (← get).declare name span with
  | .ok table => set table
  | .error _ => if !isThrowawayName name then throw (.duplicate name span)

/-- Declares the name of a parameter that may do without. -/
def declareName? (name : Option String) (span : Span) : Checker Unit :=
  match name with
  | some name => declareName name span
  | none => return ()

/-- The method that writes an attribute. -/
def checkWriter (name : String) (span : Span) : Except BindError Unit :=
  if isWriterName name then .ok () else .error (.malformed (.notWriter name) span)

/-- The name behind the stars of a marker. -/
def markerName (name : List Char) : Option String :=
  if name.isEmpty then none else some (String.ofList name)

/-- Checks a marker: `"a"`, `"*a"`, `"*"`, `"**a"` or `"**"`. -/
def checkMarker (text : String) (span : Span) (inGroup : Bool) : Checker Param :=
  match text.toList with
  | '*' :: '*' :: name => do
    if inGroup then throw (.keywordInGroup text span)
    declareName? (markerName name) span
    return .keywordRest (markerName name) span
  | '*' :: name => do
    declareName? (markerName name) span
    return .rest (markerName name) span
  | _ => do
    declareName text span
    return .required text span

/-- Moves the phase of a level on past a parameter. -/
def Phase.pass (phase : Phase) (p : Param) : Except BindError Phase :=
  (phase.next p.part).mapError (BindError.malformed · p.span)

mutual
/-- Checks one parameter. Markers take the span of the list or group around them. -/
def ParamNode.check (parent : Span) (inGroup : Bool) : ParamNode → Checker Param
  | .marker text => checkMarker text parent inGroup
  | .required name span => do
    declareName name span
    return .required name span
  | .optional name default span => do
    declareName name span
    return .optional name default span
  | .rest name span => do
    declareName? name span
    return .rest name span
  | .keyword name default span => do
    if inGroup then throw (.keywordInGroup name span)
    declareName name span
    return .keyword name default span
  | .keywordRest name span => do
    if inGroup then throw (.keywordInGroup ("**" ++ name.getD "") span)
    declareName? name span
    return .keywordRest name span
  | .group children span => do
    if children.isEmpty then throw (.malformed .emptyGroup span)
    return .group (← ParamNode.checkLevel span true .leading children) span
  | .attr receiver writer span => do
    checkWriter writer span
    return .attr receiver writer span
  | .malformed raw => throw (unrecognized .parameter raw parent)

/-- Checks the parameters of a level from a phase on. -/
def ParamNode.checkLevel (parent : Span) (inGroup : Bool) (phase : Phase) :
    List ParamNode → Checker (List Param)
  | [] => return []
  | node :: others => do
    let param ← node.check parent inGroup
    let phase ← phase.pass param
    return param :: (← ParamNode.checkLevel parent inGroup phase others)
end

/-- Checks a list of parameters. A missing list is an empty one. -/
def ParamList.check? : Option ParamList → Except BindError (List Param)
  | none => .ok []
  | some list => (ParamNode.checkLevel list.span false .leading list.nodes).run' {}

/-- Whether a name has the form that variables of a kind have. -/
def VariableKind.admits : VariableKind → String → Bool
  | ofScope => isLocalName
  | ofInstance => isSignedName '@'
  | ofProgram => isSignedName '$'

/-- Checks a variable. -/
def checkVariable (kind : VariableKind) (name : String) (span : Span) : Except BindError Target :=
  if kind.admits name then .ok (.var kind name span)
  else .error (.malformed (.notVariableName name) span)

/-- Checks an attribute. -/
def checkAttribute (receiver : Expr) (writer : String) (span : Span) : Except BindError Target := do
  checkWriter writer span
  return .attr receiver writer span

/-- Checks the target of a splat, which has a span of its own. -/
def checkSplatTarget (splat : Span) : TargetNode → Except BindError Target
  | .var kind name span => checkVariable kind name span
  | .attr receiver writer span => checkAttribute receiver writer span
  | .malformed raw => .error (unrecognized .target raw splat)
  | .nested .. | .splat .. => .error (.malformed .splatTarget splat)

/-- Whether a target is a splat. -/
def TargetNode.isSplat : TargetNode → Bool
  | .splat .. => true
  | _ => false

mutual
/-- Checks one target. -/
def TargetNode.check (parent : Span) : TargetNode → Except BindError Target
  | .var kind name span => checkVariable kind name span
  | .nested children span => do
    if children.isEmpty then throw (.malformed .emptyNested span)
    return .nested (← TargetNode.checkLevel span false children) span
  | .splat none span => return .rest none span
  | .splat (some target) span => return .rest (some (← checkSplatTarget span target)) span
  | .attr receiver writer span => checkAttribute receiver writer span
  | .malformed raw => throw (unrecognized .target raw parent)

/-- Checks the targets of a level, on which a splat has been seen or not. -/
def TargetNode.checkLevel (parent : Span) (splatSeen : Bool) :
    List TargetNode → Except BindError (List Target)
  | [] => return []
  | node :: others => do
    match node with
    | .splat _ span => if splatSeen then throw (.malformed .secondSplat span)
    | _ => pure ()
    let target ← node.check parent
    return target :: (← TargetNode.checkLevel parent (splatSeen || node.isSplat) others)
end

/-- Checks a list of targets. -/
def TargetList.check (list : TargetList) : Except BindError (List Target) :=
  TargetNode.checkLevel list.span false list.nodes

end Formals
