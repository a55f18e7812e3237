import Formals.Binding.Emission
import Formals.Text.Interner
import Formals.Tree.Body

/-!
# Binding with interned names

Lists may be bound with names as handles of an interner that they share with others. A name is
interned where it is checked, so that names are compared as handles, and looked up again where an
instruction needs its text. Binding only adds to the interner; it does so also where it fails.
-/

namespace Formals

/-- The text of a handle. -/
def Interner.text (t : Interner) (handle : Handle) : String := (t.resolve? handle).getD ""

namespace Interned

/-! ## Parameters and targets -/

/-- A checked parameter with handles for names. -/
inductive Param where
  | required (name : Handle) (span : Span)
  | optional (name : Handle) (default : Expr) (span : Span)
  | rest (name : Option Handle) (span : Span)
  | keyword (name : Handle) (default : Option Expr) (span : Span)
  | keywordRest (name : Option Handle) (span : Span)
  | group (children : List Param) (span : Span)
  | attr (receiver : Expr) (writer : Handle) (span : Span)

/-- The span of a parameter. -/
def Param.span : Param → Span
  | required _ span | optional _ _ span | rest _ span | keyword _ _ span | keywordRest _ span
  | group _ span | attr _ _ span => span

/-- The part that a parameter plays on its level. -/
def Param.part : Param → Part
  | required .. | group .. | attr .. => .positional
  | optional .. => .optional
  | rest .. => .rest
  | keyword .. => .keyword
  | keywordRest .. => .keywordRest

mutual
/-- A parameter with its names. -/
def Param.resolve (t : Interner) : Param → Formals.Param
  | required name span => .required (t.text name) span
  | optional name default span => .optional (t.text name) default span
  | rest name span => .rest (name.map t.text) span
  | keyword name default span => .keyword (t.text name) default span
  | keywordRest name span => .keywordRest (name.map t.text) span
  | group children span => .group (Param.resolveAll t children) span
  | attr receiver writer span => .attr receiver (t.text writer) span

/-- Parameters with their names. -/
def Param.resolveAll (t : Interner) : List Param → List Formals.Param
  | [] => []
  | p :: others => p.resolve t :: Param.resolveAll t others
end

/-- A checked target with handles for names. -/
inductive Target where
  | var (kind : VariableKind) (name : Handle) (span : Span)
  | nested (children : List Target) (span : Span)
  | rest (target : Option Target) (span : Span)
  | attr (receiver : Expr) (writer : Handle) (span : Span)

mutual
/-- A target with its names. -/
def Target.resolve (t : Interner) : Target → Formals.Target
  | var kind name span => .var kind (t.text name) span
  | nested children span => .nested (Target.resolveAll t children) span
  | rest none span => .rest none span
  | rest (some target) span => .rest (some (target.resolve t)) span
  | attr receiver writer span => .attr receiver (t.text writer) span

/-- Targets with their names. -/
def Target.resolveAll (t : Interner) : List Target → List Formals.Target
  | [] => []
  | target :: others => target.resolve t :: Target.resolveAll t others
end

/-! ## Checking -/

/-- The interner, and the handles of the names that the list declares. -/
structure State where
  interner : Interner := {}
  declared : List (Handle × Span) := []

/-- Checks lists. Unlike declared names, interned names stay if the check fails. -/
abbrev Checker := EStateM BindError State

/-- Whether a name is declared. -/
def State.declares (s : State) (name : Handle) : Bool := s.declared.any fun d => d.1 == name

/-- The handle of a text. -/
def intern (text : String) : Checker Handle := do
  let s ← get
  let (name, interner) := s.interner.intern text
  set { s with interner }
  return name

/-- Declares the name of a parameter. -/
def declareName (text : String) (span : Span) : Checker Handle := do
  if !isLocalName text then throw (.malformed (.notParameterName text) span)
  let name ← intern text
  let s ← get
  if s.declares name then
    if !isThrowawayName text then throw (.duplicate text span)
  else set { s with declared := s.declared ++ [(name, span)] }
  return name

/-- Declares the name of a parameter that may do without. -/
def declareName? (text : Option String) (span : Span) : Checker (Option Handle) :=
  match text with
  | some text => some <$> declareName text span
  | none => return none

/-- The handle of a method that writes an attribute. -/
def internWriter (text : String) (span : Span) : Checker Handle := do
  if !isWriterName text then throw (.malformed (.notWriter text) span)
  intern text

/-- Checks a marker. -/
def checkMarker (text : String) (span : Span) (inGroup : Bool) : Checker Param :=
  match text.toList with
  | '*' :: '*' :: name => do
    if inGroup then throw (.keywordInGroup text span)
    return .keywordRest (← declareName? (markerName name) span) span
  | '*' :: name => return .rest (← declareName? (markerName name) span) span
  | _ => return .required (← declareName text span) span

/-- Moves the phase of a level on past a parameter. -/
def pass (phase : Phase) (p : Param) : Checker Phase :=
  match phase.next p.part with
  | .ok next => return next
  | .error m => throw (.malformed m p.span)

mutual
/-- Checks one parameter. -/
def check (parent : Span) (inGroup : Bool) : ParamNode → Checker Param
  | .marker text => checkMarker text parent inGroup
  | .required name span => return .required (← declareName name span) span
  | .optional name default span => return .optional (← declareName name span) default span
  | .rest name span => return .rest (← declareName? name span) span
  | .keyword name default span => do
    if inGroup then throw (.keywordInGroup name span)
    return .keyword (← declareName name span) default span
  | .keywordRest name span => do
    if inGroup then throw (.keywordInGroup ("**" ++ name.getD "") span)
    return .keywordRest (← declareName? name span) span
  | .group children span => do
    if children.isEmpty then throw (.malformed .emptyGroup span)
    return .group (← checkLevel span true .leading children) span
  | .attr receiver writer span => return .attr receiver (← internWriter writer span) span
  | .malformed raw => throw (unrecognized .parameter raw parent)

/-- Checks the parameters of a level from a phase on. -/
def checkLevel (parent : Span) (inGroup : Bool) (phase : Phase) :
    List ParamNode → Checker (List Param)
  | [] => return []
  | node :: others => do
    let param ← check parent inGroup node
    let phase ← pass phase param
    return param :: (← checkLevel parent inGroup phase others)
end

/-- Checks a list of parameters. -/
def checkParams? : Option ParamList → Checker (List Param)
  | none => return []
  | some list => checkLevel list.span false .leading list.nodes

/-- Checks a variable. -/
def checkVariable (kind : VariableKind) (name : String) (span : Span) : Checker Target := do
  if !kind.admits name then throw (.malformed (.notVariableName name) span)
  return .var kind (← intern name) span

/-- Checks an attribute. -/
def checkAttribute (receiver : Expr) (writer : String) (span : Span) : Checker Target :=
  return .attr receiver (← internWriter writer span) span

/-- Checks the target of a splat. -/
def checkSplatTarget (splat : Span) : TargetNode → Checker Target
  | .var kind name span => checkVariable kind name span
  | .attr receiver writer span => checkAttribute receiver writer span
  | .malformed raw => throw (unrecognized .target raw splat)
  | .nested .. | .splat .. => throw (.malformed .splatTarget splat)

mutual
/-- Checks one target. -/
def checkTarget (parent : Span) : TargetNode → Checker Target
  | .var kind name span => checkVariable kind name span
  | .nested children span => do
    if children.isEmpty then throw (.malformed .emptyNested span)
    return .nested (← checkTargetLevel span false children) span
  | .splat none span => return .rest none span
  | .splat (some target) span => return .rest (some (← checkSplatTarget span target)) span
  | .attr receiver writer span => checkAttribute receiver writer span
  | .malformed raw => throw (unrecognized .target raw parent)

/-- Checks the targets of a level, on which a splat has been seen or not. -/
def checkTargetLevel (parent : Span) (splatSeen : Bool) : List TargetNode → Checker (List Target)
  | [] => return []
  | node :: others => do
    match node with
    | .splat _ span => if splatSeen then throw (.malformed .secondSplat span)
    | _ => pure ()
    let target ← checkTarget parent node
    return target :: (← checkTargetLevel parent (splatSeen || node.isSplat) others)
end

/-- Checks a list of targets. -/
def checkTargets (list : TargetList) : Checker (List Target) :=
  checkTargetLevel list.span false list.nodes

/-! ## Binding -/

/-- Goes on with what was checked and the interner, which is kept. -/
def andBind {α : Type} (checker : Checker α) (bind : Interner → α → Except BindError Stream)
    (t : Interner) : Except BindError Stream × Interner :=
  match checker { interner := t } with
  | .ok checked s => (bind s.interner checked, s.interner)
  | .error e s => (.error e, s.interner)

/-- The code for a list of parameters. -/
def bindParameters (list : Option ParamList) (localOnly : Bool) :
    Interner → Except BindError Stream × Interner :=
  andBind (checkParams? list) fun t ps => bindParams (Param.resolveAll t ps) localOnly

/-- The code for a list of targets. -/
def bindTargetList (list : TargetList) : Interner → Except BindError Stream × Interner :=
  andBind (checkTargets list) fun t targets => bindTargets (Target.resolveAll t targets)

end Interned

/-- The code that enters a body, with its names in an interner. -/
def Body.bindIn (localOnly : Bool) : Body → Interner → Except BindError Stream × Interner
  | callable _ _ params _ => Interned.bindParameters params localOnly
  | assignment _ targets _ => Interned.bindTargetList targets

end Formals
