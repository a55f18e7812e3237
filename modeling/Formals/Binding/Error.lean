import Formals.Span

/-!
# Errors of binding

`BindError` says why a list of parameters or targets cannot be compiled, and where. A list is
malformed for one of the reasons of `Malformation`.
-/

namespace Formals

/-- What a node was read as. -/
inductive NodeRole where
  | parameter
  | target
  deriving DecidableEq, Repr

/-- Why a parameter or a target is malformed. -/
inductive Malformation where
  | notParameterName (text : String)
  | notVariableName (text : String)
  | notWriter (text : String)
  /-- A node that could not be read, with its tag if it has one. -/
  | unrecognized (role : NodeRole) (tag : Option String)
  | emptyGroup
  | emptyNested
  | secondSplat
  | splatTarget
  | positionalAfterKeyword
  | optionalAfterRest
  | requiredBetweenOptionals
  | secondRest
  | keywordAfterKeywordRest
  | secondKeywordRest
  /-- No order of the parameters lets every one of them take its value. -/
  | unorderable
  /-- An expression has more parts than a 32-bit count can hold. -/
  | tooManyElements
  deriving DecidableEq, Repr

/-- The noun for a role. -/
def NodeRole.noun : NodeRole → String
  | parameter => "parameter"
  | target => "assignment target"

/-- The text of a reason. -/
def Malformation.reason : Malformation → String
  | notParameterName text => s!"`{text}` is not a valid parameter name"
  | notVariableName text => s!"`{text}` is not a valid variable name"
  | notWriter text => s!"`{text}` is not an attribute writer"
  | unrecognized role none => s!"unrecognized {role.noun} node"
  | unrecognized role (some tag) => s!"unrecognized or incomplete `{tag}` {role.noun} node"
  | emptyGroup => "empty destructuring group"
  | emptyNested => "empty nested target list"
  | secondSplat => "more than one splat target"
  | splatTarget => "splat target must be a variable or an attribute"
  | positionalAfterKeyword => "positional parameter after keyword parameters"
  | optionalAfterRest => "optional parameter after rest parameter"
  | requiredBetweenOptionals => "required parameter between optional parameters"
  | secondRest => "more than one rest parameter"
  | keywordAfterKeywordRest => "keyword parameter after keyword rest parameter"
  | secondKeywordRest => "more than one keyword rest parameter"
  | unorderable => "parameters cannot be bound in any order"
  | tooManyElements => "expression has too many elements"

/-- Why a body cannot be compiled. -/
inductive BindError where
  | malformed (cause : Malformation) (span : Span)
  /-- The default of a parameter reads the parameter. -/
  | circular (name : String) (span : Span)
  | keywordInGroup (name : String) (span : Span)
  | duplicate (name : String) (span : Span)
  deriving DecidableEq, Repr

namespace BindError

/-- Where an error is. -/
def span : BindError → Span
  | malformed _ span | circular _ span | keywordInGroup _ span | duplicate _ span => span

/-- The detail of an error: the reason, or the name that it is about. -/
def detail : BindError → String
  | malformed cause _ => cause.reason
  | circular name _ | keywordInGroup name _ | duplicate name _ => name

/-- The text of an error. -/
def message : BindError → String
  | malformed cause _ => s!"malformed parameter: {cause.reason}"
  | circular name _ => s!"circular argument reference - {name}"
  | keywordInGroup name _ =>
    s!"keyword parameter `{name}` cannot appear inside a destructuring group"
  | duplicate name _ => s!"duplicated argument name - {name}"

end BindError
end Formals
