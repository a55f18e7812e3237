import Formals.Json.Parser
import Formals.Json.Record
import Formals.Tree.Body

/-!
# Reading trees from JSON

Expressions, nodes, bodies and units are records and variants (`Formals.Json.Record`). A body and an
expression that stand alone are tagged by name; inside another node the place of the name among the
names will do as well. A parameter or a target that cannot be read becomes a malformed node, so that
it spoils only the body that it belongs to.

The readers of nested trees descend with `fuel`, which has to exceed the depth of the document; the
functions without fuel supply enough.
-/

namespace Formals

/-- A span, with both fields. -/
def Span.ofJson? (j : Json) : Option Span := do
  let [start, length] ← j.fields? ["start", "length"] | none
  return ⟨← Json.required? Json.word? start, ← Json.required? Json.word? length⟩

/-- The field of a span, which begins at zero and is empty when it is not given. -/
def Span.field? (field : Option Json) : Option Span := Json.optional? {} Span.ofJson? field

/-- The nodes of a list, which stand under a name and are read alike, and the span of the list. -/
def Json.nodes? {α : Type} (name : String) (node : Json → α) (j : Json) :
    Option (List α × Span) := do
  let [nodes, span] ← j.fields? [name, "span"] | none
  return (← Json.optional? [] (Json.list? fun n => some (node n)) nodes, ← Span.field? span)

namespace Expr

/-- The tags of expressions. -/
def tags : List String :=
  ["nil", "true", "false", "self", "integer", "string", "symbol", "local_variable",
   "instance_variable", "global_variable", "array", "hash", "call"]

/-- An expression of a depth below the fuel. -/
def read : (naming : Json.Naming) → (fuel : Nat) → Json → Option Expr
  | _, 0, _ => none
  | naming, fuel + 1, j => do
    let (tag, record) ← j.variant? "type" tags naming
    match tag with
    | "nil" => record.noFields?.map fun _ => nil
    | "true" => record.noFields?.map fun _ => bool true
    | "false" => record.noFields?.map fun _ => bool false
    | "self" => record.noFields?.map fun _ => self
    | "integer" => do
      let [value] ← record.fields? ["value"] | none
      return int (← Json.required? Json.int64? value)
    | "string" => do
      let [value] ← record.fields? ["value"] | none
      return str (← Json.required? Json.str? value)
    | "symbol" => do
      let [value] ← record.fields? ["value"] | none
      return sym (← Json.required? Json.str? value)
    | "local_variable" => do
      let [name] ← record.fields? ["name"] | none
      return localVar (← Json.required? Json.str? name)
    | "instance_variable" => do
      let [name] ← record.fields? ["name"] | none
      return instanceVar (← Json.required? Json.str? name)
    | "global_variable" => do
      let [name] ← record.fields? ["name"] | none
      return globalVar (← Json.required? Json.str? name)
    | "array" => do
      let [elements] ← record.fields? ["elements"] | none
      return array (← Json.optional? [] (Json.list? (read .byNameOrPlace fuel)) elements)
    | "hash" => do
      let [pairs] ← record.fields? ["pairs"] | none
      let pair : Json → Option (Expr × Expr)
        | .arr [key, value] => do
          return (← read .byNameOrPlace fuel key, ← read .byNameOrPlace fuel value)
        | _ => none
      return hash (← Json.optional? [] (Json.list? pair) pairs)
    | "call" => do
      let [receiver, method, arguments] ← record.fields? ["receiver", "method", "arguments"] | none
      return call
        (← Json.optional? none (Json.nullable? (read .byNameOrPlace fuel)) receiver)
        (← Json.required? Json.str? method)
        (← Json.optional? [] (Json.list? (read .byNameOrPlace fuel)) arguments)
    | _ => none

/-- An expression that stands alone. -/
def ofJson? (j : Json) : Option Expr := read .byName (j.depth + 1) j

end Expr

namespace ParamNode

/-- The tags of parameters. -/
def tags : List String :=
  ["required", "optional", "rest", "keyword", "keyword_rest", "destructure", "attribute_target"]

/-- A parameter of a depth below the fuel. -/
def read : (fuel : Nat) → Json → ParamNode
  | _, .str text => marker text
  | 0, j => malformed j.normalize
  | fuel + 1, j =>
    let known : Option ParamNode := do
      let (tag, record) ← j.variant? "type" tags .byNameOrPlace
      match tag with
      | "required" => do
        let [name, span] ← record.fields? ["name", "span"] | none
        return required (← Json.required? Json.str? name) (← Span.field? span)
      | "optional" => do
        let [name, value, span] ← record.fields? ["name", "value", "span"] | none
        return optional (← Json.required? Json.str? name)
          (← Json.required? (Expr.read .byNameOrPlace fuel) value) (← Span.field? span)
      | "rest" => do
        let [name, span] ← record.fields? ["name", "span"] | none
        return rest (← Json.optional? none (Json.nullable? Json.str?) name) (← Span.field? span)
      | "keyword" => do
        let [name, value, span] ← record.fields? ["name", "value", "span"] | none
        return keyword (← Json.required? Json.str? name)
          (← Json.optional? none (Json.nullable? (Expr.read .byNameOrPlace fuel)) value)
          (← Span.field? span)
      | "keyword_rest" => do
        let [name, span] ← record.fields? ["name", "span"] | none
        return keywordRest (← Json.optional? none (Json.nullable? Json.str?) name)
          (← Span.field? span)
      | "destructure" => do
        let [parameters, span] ← record.fields? ["parameters", "span"] | none
        return group (← Json.required? (Json.list? fun p => some (read fuel p)) parameters)
          (← Span.field? span)
      | "attribute_target" => do
        let [receiver, name, span] ← record.fields? ["receiver", "name", "span"] | none
        return attr (← Json.required? (Expr.read .byNameOrPlace fuel) receiver)
          (← Json.required? Json.str? name) (← Span.field? span)
      | _ => none
    known.getD (malformed j.normalize)

/-- A parameter. -/
def ofJson (j : Json) : ParamNode := read (j.depth + 1) j

end ParamNode

/-- A list of parameters. -/
def ParamList.ofJson? (j : Json) : Option ParamList :=
  (j.nodes? "parameters" ParamNode.ofJson).map fun (nodes, span) => ⟨nodes, span⟩

namespace TargetNode

/-- The tags of targets. -/
def tags : List String :=
  ["local_variable", "instance_variable", "global_variable", "nested", "splat", "attribute"]

/-- A variable of a kind, from the fields of its node. -/
def readVariable (kind : VariableKind) (record : Json) : Option TargetNode := do
  let [name, span] ← record.fields? ["name", "span"] | none
  return var kind (← Json.required? Json.str? name) (← Span.field? span)

/-- A target of a depth below the fuel. -/
def read : (fuel : Nat) → Json → TargetNode
  | 0, j => malformed j.normalize
  | fuel + 1, j =>
    let known : Option TargetNode := do
      let (tag, record) ← j.variant? "type" tags .byNameOrPlace
      match tag with
      | "local_variable" => readVariable .ofScope record
      | "instance_variable" => readVariable .ofInstance record
      | "global_variable" => readVariable .ofProgram record
      | "nested" => do
        let [targets, span] ← record.fields? ["targets", "span"] | none
        return nested (← Json.required? (Json.list? fun t => some (read fuel t)) targets)
          (← Span.field? span)
      | "splat" => do
        let [target, span] ← record.fields? ["target", "span"] | none
        return splat (← Json.optional? none (Json.nullable? fun t => some (read fuel t)) target)
          (← Span.field? span)
      | "attribute" => do
        let [receiver, name, span] ← record.fields? ["receiver", "name", "span"] | none
        return attr (← Json.required? (Expr.read .byNameOrPlace fuel) receiver)
          (← Json.required? Json.str? name) (← Span.field? span)
      | _ => none
    known.getD (malformed j.normalize)

/-- A target. -/
def ofJson (j : Json) : TargetNode := read (j.depth + 1) j

/-- The span of a target, if it has one. -/
def span? : TargetNode → Option Span
  | var _ _ span | nested _ span | splat _ span | attr _ _ span => some span
  | malformed raw => (raw.get? "span").bind Span.ofJson?

end TargetNode

/-- A list of targets. -/
def TargetList.ofJson? (j : Json) : Option TargetList :=
  (j.nodes? "targets" TargetNode.ofJson).map fun (nodes, span) => ⟨nodes, span⟩

namespace Body

/-- The tags of bodies. -/
def tags : List String := ["method", "block", "for_loop", "multiple_assignment"]

/-- A body with parameters, from the fields of its node. -/
def readCallable (kind : CallableKind) (record : Json) : Option Body := do
  let [name, parameters, span] ← record.fields? ["name", "parameters", "span"] | none
  return callable kind (← Json.required? Json.str? name)
    (← Json.optional? none (Json.nullable? ParamList.ofJson?) parameters) (← Span.field? span)

/-- A body. -/
def ofJson? (j : Json) : Option Body := do
  let (tag, record) ← j.variant? "kind" tags .byName
  match tag with
  | "method" => readCallable .method record
  | "block" => readCallable .block record
  | "for_loop" => readCallable .forLoop record
  | "multiple_assignment" => do
    let [name, targets, span] ← record.fields? ["name", "targets", "span"] | none
    return assignment (← Json.required? Json.str? name)
      (← Json.required? TargetList.ofJson? targets) (← Span.field? span)
  | _ => none

end Body

/-- A unit from the text of its file. What stands in unknown fields only has to be spelled right. -/
def CompilationUnit.ofText? (text : String) : Option CompilationUnit := do
  let [fileName, bodies] ← (← Json.parse text).fields? ["file_name", "bodies"] | none
  let known := fun (field : Option Json) => field.all (Json.readable (Json.depthLimit - 1))
  if known fileName && known bodies then
    return ⟨← Json.optional? "" Json.str? fileName,
      ← Json.optional? [] (Json.list? Body.ofJson?) bodies⟩
  else none

end Formals
