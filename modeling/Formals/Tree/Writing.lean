import Formals.Tree.Body

/-!
# Writing trees as JSON

Every record is written as an object with its tag and all its fields in the order of their
declaration; a malformed node is written as the document that it was.
-/

namespace Formals

/-- A span as JSON. -/
def Span.toJson (s : Span) : Json :=
  .obj [("start", .int s.start.toNat), ("length", .int s.length.toNat)]

/-- A list of nodes under a name, with its span. -/
def Json.ofNodes (name : String) (nodes : List Json) (span : Span) : Json :=
  .obj [(name, .arr nodes), ("span", span.toJson)]

/-- A text or `null`. -/
def Json.ofString? : Option String → Json
  | some s => .str s
  | none => .null

namespace Expr

mutual
/-- An expression as JSON. -/
def toJson : Expr → Json
  | nil => .obj [("type", .str "nil")]
  | bool true => .obj [("type", .str "true")]
  | bool false => .obj [("type", .str "false")]
  | self => .obj [("type", .str "self")]
  | int value => .obj [("type", .str "integer"), ("value", .int value.toInt)]
  | str value => .obj [("type", .str "string"), ("value", .str value)]
  | sym value => .obj [("type", .str "symbol"), ("value", .str value)]
  | localVar name => .obj [("type", .str "local_variable"), ("name", .str name)]
  | instanceVar name => .obj [("type", .str "instance_variable"), ("name", .str name)]
  | globalVar name => .obj [("type", .str "global_variable"), ("name", .str name)]
  | array elements => .obj [("type", .str "array"), ("elements", .arr (listToJson elements))]
  | hash pairs => .obj [("type", .str "hash"), ("pairs", .arr (pairsToJson pairs))]
  | call none method arguments =>
    .obj [("type", .str "call"), ("receiver", .null), ("method", .str method),
      ("arguments", .arr (listToJson arguments))]
  | call (some receiver) method arguments =>
    .obj [("type", .str "call"), ("receiver", receiver.toJson), ("method", .str method),
      ("arguments", .arr (listToJson arguments))]

/-- Some expressions as JSON. -/
def listToJson : List Expr → List Json
  | [] => []
  | e :: rest => e.toJson :: listToJson rest

/-- The pairs of a hash literal as arrays of two. -/
def pairsToJson : List (Expr × Expr) → List Json
  | [] => []
  | (key, value) :: rest => .arr [key.toJson, value.toJson] :: pairsToJson rest
end

end Expr

namespace ParamNode

mutual
/-- A parameter as JSON. -/
def toJson : ParamNode → Json
  | marker text => .str text
  | required name span =>
    .obj [("type", .str "required"), ("name", .str name), ("span", span.toJson)]
  | optional name default span =>
    .obj [("type", .str "optional"), ("name", .str name), ("value", default.toJson),
      ("span", span.toJson)]
  | rest name span =>
    .obj [("type", .str "rest"), ("name", .ofString? name), ("span", span.toJson)]
  | keyword name default span =>
    .obj [("type", .str "keyword"), ("name", .str name),
      ("value", (default.map Expr.toJson).getD .null), ("span", span.toJson)]
  | keywordRest name span =>
    .obj [("type", .str "keyword_rest"), ("name", .ofString? name), ("span", span.toJson)]
  | group children span =>
    .obj [("type", .str "destructure"), ("parameters", .arr (listToJson children)),
      ("span", span.toJson)]
  | attr receiver writer span =>
    .obj [("type", .str "attribute_target"), ("receiver", receiver.toJson), ("name", .str writer),
      ("span", span.toJson)]
  | malformed raw => raw

/-- Some parameters as JSON. -/
def listToJson : List ParamNode → List Json
  | [] => []
  | p :: others => p.toJson :: listToJson others
end

end ParamNode

/-- A list of parameters as JSON. -/
def ParamList.toJson (list : ParamList) : Json :=
  .ofNodes "parameters" (ParamNode.listToJson list.nodes) list.span

/-- The tag of a variable target. -/
def VariableKind.tag : VariableKind → String
  | ofScope => "local_variable"
  | ofInstance => "instance_variable"
  | ofProgram => "global_variable"

namespace TargetNode

mutual
/-- A target as JSON. -/
def toJson : TargetNode → Json
  | var kind name span =>
    .obj [("type", .str kind.tag), ("name", .str name), ("span", span.toJson)]
  | nested children span =>
    .obj [("type", .str "nested"), ("targets", .arr (listToJson children)), ("span", span.toJson)]
  | splat none span =>
    .obj [("type", .str "splat"), ("target", .null), ("span", span.toJson)]
  | splat (some target) span =>
    .obj [("type", .str "splat"), ("target", target.toJson), ("span", span.toJson)]
  | attr receiver writer span =>
    .obj [("type", .str "attribute"), ("receiver", receiver.toJson), ("name", .str writer),
      ("span", span.toJson)]
  | malformed raw => raw

/-- Some targets as JSON. -/
def listToJson : List TargetNode → List Json
  | [] => []
  | t :: rest => t.toJson :: listToJson rest
end

end TargetNode

/-- A list of targets as JSON. -/
def TargetList.toJson (list : TargetList) : Json :=
  .ofNodes "targets" (TargetNode.listToJson list.nodes) list.span

/-- The tag of a body with parameters. -/
def CallableKind.tag : CallableKind → String
  | method => "method"
  | block => "block"
  | forLoop => "for_loop"

/-- A body as JSON. -/
def Body.toJson : Body → Json
  | callable kind name params span =>
    .obj [("kind", .str kind.tag), ("name", .str name),
      ("parameters", (params.map ParamList.toJson).getD .null), ("span", span.toJson)]
  | assignment name targets span =>
    .obj [("kind", .str "multiple_assignment"), ("name", .str name), ("targets", targets.toJson),
      ("span", span.toJson)]

/-- A unit as JSON. -/
def CompilationUnit.toJson (unit : CompilationUnit) : Json :=
  .obj [("file_name", .str unit.fileName), ("bodies", .arr (unit.bodies.map Body.toJson))]

end Formals
