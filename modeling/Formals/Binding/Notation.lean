import Formals.Binding.Signature
import Formals.Code.Notation
import Formals.Tree.Reading
import Formals.Tree.Writing

/-!
# Checked parameters and targets as JSON

A checked parameter or target is written as an object with its kind under `spec`, its span as an
array of start and length, and its parts; a parameter also tells whether it has to take a value from
the sequence and whether it takes one from the keyword hash. When it is read the span may be left
out, and what it tells of itself is not looked at. The readers descend with `fuel`, which has to
exceed the depth of the document.
-/

namespace Formals

/-- The span of a checked node. -/
def Json.specSpan? (j : Json) : Option Span :=
  match j.get? "span" with
  | none | some .null => some {}
  | some s => Span.ofPair? s

/-- A part of a checked node that may be left out. -/
def Json.part? {α : Type} (j : Json) (name : String) (read : Json → Option α) : Option (Option α) :=
  ((j.get? name).getD .null).nullable? read

namespace Param

/-- The object for a parameter of a kind with some parts. -/
def written (p : Param) (kind : String) (parts : List (String × Json)) : Json :=
  .obj ([("spec", .str kind), ("span", p.span.toPair),
    ("flags", .arr [.bool p.isRequiredPositional, .bool p.isKeyword])] ++ parts)

mutual
/-- A parameter as JSON. -/
def toJson (p : Param) : Json :=
  match p with
  | required name _ => p.written "required" [("name", .str name)]
  | optional name default _ =>
    p.written "optional" [("name", .str name), ("default", default.toJson)]
  | rest name _ => p.written "rest" [("name", Json.ofString? name)]
  | keyword name default _ =>
    p.written "keyword" [("name", .str name), ("default", (default.map Expr.toJson).getD .null)]
  | keywordRest name _ => p.written "keyword_rest" [("name", Json.ofString? name)]
  | group children _ => p.written "destructure" [("children", .arr (listToJson children))]
  | attr receiver writer _ =>
    p.written "attr" [("receiver", receiver.toJson), ("writer", .str writer)]

/-- Some parameters as JSON. -/
def listToJson : List Param → List Json
  | [] => []
  | p :: others => p.toJson :: listToJson others
end

/-- A parameter of a depth below the fuel from JSON. -/
def read : (fuel : Nat) → Json → Option Param
  | 0, _ => none
  | fuel + 1, j => do
    let span ← j.specSpan?
    let name := (j.get? "name").bind Json.str?
    match ← (← j.get? "spec").str? with
    | "required" => return required (← name) span
    | "optional" => return optional (← name) (← Expr.ofJson? (← j.get? "default")) span
    | "rest" => return rest (← j.part? "name" Json.str?) span
    | "keyword" => return keyword (← name) (← j.part? "default" Expr.ofJson?) span
    | "keyword_rest" => return keywordRest (← j.part? "name" Json.str?) span
    | "destructure" => return group (← (← j.get? "children").list? (read fuel)) span
    | "attr" =>
      return attr (← Expr.ofJson? (← j.get? "receiver")) (← (← j.get? "writer").str?) span
    | _ => none

/-- Some parameters from JSON. -/
def listOfJson? (j : Json) : Option (List Param) := j.list? (read (j.depth + 1))

end Param

namespace Target

/-- The object for a target of a kind with some parts. -/
def written (t : Target) (kind : String) (parts : List (String × Json)) : Json :=
  .obj ([("spec", .str kind), ("span", t.span.toPair)] ++ parts)

mutual
/-- A target as JSON. -/
def toJson (t : Target) : Json :=
  match t with
  | var .ofScope name _ => t.written "local" [("name", .str name)]
  | var .ofInstance name _ => t.written "instance" [("name", .str name)]
  | var .ofProgram name _ => t.written "global" [("name", .str name)]
  | nested children _ => t.written "nested" [("children", .arr (listToJson children))]
  | rest none _ => t.written "rest" [("target", .null)]
  | rest (some target) _ => t.written "rest" [("target", target.toJson)]
  | attr receiver writer _ =>
    t.written "attr" [("receiver", receiver.toJson), ("writer", .str writer)]

/-- Some targets as JSON. -/
def listToJson : List Target → List Json
  | [] => []
  | t :: others => t.toJson :: listToJson others
end

/-- A target of a depth below the fuel from JSON. -/
def read : (fuel : Nat) → Json → Option Target
  | 0, _ => none
  | fuel + 1, j => do
    let span ← j.specSpan?
    let name := (j.get? "name").bind Json.str?
    match ← (← j.get? "spec").str? with
    | "local" => return var .ofScope (← name) span
    | "instance" => return var .ofInstance (← name) span
    | "global" => return var .ofProgram (← name) span
    | "nested" => return nested (← (← j.get? "children").list? (read fuel)) span
    | "rest" => return rest (← j.part? "target" (read fuel)) span
    | "attr" =>
      return attr (← Expr.ofJson? (← j.get? "receiver")) (← (← j.get? "writer").str?) span
    | _ => none

/-- Some targets from JSON. -/
def listOfJson? (j : Json) : Option (List Target) := j.list? (read (j.depth + 1))

end Target
end Formals
