import Formals.Json.Value
import Formals.Span
import Formals.Tree.Expr

/-!
# Parameter nodes

The parameters of a method, a block or a `for` loop as a front end hands them over. Nothing here is
checked. A simple parameter may be a marker such as `"a"`, `"*rest"` or `"**opts"`; a node that is
neither a marker nor a known node is kept as the document it was.
-/

namespace Formals

/-- A parameter as it is declared. -/
inductive ParamNode where
  | marker (text : String)
  | required (name : String) (span : Span)
  | optional (name : String) (default : Expr) (span : Span)
  /-- `*name`, or `*` without a name. -/
  | rest (name : Option String) (span : Span)
  | keyword (name : String) (default : Option Expr) (span : Span)
  /-- `**name`, or `**` without a name. -/
  | keywordRest (name : Option String) (span : Span)
  /-- A group in parentheses that takes an argument apart. -/
  | group (children : List ParamNode) (span : Span)
  /-- `obj.attr` in a `for` loop: the value is written through the method `writer`. -/
  | attr (receiver : Expr) (writer : String) (span : Span)
  | malformed (raw : Json)
  deriving Inhabited

/-- Induction on parameters: of a group it is proved for what holds of its children. -/
@[elab_as_elim, induction_eliminator]
theorem ParamNode.induction {motive : ParamNode → Prop} (marker : ∀ text, motive (marker text))
    (required : ∀ name span, motive (required name span))
    (optional : ∀ name default span, motive (optional name default span))
    (rest : ∀ name span, motive (rest name span))
    (keyword : ∀ name default span, motive (keyword name default span))
    (keywordRest : ∀ name span, motive (keywordRest name span))
    (group : ∀ children span, (∀ node ∈ children, motive node) → motive (group children span))
    (attr : ∀ receiver writer span, motive (attr receiver writer span))
    (malformed : ∀ raw, motive (malformed raw)) (node : ParamNode) : motive node :=
  @ParamNode.rec motive (fun children => ∀ node ∈ children, motive node) marker required
    optional rest
    keyword keywordRest group attr malformed (List.forall_mem_nil _)
    (fun _ _ hnode hothers => List.forall_mem_cons.2 ⟨hnode, hothers⟩) node

/-- The parameters between one pair of parentheses. -/
structure ParamList where
  nodes : List ParamNode := []
  span : Span := {}
  deriving Inhabited

end Formals
