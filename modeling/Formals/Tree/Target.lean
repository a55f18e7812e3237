import Formals.Json.Record
import Formals.Span
import Formals.Tree.Expr

/-!
# Target nodes

The left-hand side of a multiple assignment as a front end hands it over. Nothing here is checked,
and what is no known node is kept as the document it was.
-/

namespace Formals

/-- The kinds of variables that can be assigned. -/
inductive VariableKind where
  | ofScope
  | ofInstance
  | ofProgram
  deriving DecidableEq, Repr, Inhabited

/-- A target as it is written. -/
inductive TargetNode where
  | var (kind : VariableKind) (name : String) (span : Span)
  /-- A list of targets in parentheses. -/
  | nested (children : List TargetNode) (span : Span)
  /-- `*target`, or `*` without a target. -/
  | splat (target : Option TargetNode) (span : Span)
  | attr (receiver : Expr) (writer : String) (span : Span)
  | malformed (raw : Json)
  deriving Inhabited

/-- Induction on targets: of a list in parentheses it is proved for what holds of its targets, and
of a splat for what holds of its target. -/
@[elab_as_elim, induction_eliminator]
theorem TargetNode.induction {motive : TargetNode → Prop}
    (var : ∀ kind name span, motive (var kind name span))
    (nested : ∀ children span, (∀ node ∈ children, motive node) → motive (nested children span))
    (splat : ∀ target span, (∀ node ∈ target, motive node) → motive (splat target span))
    (attr : ∀ receiver writer span, motive (attr receiver writer span))
    (malformed : ∀ raw, motive (malformed raw)) (node : TargetNode) : motive node :=
  @TargetNode.rec motive (fun children => ∀ node ∈ children, motive node)
    (fun target => ∀ node ∈ target, motive node) var nested splat attr malformed
    (List.forall_mem_nil _) (fun _ _ hnode hothers => List.forall_mem_cons.2 ⟨hnode, hothers⟩)
    nofun (fun _ hnode _ hmem => Option.mem_some.1 hmem ▸ hnode) node

/-- The targets of one assignment. -/
structure TargetList where
  nodes : List TargetNode := []
  span : Span := {}
  deriving Inhabited

end Formals
