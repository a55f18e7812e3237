import Formals.Binding.Plan
import Formals.Span
import Formals.Tree.Expr
import Formals.Tree.Target

/-!
# Checked parameters and targets

`Param` and `Target` are parameters and targets whose form has been checked: without markers and
malformed nodes. They are what is bound. What is proved of a group may use that it holds of what is
in it (`Param.induction`, `Target.induction`).
-/

namespace Formals

/-- A parameter. -/
inductive Param where
  | required (name : String) (span : Span)
  | optional (name : String) (default : Expr) (span : Span)
  /-- `*name`, or `*` without a name. -/
  | rest (name : Option String) (span : Span)
  | keyword (name : String) (default : Option Expr) (span : Span)
  /-- `**name`, or `**` without a name. -/
  | keywordRest (name : Option String) (span : Span)
  | group (children : List Param) (span : Span)
  | attr (receiver : Expr) (writer : String) (span : Span)
  deriving Inhabited

namespace Param

/-- The span of a parameter. -/
def span : Param → Span
  | required _ span | optional _ _ span | rest _ span | keyword _ _ span | keywordRest _ span
  | group _ span | attr _ _ span => span

/-- The part that a parameter plays on its level. -/
def part : Param → Part
  | required .. | group .. | attr .. => .positional
  | optional .. => .optional
  | rest .. => .rest
  | keyword .. => .keyword
  | keywordRest .. => .keywordRest

/-- Whether a parameter has to take a value from the sequence. -/
def isRequiredPositional (p : Param) : Bool := p.part = .positional

/-- Whether a parameter takes its value from the keyword hash. -/
def isKeyword (p : Param) : Bool := p.part = .keyword || p.part = .keywordRest

/-- Induction on parameters: of a group it is proved for what holds of its children. -/
@[elab_as_elim, induction_eliminator]
theorem induction {motive : Param → Prop}
    (required : ∀ name span, motive (required name span))
    (optional : ∀ name default span, motive (optional name default span))
    (rest : ∀ name span, motive (rest name span))
    (keyword : ∀ name default span, motive (keyword name default span))
    (keywordRest : ∀ name span, motive (keywordRest name span))
    (group : ∀ children span, (∀ p ∈ children, motive p) → motive (group children span))
    (attr : ∀ receiver writer span, motive (attr receiver writer span)) (p : Param) : motive p :=
  @Param.rec motive (fun children => ∀ p ∈ children, motive p) required optional rest keyword
    keywordRest group attr (List.forall_mem_nil _)
    (fun _ _ hp hchildren => List.forall_mem_cons.2 ⟨hp, hchildren⟩) p

end Param

/-- A target of a multiple assignment. -/
inductive Target where
  | var (kind : VariableKind) (name : String) (span : Span)
  | nested (children : List Target) (span : Span)
  /-- `*target`, or `*` without a target. -/
  | rest (target : Option Target) (span : Span)
  | attr (receiver : Expr) (writer : String) (span : Span)
  deriving Inhabited

namespace Target

/-- The span of a target. -/
def span : Target → Span
  | var _ _ span | nested _ span | rest _ span | attr _ _ span => span

/-- Induction on targets: of a nested level it is proved for what holds of its targets. -/
@[elab_as_elim, induction_eliminator]
theorem induction {motive : Target → Prop}
    (var : ∀ kind name span, motive (var kind name span))
    (nested : ∀ children span, (∀ t ∈ children, motive t) → motive (nested children span))
    (rest : ∀ target span, (∀ t ∈ target, motive t) → motive (rest target span))
    (attr : ∀ receiver writer span, motive (attr receiver writer span)) (t : Target) : motive t :=
  @Target.rec motive (fun children => ∀ t ∈ children, motive t)
    (fun target => ∀ t ∈ target, motive t)
    var nested rest attr (List.forall_mem_nil _)
    (fun _ _ ht hchildren => List.forall_mem_cons.2 ⟨ht, hchildren⟩)
    nofun (fun _ ht _ hmem => Option.mem_some.1 hmem ▸ ht) t

end Target
end Formals
