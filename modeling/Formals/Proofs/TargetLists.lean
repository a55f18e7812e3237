import Formals.Proofs.Compiling
import Formals.Proofs.Grammar
import Formals.Proofs.Targets

/-!
# Which target lists are compiled

`Fits` says of a target by itself what it has to be like, and `Regular` of a list that all targets
in it fit and that it has one splat at most. A list passes the check exactly if it is regular
(`TargetList.exists_check_iff`), and its nodes are then the checked targets written out again
(`Target.nodes`). Binding them fails only for an expression that has too many parts
(`oversized_of_bindTargets`), so that a regular list has code unless there is such an expression
in it (`target_lists_compiled`).
-/

namespace Formals

open scoped Computability

/-! ## Names -/

/-- `[A-Za-z_]` -/
def NameStart (c : Char) : Prop := ('A' ≤ c ∧ c ≤ 'Z') ∨ ('a' ≤ c ∧ c ≤ 'z') ∨ c = '_'

/-- A sign, and then `[A-Za-z_][A-Za-z0-9_]*`. -/
def signedNames (sign : Char) : Language Char :=
  oneOf (· = sign) * (oneOf NameStart * (oneOf NameChar)∗)

/-- The names that variables of a kind have. -/
def VariableKind.names : VariableKind → Language Char
  | ofScope => localNames
  | ofInstance => signedNames '@'
  | ofProgram => signedNames '$'

/-- The test of the first character of a name. -/
theorem isNameStart_iff {c : Char} : isNameStart c = true ↔ NameStart c := by
  change ((c.isUpper || c.isLower) || decide (c = '_')) = true ↔ _
  rw [Bool.or_eq_true, Bool.or_eq_true, isUpper_iff, isLower_iff, decide_eq_true_eq, NameStart,
    or_assoc]

/-- The words among the names with a sign. -/
theorem mem_signedNames {sign : Char} {word : List Char} : word ∈ signedNames sign ↔
    ∃ c rest, NameStart c ∧ (∀ d ∈ rest, NameChar d) ∧ word = sign :: c :: rest := by
  constructor
  · intro h
    obtain ⟨_, ⟨_, rfl, rfl⟩, _, hname, rfl⟩ := Language.mem_mul.1 h
    obtain ⟨_, ⟨c, hc, rfl⟩, rest, hrest, rfl⟩ := Language.mem_mul.1 hname
    exact ⟨c, rest, hc, mem_kstar_oneOf.1 hrest, rfl⟩
  · rintro ⟨c, rest, hc, hrest, rfl⟩
    exact Language.mem_mul.2 ⟨[sign], ⟨sign, rfl, rfl⟩, c :: rest,
      Language.mem_mul.2 ⟨[c], ⟨c, hc, rfl⟩, rest, mem_kstar_oneOf.2 hrest, rfl⟩, rfl⟩

/-- The test of the name of a variable with a sign. -/
theorem isSignedName_iff {sign : Char} {text : String} :
    isSignedName sign text = true ↔ text.toList ∈ signedNames sign := by
  rw [mem_signedNames]
  unfold isSignedName
  split
  · rename_i s c rest htext
    simp only [htext, Bool.and_eq_true, decide_eq_true_eq, isNameStart_iff, List.all_eq_true,
      isNameChar_iff]
    constructor
    · rintro ⟨⟨rfl, hc⟩, hrest⟩
      exact ⟨c, rest, hc, hrest, rfl⟩
    · rintro ⟨c, rest, hc, hrest, heq⟩
      cases heq
      exact ⟨⟨rfl, hc⟩, hrest⟩
  · rename_i hshort
    refine ⟨nofun, ?_⟩
    rintro ⟨c, rest, -, -, heq⟩
    exact (hshort _ _ _ heq).elim

/-- The test of the name of a variable. -/
theorem VariableKind.admits_iff {kind : VariableKind} {name : String} :
    kind.admits name = true ↔ name.toList ∈ kind.names := by
  cases kind with
  | ofScope => exact isLocalName_iff
  | ofInstance | ofProgram => exact isSignedName_iff

/-! ## Regular lists -/

namespace TargetNode

/-- The targets right below a target. -/
def children : TargetNode → List TargetNode
  | nested children _ => children
  | splat target _ => target.toList
  | var .. | attr .. | malformed _ => []

/-- A target is in a list, at whatever depth. -/
inductive Occurs (node : TargetNode) : List TargetNode → Prop
  | head {others : List TargetNode} : Occurs node (node :: others)
  | inside {outer : TargetNode} {others : List TargetNode} : Occurs node outer.children →
    Occurs node (outer :: others)
  | tail {outer : TargetNode} {others : List TargetNode} : Occurs node others →
    Occurs node (outer :: others)

/-- At most one target of a level is a splat. -/
def SplatsOnce (level : List TargetNode) : Prop := level.countP isSplat ≤ 1

/-- A splat may stand for a variable or an attribute. -/
def Splattable : TargetNode → Prop
  | var .. | attr .. => True
  | nested .. | splat .. | malformed _ => False

/-- What a target by itself is like that passes the check. -/
def Fits : TargetNode → Prop
  | var kind name _ => name.toList ∈ kind.names
  | nested level _ => level ≠ [] ∧ SplatsOnce level
  | splat target _ => ∀ inner ∈ target, inner.Splattable
  | attr _ writer _ => writer.toList ∈ writerNames
  | malformed _ => False

/-- What the targets of a list are like that passes the check. -/
structure Regular (nodes : List TargetNode) : Prop where
  splatsOnce : SplatsOnce nodes
  fits : ∀ node, Occurs node nodes → node.Fits

@[simp]
theorem not_occurs_nil {node : TargetNode} : ¬ Occurs node [] := nofun

/-- What occurs in a list is its first target, or occurs below that, or in the other targets. -/
theorem forall_occurs_cons {first : TargetNode} {others : List TargetNode}
    {P : TargetNode → Prop} : (∀ node, Occurs node (first :: others) → P node) ↔
      (P first ∧ ∀ node, Occurs node first.children → P node) ∧
        ∀ node, Occurs node others → P node := by
  constructor
  · exact fun h => ⟨⟨h _ .head, fun _ hn => h _ (.inside hn)⟩, fun _ hn => h _ (.tail hn)⟩
  · rintro ⟨⟨hfirst, hinside⟩, hothers⟩ node (_ | hn | hn)
    · exact hfirst
    · exact hinside node hn
    · exact hothers node hn

/-- What is or occurs below a target of a list occurs in the list. -/
theorem Occurs.of_mem {node outer : TargetNode} {nodes : List TargetNode}
    (h : Occurs node [outer]) (hmem : outer ∈ nodes) : Occurs node nodes := by
  induction nodes with
  | nil => cases hmem
  | cons first others ih =>
    rcases List.mem_cons.1 hmem with rfl | hmem
    · cases h with
      | head => exact .head
      | inside hn => exact .inside hn
      | tail hn => cases hn
    · exact .tail (ih hmem)

/-! ## Lists that pass the check -/

/-- A computation whose result is only wrapped ends well if it does without that. -/
theorem exists_ok_map_iff {ε α β : Type} {x : Except ε α} {f : α → β} :
    (∃ y, (do return f (← x)) = Except.ok y) ↔ ∃ a, x = .ok a := by
  cases x with
  | error e => exact iff_of_false nofun nofun
  | ok a => exact iff_of_true ⟨_, rfl⟩ ⟨_, rfl⟩

/-- A variable passes if it has a name of its kind. -/
theorem exists_checkVariable_iff {kind : VariableKind} {name : String} {span : Span} :
    (∃ x, checkVariable kind name span = .ok x) ↔ name.toList ∈ kind.names := by
  rw [← VariableKind.admits_iff, checkVariable]
  split <;> simp_all

/-- An attribute passes if it has the name of a writer. -/
theorem exists_checkAttribute_iff {receiver : Expr} {writer : String} {span : Span} :
    (∃ x, checkAttribute receiver writer span = .ok x) ↔ writer.toList ∈ writerNames := by
  rw [← isWriterName_iff]
  constructor
  · rintro ⟨x, hx⟩
    exact (checkAttribute_ok hx).2
  · intro hwriter
    rw [checkAttribute, checkWriter, if_pos hwriter]
    exact ⟨_, rfl⟩

/-- The target of a splat passes if it may be one and fits. -/
theorem exists_checkSplatTarget_iff {splat : Span} {node : TargetNode} :
    (∃ x, checkSplatTarget splat node = .ok x) ↔ node.Splattable ∧ node.Fits := by
  cases node with
  | var => exact exists_checkVariable_iff.trans (and_iff_right trivial).symm
  | attr => exact exists_checkAttribute_iff.trans (and_iff_right trivial).symm
  | nested | splat | malformed => exact iff_of_false nofun fun h => h.1

/-- There is nothing below a target that a splat may stand for. -/
theorem Splattable.children_eq {node : TargetNode} (h : node.Splattable) : node.children = [] := by
  cases node with
  | var | attr => rfl
  | nested | splat | malformed => exact h.elim

mutual
/-- A target passes the check if it and all targets below it fit. -/
theorem exists_check_iff (parent : Span) : ∀ node : TargetNode,
    (∃ x, node.check parent = .ok x) ↔ node.Fits ∧ ∀ n, Occurs n node.children → n.Fits
  | var .. => exists_checkVariable_iff.trans (and_iff_left nofun).symm
  | attr .. => exists_checkAttribute_iff.trans (and_iff_left nofun).symm
  | malformed _ => iff_of_false nofun fun h => h.1
  | splat none _ => iff_of_true ⟨_, rfl⟩ ⟨nofun, nofun⟩
  | splat (some target) span => by
    rw [check, exists_ok_map_iff, exists_checkSplatTarget_iff, children, Option.toList_some,
      forall_occurs_cons]
    constructor
    · rintro ⟨hsplat, hfits⟩
      refine ⟨fun _ ht => Option.some.inj ht ▸ hsplat, ⟨hfits, ?_⟩, nofun⟩
      rw [hsplat.children_eq]
      exact nofun
    · rintro ⟨hsplat, ⟨hfits, -⟩, -⟩
      exact ⟨hsplat target rfl, hfits⟩
  | nested [] span => iff_of_false nofun fun h => h.1.1 rfl
  | nested (first :: others) span => by
    have hlevel := exists_checkLevel_iff span false (first :: others)
    refine (exists_ok_map_iff.trans hlevel).trans ?_
    exact and_congr_left fun _ => (and_iff_right (List.cons_ne_nil _ _)).symm

/-- The targets of a level pass the check if all targets among them fit, and there is no splat but
one. -/
theorem exists_checkLevel_iff (parent : Span) (seen : Bool) : ∀ nodes : List TargetNode,
    (∃ ts, checkLevel parent seen nodes = .ok ts) ↔
      nodes.countP isSplat + seen.toNat ≤ 1 ∧ ∀ n, Occurs n nodes → n.Fits
  | [] => iff_of_true ⟨[], rfl⟩ ⟨by simpa using seen.toNat_le, nofun⟩
  | node :: others => by
    have hnode := exists_check_iff parent node
    have hothers := exists_checkLevel_iff parent (seen || node.isSplat) others
    have hcount : (node :: others).countP isSplat + seen.toNat ≤ 1 ↔
        (node.isSplat = true → seen = false) ∧
          others.countP isSplat + (seen || node.isSplat).toNat ≤ 1 := by
      rw [List.countP_cons]
      cases seen <;> cases node.isSplat <;> simp
    rw [forall_occurs_cons, ← hnode, hcount]
    constructor
    · rintro ⟨ts, h⟩
      obtain ⟨honce, x, xs, hx, hxs, -⟩ := checkLevel_cons_ok_iff.1 h
      obtain ⟨hsplats, hfits⟩ := hothers.1 ⟨xs, hxs⟩
      exact ⟨⟨honce, hsplats⟩, ⟨x, hx⟩, hfits⟩
    · rintro ⟨⟨honce, hsplats⟩, ⟨x, hx⟩, hfits⟩
      obtain ⟨xs, hxs⟩ := hothers.2 ⟨hsplats, hfits⟩
      exact ⟨_, checkLevel_cons_ok_iff.2 ⟨honce, x, xs, hx, hxs, rfl⟩⟩
end

end TargetNode

open TargetNode

/-- A list passes the check exactly if it is regular. -/
theorem TargetList.exists_check_iff {list : TargetList} :
    (∃ ts, list.check = .ok ts) ↔ Regular list.nodes :=
  (exists_checkLevel_iff list.span false list.nodes).trans
    ⟨fun h => ⟨h.1, h.2⟩, fun h => ⟨h.splatsOnce, h.fits⟩⟩

/-! ## Checked targets as nodes -/

namespace Target

mutual
/-- The node that a checked target is written as. -/
def node : Target → TargetNode
  | var kind name span => .var kind name span
  | nested level span => .nested (nodes level) span
  | rest none span => .splat none span
  | rest (some target) span => .splat (some target.node) span
  | attr receiver writer span => .attr receiver writer span

/-- The nodes that checked targets are written as. -/
def nodes : List Target → List TargetNode
  | [] => []
  | x :: xs => x.node :: nodes xs
end

/-- Targets are written as nodes one by one. -/
theorem nodes_eq (ts : List Target) : nodes ts = ts.map node := by
  induction ts with
  | nil => rfl
  | cons x xs ih => rw [nodes, ih, List.map_cons]

end Target

/-- The target of a splat is written as the node that was checked. -/
theorem TargetNode.node_of_checkSplatTarget {splat : Span} {node : TargetNode} {x : Target}
    (h : checkSplatTarget splat node = .ok x) : x.node = node := by
  cases node with
  | var => rw [checkVariable_ok h, Target.node]
  | attr => rw [(checkAttribute_ok h).1, Target.node]
  | nested | splat | malformed => cases h

mutual
/-- A target that passes the check is written as the node that was checked. -/
theorem TargetNode.node_of_check {parent : Span} : ∀ {node : TargetNode} {x : Target},
    node.check parent = .ok x → x.node = node
  | .var .., x, h => by rw [checkVariable_ok h, Target.node]
  | .attr .., x, h => by rw [(checkAttribute_ok h).1, Target.node]
  | .splat none _, x, h => by
    cases h
    rfl
  | .splat (some target) _, x, h => by
    obtain ⟨y, hy, h⟩ := ok_of_bind h
    cases h
    rw [Target.node, TargetNode.node_of_checkSplatTarget hy]
  | .nested (first :: others) span, x, h => by
    obtain ⟨ts, hts, h⟩ := ok_of_bind h
    cases h
    rw [Target.node, TargetNode.nodes_of_checkLevel hts]

/-- The targets of a level that passes the check are written as the nodes that were checked. -/
theorem TargetNode.nodes_of_checkLevel {parent : Span} : ∀ {nodes : List TargetNode} {seen : Bool}
    {ts : List Target}, checkLevel parent seen nodes = .ok ts → Target.nodes ts = nodes
  | [], _, _, h => by
    cases h
    rfl
  | node :: others, seen, ts, h => by
    obtain ⟨-, x, xs, hx, hxs, rfl⟩ := checkLevel_cons_ok_iff.1 h
    rw [Target.nodes, TargetNode.node_of_check hx, TargetNode.nodes_of_checkLevel hxs]
end

/-! ## Targets that have no code -/

namespace TargetNode

/-- The expression that a target evaluates. -/
def expr? : TargetNode → Option Expr
  | attr receiver .. => some receiver
  | var .. | nested .. | splat .. | malformed _ => none

/-- The expressions in a list are small. -/
def Small (nodes : List TargetNode) : Prop :=
  ∀ node, Occurs node nodes → ∀ e ∈ node.expr?, e.Small

/-- A list is refused for an expression that has too many parts, and there is such an expression
in it. -/
structure Oversized (nodes : List TargetNode) (e : BindError) : Prop where
  cause : ∃ span, e = .malformed .tooManyElements span
  notSmall : ¬ Small nodes

variable {nodes others : List TargetNode} {e : BindError}

/-- A list that has another one in it is refused for the large expressions of that one. -/
theorem Oversized.of_occurs (h : Oversized others e)
    (hsub : ∀ node, Occurs node others → Occurs node nodes) : Oversized nodes e where
  cause := h.cause
  notSmall hsmall := h.notSmall fun node hnode => hsmall node (hsub node hnode)

/-- An attribute that has no code. -/
theorem oversized_of_writeAttribute {receiver : Expr} {writer : String} {span : Span}
    (h : writeAttribute receiver writer span = .error e) :
    Oversized [.attr receiver writer span] e := by
  have hlower : receiver.lower span = .error e := error_of_bind_pure h
  refine ⟨⟨span, Expr.lower_error hlower⟩, fun hsmall => ?_⟩
  obtain ⟨code, hcode⟩ := Expr.lower_ok span receiver (hsmall _ .head receiver rfl)
  cases hcode.symm.trans hlower

end TargetNode

namespace Target

variable {ts : List Target} {e : BindError}

/-- A level of targets fails only where one of them does. -/
theorem oversized_of_levelCode
    (hx : ∀ x ∈ ts, ∀ s, x.piece.code s = .error e → Oversized (nodes ts) e)
    (h : levelCode (pieces ts) = .error e) : Oversized (nodes ts) e := by
  have hfree : ¬ Plan.Locked part ts := Plan.not_locked (fun x => x.part_ne.1) ts
  rw [pieces_eq] at h
  obtain ⟨x, hmem, s, h⟩ := levelCode_map_error piece_part hfree h
  exact hx x hmem s h

/-- What is too large in one of some targets is too large in them. -/
theorem oversized_of_mem {x : Target} (hx : x ∈ ts) (h : Oversized [x.node] e) :
    Oversized (nodes ts) e :=
  h.of_occurs fun _ hn => hn.of_mem (nodes_eq ts ▸ List.mem_map_of_mem hx)

/-- A checked target fails only for an expression in it that has too many parts. -/
theorem oversized_of_piece {x : Target} {s : LevelState} (hchecked : x.Checked)
    (h : x.piece.code s = .error e) : Oversized [x.node] e := by
  induction x generalizing s with
  | var => cases h
  | attr receiver writer span => exact oversized_of_writeAttribute (error_of_bind_pure h)
  | nested level span ih =>
    have hall := allChecked_iff.1 hchecked.2
    have hlevel := oversized_of_levelCode
      (fun x hx s h => oversized_of_mem hx (ih x hx (hall x hx) h)) (error_of_bind_pure h)
    exact hlevel.of_occurs fun _ hn => .inside hn
  | rest target span =>
    cases target with
    | none => cases h
    | some target =>
      cases target with
      | var => cases h
      | attr receiver writer span =>
        exact (oversized_of_writeAttribute (error_of_bind_pure h)).of_occurs
          fun _ hn => .inside hn
      | nested | rest => exact (hchecked _ rfl).elim

end Target

/-- Targets that have passed the check are bound unless an expression in them has too many parts. -/
theorem oversized_of_bindTargets {list : TargetList} {ts : List Target} {e : BindError}
    (hts : list.check = .ok ts) (h : bindTargets ts = .error e) : Oversized list.nodes e := by
  have hchecked : Target.AllChecked ts := (TargetList.check_checked hts).2
  rw [← TargetNode.nodes_of_checkLevel hts]
  exact Target.oversized_of_levelCode (fun x hx s h => Target.oversized_of_mem hx
    (Target.oversized_of_piece (Target.allChecked_iff.1 hchecked x hx) h)) h

/-- **Target lists.** A list in which no expression has too many parts is compiled exactly if it is
regular. What binding gets from any list that passes the check are its nodes one by one, and among
them there is no splat with a target that cannot be assigned. -/
theorem target_lists_compiled (list : TargetList) :
    (TargetNode.Small list.nodes → ((∃ code, list.compile = .ok code) ↔ Regular list.nodes)) ∧
      ∀ ts, list.check = .ok ts → Target.nodes ts = list.nodes ∧
        ∀ span, bindTargets ts ≠ .error (.malformed .splatTarget span) := by
  constructor
  · intro hsmall
    rw [← TargetList.exists_check_iff]
    constructor
    · rintro ⟨code, h⟩
      obtain ⟨ts, hts, -⟩ := ok_of_bind h
      exact ⟨ts, hts⟩
    · rintro ⟨ts, hts⟩
      have hbind : list.compile = bindTargets ts := by
        rw [TargetList.compile, hts]
        rfl
      cases h : bindTargets ts with
      | ok code => exact ⟨code, hbind.trans h⟩
      | error e => exact ((oversized_of_bindTargets hts h).notSmall hsmall).elim
  · intro ts hts
    refine ⟨TargetNode.nodes_of_checkLevel hts, fun span h => ?_⟩
    obtain ⟨span', hcause⟩ := (oversized_of_bindTargets hts h).cause
    cases hcause

/-- A list with a group in which a splat stands for an attribute of what a call gives. -/
theorem nested_targets_compiled :
    TargetNode.Small [.var .ofScope "a" {}, .splat none {},
      .nested [.var .ofProgram "$B" {},
        .splat (some (.attr (.call none "o" [.nil]) "c=" {})) {}] {}] ∧
    ∃ code, TargetList.compile ⟨[.var .ofScope "a" {}, .splat none {},
      .nested [.var .ofProgram "$B" {},
        .splat (some (.attr (.call none "o" [.nil]) "c=" {})) {}] {}], {}⟩ = .ok code := by
  have hcall : (Expr.call none "o" [.nil]).Small := by
    refine Expr.small_iff.2 ⟨by decide, fun part hpart => ?_⟩
    rw [List.mem_singleton.1 hpart]
    exact Expr.small_iff.2 ⟨by decide, nofun⟩
  have hsmall : TargetNode.Small [.var .ofScope "a" {}, .splat none {},
      .nested [.var .ofProgram "$B" {},
        .splat (some (.attr (.call none "o" [.nil]) "c=" {})) {}] {}] := by
    simp [TargetNode.Small, forall_occurs_cons, TargetNode.children, TargetNode.expr?, hcall]
  exact ⟨hsmall, ((target_lists_compiled ⟨_, {}⟩).1 hsmall).2
    (TargetList.exists_check_iff.1 ⟨_, rfl⟩)⟩

end Formals
