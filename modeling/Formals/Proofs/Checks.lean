import Formals.Proofs.Grammar

/-!
# Which lists pass the check

`Grammatical` says of the nodes of a list, at whatever depth, what they have to be like, and
`params?` gives the parameters that they stand for, one for each node. A list passes the check
exactly if it is grammatical, and then its parameters are those (`check_ok_iff_grammatical`).

Checking threads a table of names through the tree. `Admits` says what a table asks of the
declarations that follow: the names of a tree are admitted by the empty table exactly if none is
declared twice, throwaway names apart.
-/

namespace Formals

/-! ## Nodes -/

/-- The part and the name that a marker stands for. -/
def markerReading (text : String) : Part × Option String :=
  match text.toList with
  | '*' :: '*' :: name => (.keywordRest, markerName name)
  | '*' :: name => (.rest, markerName name)
  | _ => (.positional, some text)

namespace ParamNode

/-- The part that a node plays on its level. -/
def part? : ParamNode → Option Part
  | marker text => some (markerReading text).1
  | required .. | group .. | attr .. => some .positional
  | optional .. => some .optional
  | rest .. => some .rest
  | keyword .. => some .keyword
  | keywordRest .. => some .keywordRest
  | malformed _ => none

/-- Whether a node takes from the keyword hash. -/
def IsKeyword (node : ParamNode) : Prop :=
  node.part? = some .keyword ∨ node.part? = some .keywordRest

/-- A node is in a list, or in a group at some depth of it. -/
inductive Occurs (node : ParamNode) : List ParamNode → Prop
  | here {nodes : List ParamNode} : node ∈ nodes → Occurs node nodes
  | inside {nodes children : List ParamNode} {span : Span} : group children span ∈ nodes →
    Occurs node children → Occurs node nodes

mutual
/-- The names that a node and the nodes in it declare, each with the span of its declaration.
Markers take the span of the list or group around them. -/
def declarations (parent : Span) : ParamNode → List (String × Span)
  | marker text => (markerReading text).2.toList.map (·, parent)
  | required name span | optional name _ span | keyword name _ span => [(name, span)]
  | rest name span | keywordRest name span => name.toList.map (·, span)
  | group children span => allDeclarations span children
  | attr .. | malformed _ => []

/-- The names that some nodes declare, in the order of their declaration. -/
def allDeclarations (parent : Span) : List ParamNode → List (String × Span)
  | [] => []
  | node :: others => node.declarations parent ++ allDeclarations parent others
end

/-- The names that the nodes of a list declare at any depth, in the order of their declaration. -/
def declaredNames (nodes : List ParamNode) : List String :=
  (allDeclarations {} nodes).map Prod.fst

/-- What the nodes of a list and the levels in it are like that passes the check. -/
structure Regular (nodes : List ParamNode) : Prop where
  known : ∀ raw, ¬ Occurs (malformed raw) nodes
  groupOrder : ∀ children span, Occurs (group children span) nodes →
    children.filterMap part? ∈ levelOrder
  groupNotEmpty : ∀ span, ¬ Occurs (group [] span) nodes
  groupKeywords : ∀ children span, Occurs (group children span) nodes →
    ∀ node, Occurs node children → ¬ node.IsKeyword
  writers : ∀ receiver writer span, Occurs (attr receiver writer span) nodes →
    writer.toList ∈ writerNames

/-- What a list is like that passes the check. -/
structure Grammatical (nodes : List ParamNode) : Prop extends Regular nodes where
  order : nodes.filterMap part? ∈ levelOrder
  names : ∀ name ∈ declaredNames nodes, name.toList ∈ localNames
  distinct : ((declaredNames nodes).filter (·.toList.head? ≠ some '_')).Nodup

/-- The parameter that a marker stands for. -/
def markerParam (text : String) (span : Span) : Param :=
  match text.toList with
  | '*' :: '*' :: name => .keywordRest (markerName name) span
  | '*' :: name => .rest (markerName name) span
  | _ => .required text span

mutual
/-- The parameter that a node stands for, unless it or a node in it is malformed. -/
def param? (parent : Span) : ParamNode → Option Param
  | marker text => some (markerParam text parent)
  | required name span => some (.required name span)
  | optional name default span => some (.optional name default span)
  | rest name span => some (.rest name span)
  | keyword name default span => some (.keyword name default span)
  | keywordRest name span => some (.keywordRest name span)
  | group children span => (params? span children).map (.group · span)
  | attr receiver writer span => some (.attr receiver writer span)
  | malformed _ => none

/-- The parameters that some nodes stand for. -/
def params? (parent : Span) : List ParamNode → Option (List Param)
  | [] => some []
  | node :: others => do return (← node.param? parent) :: (← params? parent others)
end

end ParamNode

/-! ## The table of names -/

namespace NameTable

variable {t : NameTable} {d : String × Span} {ds : List (String × Span)}

/-- The table with a declaration, unless its name is already declared. -/
def add (t : NameTable) (d : String × Span) : NameTable :=
  if t.contains d.1 then t else ⟨t.declared ++ [d]⟩

/-- Every declaration has a name of the right form, and what is declared again is a throwaway
name. -/
def Admits (t : NameTable) : List (String × Span) → Prop
  | [] => True
  | d :: ds => isLocalName d.1 = true ∧ (t.contains d.1 = true → isThrowawayName d.1 = true) ∧
    (t.add d).Admits ds

/-- Declarations are admitted one after the other, each of them with the names that are declared
before it. -/
theorem admits_append {as bs : List (String × Span)} :
    t.Admits (as ++ bs) ↔ t.Admits as ∧ (as.foldl add t).Admits bs := by
  induction as generalizing t with
  | nil => simp [Admits]
  | cons d as ih => rw [List.cons_append, Admits, Admits, ih, List.foldl_cons, and_assoc, and_assoc]

/-- A table contains a name that is declared. -/
theorem contains_iff {name : String} : t.contains name = true ↔ name ∈ t.names := by
  rw [contains, get?, Option.isSome_map, List.find?_isSome, names]
  simp

/-- A declaration adds its name to the table, which may contain it before. -/
theorem contains_add {name : String} :
    (t.add d).contains name = true ↔ t.contains name = true ∨ d.1 = name := by
  unfold add
  split
  · rename_i h
    exact ⟨.inl, fun h' => h'.elim id fun heq => heq ▸ h⟩
  · simp only [contains_iff, names, List.map_append, List.mem_append, List.map_cons, List.map_nil,
      List.mem_singleton]
    exact or_congr_right eq_comm

/-- A table admits declarations if their names have the right form, and none of them is in the table
or declared twice, throwaway names apart. -/
theorem admits_iff : t.Admits ds ↔ (∀ d ∈ ds, isLocalName d.1 = true) ∧
    ((ds.map Prod.fst).filter (!isThrowawayName ·)).Nodup ∧
      ∀ d ∈ ds, t.contains d.1 = true → isThrowawayName d.1 = true := by
  induction ds generalizing t with
  | nil => simp [Admits]
  | cons d ds ih =>
    rw [Admits, ih, List.forall_mem_cons, List.forall_mem_cons, List.map_cons, and_assoc]
    refine and_congr_right fun _ => ?_
    simp only [contains_add, or_imp, forall_and, List.filter_cons]
    cases hd : isThrowawayName d.1 with
    | true =>
      have hsame : ∀ e ∈ ds, d.1 = e.1 → isThrowawayName e.1 = true := fun e _ heq => heq ▸ hd
      simp only [implies_true, true_and, Bool.not_true, Bool.false_eq_true, if_false]
      tauto
    | false =>
      have hmem : d.1 ∉ (ds.map Prod.fst).filter (!isThrowawayName ·) ↔
          ∀ e ∈ ds, d.1 = e.1 → isThrowawayName e.1 = true := by
        simp only [List.mem_filter, List.mem_map, hd, Bool.not_false, and_true, not_exists, not_and]
        refine forall₂_congr fun e _ => ⟨fun h heq => (h heq.symm).elim, fun h heq => ?_⟩
        rw [← heq, h heq.symm] at hd
        cases hd
      simp only [Bool.not_false, if_true, List.nodup_cons, hmem]
      tauto

end NameTable

/-! ## Outcomes -/

namespace Checker

variable {β γ : Type} {t t' : NameTable}

/-- Two checks in a row succeed if the first one does and then the second one, with the table that
the first one leaves. -/
theorem bind_ok {x : Checker β} {f : β → Checker γ} {outcome : γ × NameTable} :
    (x >>= f) t = .ok outcome ↔ ∃ b t₁, x t = .ok (b, t₁) ∧ f b t₁ = .ok outcome := by
  simp only [Bind.bind, StateT.bind, Except.bind]
  cases x t with
  | error e => simp
  | ok result =>
    obtain ⟨b, t₁⟩ := result
    simp

/-- A check with nothing left to do succeeds and leaves the table. -/
theorem pure_ok {b c : β} : (pure b : Checker β) t = .ok (c, t') ↔ c = b ∧ t' = t := by
  change Except.ok (b, t) = Except.ok (c, t') ↔ _
  rw [Except.ok.injEq, Prod.mk.injEq]
  exact and_congr eq_comm eq_comm

/-- A check that looks at the table goes on with the table. -/
theorem get_ok {f : NameTable → Checker γ} {outcome : γ × NameTable} :
    (get >>= f) t = .ok outcome ↔ f t t = .ok outcome :=
  Iff.rfl

/-- What needs no table succeeds as it does by itself, and leaves the table. -/
theorem lift_ok {x : Except BindError β} {b : β} :
    (liftM x : Checker β) t = .ok (b, t') ↔ x = .ok b ∧ t' = t := by
  cases x with
  | error e => exact ⟨nofun, fun h => nomatch h.1⟩
  | ok c =>
    refine ⟨?_, ?_⟩
    · rintro ⟨⟩
      exact ⟨rfl, rfl⟩
    · rintro ⟨⟨⟩, rfl⟩
      rfl

/-- A check that may be refused succeeds if it is not refused and the rest succeeds. -/
theorem refuse_ok {c : Bool} {e : BindError} {f : PUnit → Checker β} {outcome : β × NameTable} :
    (if c = true then throw e >>= f else f ⟨⟩) t = .ok outcome ↔
      c = false ∧ f ⟨⟩ t = .ok outcome := by
  cases c with
  | true => exact ⟨nofun, fun h => nomatch h.1⟩
  | false => simp

end Checker

open Checker

section

variable {t t' : NameTable} {span : Span}

/-- A name can be declared that has the right form and, unless it is a throwaway name, is new. -/
theorem declareName_ok {name : String} {u : Unit} :
    declareName name span t = .ok (u, t') ↔
      t.Admits [(name, span)] ∧ t' = t.add (name, span) := by
  unfold declareName
  rw [refuse_ok, Bool.not_eq_false', NameTable.Admits, NameTable.Admits, and_true, and_assoc]
  beta_reduce
  rw [get_ok]
  refine and_congr_right fun _ => ?_
  rw [NameTable.declare, NameTable.add, NameTable.contains]
  cases t.get? name with
  | none =>
    constructor
    · intro h
      cases h
      refine ⟨fun hearlier => ?_, rfl⟩
      cases hearlier
    · rintro ⟨-, rfl⟩
      rfl
  | some earlier =>
    cases isThrowawayName name with
    | true => simp [pure_ok]
    | false =>
      constructor
      · intro h
        cases h
      · rintro ⟨hthrowaway, -⟩
        cases hthrowaway rfl

/-- A name that may be missing can be declared if it is missing or can be declared. -/
theorem declareName?_ok {name : Option String} {u : Unit} :
    declareName? name span t = .ok (u, t') ↔
      t.Admits (name.toList.map (·, span)) ∧ t' = (name.toList.map (·, span)).foldl .add t := by
  cases name with
  | none => simp [declareName?, pure_ok, NameTable.Admits]
  | some name => exact declareName_ok

/-- What follows the declaration of a name. -/
theorem declaring_ok {declares : Checker Unit} {ds : List (String × Span)} {p q : Param}
    (h : ∀ u t', declares t = .ok (u, t') ↔ t.Admits ds ∧ t' = ds.foldl .add t) :
    (do declares; return p) t = .ok (q, t') ↔ q = p ∧ t.Admits ds ∧ t' = ds.foldl .add t := by
  rw [bind_ok]
  constructor
  · rintro ⟨u, t₁, hd, hp⟩
    obtain ⟨rfl, rfl⟩ := pure_ok.1 hp
    exact ⟨rfl, (h u t').1 hd⟩
  · rintro ⟨rfl, hd⟩
    exact ⟨(), t', (h () t').2 hd, pure_ok.2 ⟨rfl, rfl⟩⟩

end

/-! ## The check of a tree -/

namespace ParamNode

mutual
/-- A node and those in it keep the rules other than that of the names, in a group or not. -/
def Fine (inGroup : Bool) : ParamNode → Prop
  | marker text => ¬ (inGroup = true ∧ (markerReading text).1 = .keywordRest)
  | required .. | optional .. | rest .. => True
  | keyword .. | keywordRest .. => inGroup = false
  | group children _ =>
    children ≠ [] ∧ children.filterMap part? ∈ levelOrder ∧ AllFine true children
  | attr _ writer _ => writer.toList ∈ writerNames
  | malformed _ => False

/-- Some nodes and those in them keep the rules other than that of the names. -/
def AllFine (inGroup : Bool) : List ParamNode → Prop
  | [] => True
  | node :: others => node.Fine inGroup ∧ AllFine inGroup others
end

/-- A parameter stands in the part of the list in which its node stands. -/
theorem part_of_param? {parent : Span} {node : ParamNode} {p : Param}
    (h : node.param? parent = some p) : node.part? = some p.part := by
  cases node with
  | marker text =>
    obtain rfl := Option.some.inj h
    simp only [part?, markerReading, markerParam]
    split <;> rfl
  | group children span =>
    obtain ⟨ps, -, rfl⟩ := Option.map_eq_some_iff.1 h
    rfl
  | malformed raw => cases h
  | _ =>
    obtain rfl := Option.some.inj h
    rfl

variable {t t' : NameTable} {parent : Span} {inGroup : Bool} {p : Param}

/-- Of a marker it is checked whether it is a keyword rest in a group, and then its name is declared
if it has one. -/
theorem checkMarker_eq (text : String) : checkMarker text parent inGroup =
    if inGroup = true ∧ (markerReading text).1 = .keywordRest then
      throw (.keywordInGroup text parent)
    else do
      declareName? (markerReading text).2 parent
      return markerParam text parent := by
  unfold checkMarker markerReading markerParam
  generalize text.toList = chars
  split <;> simp only <;> cases inGroup <;> rfl

/-- A marker passes if it is fine where it stands and the table admits its name. -/
theorem checkMarker_ok {text : String} : checkMarker text parent inGroup t = .ok (p, t') ↔
    p = markerParam text parent ∧ (marker text).Fine inGroup ∧
      t.Admits ((marker text).declarations parent) ∧
        t' = ((marker text).declarations parent).foldl .add t := by
  rw [checkMarker_eq, Fine, declarations]
  split
  · rename_i h
    exact ⟨nofun, fun h' => (h'.2.1 h).elim⟩
  · rename_i h
    rw [declaring_ok fun _ _ => declareName?_ok, and_iff_right h]

/-- A parameter is let pass if its part may come next. -/
theorem pass_ok {phase next : Phase} : phase.pass p = .ok next ↔ phase.next p.part = .ok next := by
  rw [Phase.pass]
  cases phase.next p.part <;> simp [Except.mapError]

mutual
/-- A node passes if it and those in it are fine and the table admits what they declare. -/
theorem check_ok (parent : Span) (inGroup : Bool) : ∀ (node : ParamNode) {t t' : NameTable}
    {p : Param}, node.check parent inGroup t = .ok (p, t') ↔
      node.param? parent = some p ∧ node.Fine inGroup ∧ t.Admits (node.declarations parent) ∧
        t' = (node.declarations parent).foldl .add t
  | marker text, t, t', p => by
    rw [check, checkMarker_ok, param?, Option.some_inj, eq_comm]
  | required name span, t, t', p => by
    rw [check, declaring_ok fun _ _ => declareName_ok, Fine, true_and, param?, Option.some_inj,
      eq_comm, declarations]
  | optional name default span, t, t', p => by
    rw [check, declaring_ok fun _ _ => declareName_ok, Fine, true_and, param?, Option.some_inj,
      eq_comm, declarations]
  | rest name span, t, t', p => by
    rw [check, declaring_ok fun _ _ => declareName?_ok, Fine, true_and, param?, Option.some_inj,
      eq_comm, declarations]
  | keyword name default span, t, t', p => by
    rw [check, refuse_ok, declaring_ok fun _ _ => declareName_ok, Fine, param?, Option.some_inj,
      eq_comm (a := p), declarations, and_left_comm]
  | keywordRest name span, t, t', p => by
    rw [check, refuse_ok, declaring_ok fun _ _ => declareName?_ok, Fine, param?, Option.some_inj,
      eq_comm (a := p), declarations, and_left_comm]
  | group children span, t, t', p => by
    rw [check, refuse_ok, bind_ok, Fine, declarations, param?, Option.map_eq_some_iff,
      ← Phase.accepts_iff, List.isEmpty_eq_false_iff]
    constructor
    · rintro ⟨hne, ps, t₁, hlevel, hp⟩
      obtain ⟨rfl, rfl⟩ := pure_ok.1 hp
      obtain ⟨hps, hfine, horder, hnames⟩ := (checkLevel_ok span true children).1 hlevel
      exact ⟨⟨ps, hps, rfl⟩, ⟨hne, horder, hfine⟩, hnames⟩
    · rintro ⟨⟨ps, hps, rfl⟩, ⟨hne, horder, hfine⟩, hnames⟩
      exact ⟨hne, ps, t', (checkLevel_ok span true children).2 ⟨hps, hfine, horder, hnames⟩,
        pure_ok.2 ⟨rfl, rfl⟩⟩
  | attr receiver writer span, t, t', p => by
    rw [check, bind_ok, Fine, ← isWriterName_iff, param?, Option.some_inj, declarations,
      NameTable.Admits, true_and, List.foldl_nil]
    constructor
    · rintro ⟨u, t₁, hw, hp⟩
      obtain ⟨rfl, rfl⟩ := pure_ok.1 hp
      obtain ⟨hw, rfl⟩ := lift_ok.1 hw
      refine ⟨rfl, ?_, rfl⟩
      by_contra hno
      rw [checkWriter, if_neg hno] at hw
      cases hw
    · rintro ⟨rfl, hw, rfl⟩
      exact ⟨(), t', lift_ok.2 ⟨if_pos hw, rfl⟩, pure_ok.2 ⟨rfl, rfl⟩⟩
  | malformed raw, t, t', p => by
    rw [check, Fine]
    exact ⟨nofun, fun h => h.2.1.elim⟩

/-- The nodes of a level pass that are fine, keep the order from the phase on and declare what the
table admits. -/
theorem checkLevel_ok (parent : Span) (inGroup : Bool) : ∀ (nodes : List ParamNode) {phase : Phase}
    {t t' : NameTable} {ps : List Param},
    checkLevel parent inGroup phase nodes t = .ok (ps, t') ↔
      params? parent nodes = some ps ∧ AllFine inGroup nodes ∧
        phase.Accepts (nodes.filterMap part?) ∧ t.Admits (allDeclarations parent nodes) ∧
          t' = (allDeclarations parent nodes).foldl .add t
  | [], phase, t, t', ps => by
    rw [checkLevel, pure_ok, params?, Option.some_inj, eq_comm]
    exact ⟨fun ⟨hps, ht⟩ => ⟨hps, trivial, trivial, trivial, ht⟩,
      fun ⟨hps, _, _, _, ht⟩ => ⟨hps, ht⟩⟩
  | node :: others, phase, t, t', ps => by
    rw [checkLevel, bind_ok]
    constructor
    · rintro ⟨p, t₁, hcheck, hrest⟩
      obtain ⟨hp, hfine, hnames, rfl⟩ := (check_ok parent inGroup node).1 hcheck
      obtain ⟨next, t₂, hlift, hrest⟩ := bind_ok.1 hrest
      obtain ⟨hpass, rfl⟩ := lift_ok.1 hlift
      obtain ⟨qs, t₃, hlevel, hpure⟩ := bind_ok.1 hrest
      obtain ⟨rfl, rfl⟩ := pure_ok.1 hpure
      obtain ⟨hqs, hfines, horder, hnames', rfl⟩ :=
        (checkLevel_ok parent inGroup others).1 hlevel
      rw [params?, hp, hqs, List.filterMap_cons_some (part_of_param? hp), allDeclarations]
      exact ⟨rfl, ⟨hfine, hfines⟩, ⟨next, pass_ok.1 hpass, horder⟩,
        NameTable.admits_append.2 ⟨hnames, hnames'⟩, List.foldl_append.symm⟩
    · rintro ⟨hps, ⟨hfine, hfines⟩, horder, hnames, rfl⟩
      obtain ⟨p, hp, hps⟩ := Option.bind_eq_some_iff.1 hps
      obtain ⟨qs, hqs, hps⟩ := Option.bind_eq_some_iff.1 hps
      obtain rfl := Option.some.inj hps
      rw [List.filterMap_cons_some (part_of_param? hp)] at horder
      obtain ⟨next, hpass, horder⟩ := horder
      obtain ⟨hnode, hothers⟩ := NameTable.admits_append.1 hnames
      refine ⟨p, _, (check_ok parent inGroup node).2 ⟨hp, hfine, hnode, rfl⟩, ?_⟩
      have hlevel := (checkLevel_ok parent inGroup others).2 ⟨hqs, hfines, horder, hothers, rfl⟩
      rw [← List.foldl_append] at hlevel
      refine bind_ok.2 ⟨next, _, lift_ok.2 ⟨pass_ok.2 hpass, rfl⟩, bind_ok.2 ⟨qs, _, hlevel, ?_⟩⟩
      exact pure_ok.2 ⟨rfl, rfl⟩
end

/-! ## Lists that pass -/

variable {node : ParamNode} {nodes children : List ParamNode}

/-- Nodes are fine if each of them is. -/
theorem allFine_iff : AllFine inGroup nodes ↔ ∀ node ∈ nodes, node.Fine inGroup := by
  induction nodes with
  | nil => simp [AllFine]
  | cons node nodes ih => rw [AllFine, ih, List.forall_mem_cons]

/-- What occurs among fine nodes is fine, and in a group it keeps the rules of groups. -/
theorem Occurs.fine (h : Occurs node nodes) : ∀ {inGroup : Bool}, AllFine inGroup nodes →
    ∃ g, (inGroup = true → g = true) ∧ node.Fine g := by
  induction h with
  | here hmem => exact fun hfine => ⟨_, id, allFine_iff.1 hfine _ hmem⟩
  | inside hmem _ ih =>
    intro inGroup hfine
    have hgroup := allFine_iff.1 hfine _ hmem
    rw [Fine] at hgroup
    obtain ⟨g, hg, hnode⟩ := ih hgroup.2.2
    exact ⟨g, fun _ => hg rfl, hnode⟩

/-- What is fine in a group is no keyword, whether it is written as a node or as a marker. -/
theorem Fine.not_isKeyword (h : node.Fine true) : ¬ node.IsKeyword := by
  cases node with
  | marker text =>
    rintro (hk | hk)
    · simp only [part?, markerReading] at hk
      split at hk <;> cases hk
    · exact h ⟨rfl, Option.some.inj hk⟩
  | keyword | keywordRest => cases h
  | _ => rintro (hk | hk) <;> cases hk

/-- Fine nodes are regular: each rule of the check is one of the grammar, at every depth. -/
theorem regular_of_allFine (h : AllFine inGroup nodes) : Regular nodes where
  known raw hraw := (hraw.fine h).elim fun _ hfine => hfine.2
  groupOrder children span hgroup := by
    obtain ⟨_, -, hfine⟩ := hgroup.fine h
    rw [Fine] at hfine
    exact hfine.2.1
  groupNotEmpty span hgroup := by
    obtain ⟨_, -, hfine⟩ := hgroup.fine h
    rw [Fine] at hfine
    exact hfine.1 rfl
  groupKeywords children span hgroup node hnode := by
    obtain ⟨_, -, hfine⟩ := hgroup.fine h
    rw [Fine] at hfine
    obtain ⟨g, hg, hfine⟩ := hnode.fine hfine.2.2
    exact (hg rfl ▸ hfine).not_isKeyword
  writers receiver writer span hattr := (hattr.fine h).elim fun _ hfine => hfine.2

/-- Nodes are regular if all that occurs in them occurs in regular ones. -/
theorem Regular.of_occurs (h : Regular nodes)
    (hsub : ∀ node, Occurs node children → Occurs node nodes) : Regular children where
  known raw hraw := h.known raw (hsub _ hraw)
  groupOrder _ span hgroup := h.groupOrder _ span (hsub _ hgroup)
  groupNotEmpty span hgroup := h.groupNotEmpty span (hsub _ hgroup)
  groupKeywords _ span hgroup := h.groupKeywords _ span (hsub _ hgroup)
  writers receiver _ span hattr := h.writers receiver _ span (hsub _ hattr)

/-- What occurs at some of the nodes occurs at the nodes. -/
theorem Occurs.of_subset (h : Occurs node children) (hsub : ∀ n ∈ children, n ∈ nodes) :
    Occurs node nodes := by
  cases h with
  | here hmem => exact .here (hsub _ hmem)
  | inside hmem hinside => exact .inside (hsub _ hmem) hinside

mutual
/-- A node is fine if what occurs at it is regular and, in a group, no keyword. -/
theorem Regular.fine : ∀ (node : ParamNode) {inGroup : Bool}, Regular [node] →
    (inGroup = true → ∀ n, Occurs n [node] → ¬ n.IsKeyword) → node.Fine inGroup
  | marker _, _, _, hk => fun h => hk h.1 _ (.here (.head _)) (.inr (congrArg some h.2))
  | required .., _, _, _ | optional .., _, _, _ | rest .., _, _, _ => trivial
  | keyword .., _, _, hk =>
    Bool.eq_false_iff.2 fun hg => hk hg _ (.here (.head _)) (.inl rfl)
  | keywordRest .., _, _, hk =>
    Bool.eq_false_iff.2 fun hg => hk hg _ (.here (.head _)) (.inr rfl)
  | group children span, _, h, _ => by
    have hgroup : Occurs (group children span) [group children span] := .here (.head _)
    rw [Fine]
    refine ⟨?_, h.groupOrder _ _ hgroup, Regular.allFine children ?_ ?_⟩
    · rintro rfl
      exact h.groupNotEmpty _ hgroup
    · exact h.of_occurs fun _ hn => .inside (.head _) hn
    · exact fun _ => h.groupKeywords _ _ hgroup
  | attr _ _ _, _, h, _ => h.writers _ _ _ (.here (.head _))
  | malformed _, _, h, _ => h.known _ (.here (.head _))

/-- Nodes are fine if what occurs among them is regular and, in a group, no keyword. -/
theorem Regular.allFine : ∀ (nodes : List ParamNode) {inGroup : Bool}, Regular nodes →
    (inGroup = true → ∀ n, Occurs n nodes → ¬ n.IsKeyword) → AllFine inGroup nodes
  | [], _, _, _ => trivial
  | node :: others, _, h, hk => by
    have hfirst : ∀ n, Occurs n [node] → Occurs n (node :: others) :=
      fun _ hn => hn.of_subset fun _ hm => List.mem_singleton.1 hm ▸ List.mem_cons_self
    have hothers : ∀ n, Occurs n others → Occurs n (node :: others) :=
      fun _ hn => hn.of_subset fun _ hm => List.mem_cons_of_mem _ hm
    exact ⟨Regular.fine node (h.of_occurs hfirst) fun hg n hn => hk hg n (hfirst n hn),
      Regular.allFine others (h.of_occurs hothers) fun hg n hn => hk hg n (hothers n hn)⟩
end

mutual
/-- A fine node stands for a parameter. -/
theorem Fine.exists_param (parent : Span) : ∀ (node : ParamNode) {inGroup : Bool},
    node.Fine inGroup → ∃ p, node.param? parent = some p
  | marker .., _, _ | required .., _, _ | optional .., _, _ | rest .., _, _ | keyword .., _, _
  | keywordRest .., _, _ | attr .., _, _ => ⟨_, rfl⟩
  | group children span, _, h => by
    rw [Fine] at h
    obtain ⟨ps, hps⟩ := AllFine.exists_params span children h.2.2
    exact ⟨.group ps span, by rw [param?, hps, Option.map_some]⟩

/-- Fine nodes stand for parameters. -/
theorem AllFine.exists_params (parent : Span) : ∀ (nodes : List ParamNode) {inGroup : Bool},
    AllFine inGroup nodes → ∃ ps, params? parent nodes = some ps
  | [], _, _ => ⟨[], rfl⟩
  | node :: others, _, h => by
    obtain ⟨p, hp⟩ := Fine.exists_param parent node h.1
    obtain ⟨ps, hps⟩ := AllFine.exists_params parent others h.2
    exact ⟨p :: ps, by rw [params?, hp, hps]; rfl⟩
end

/-- The names do not depend on the span of the list around them. -/
theorem allDeclarations_names (s s' : Span) (nodes : List ParamNode) :
    (allDeclarations s nodes).map Prod.fst = (allDeclarations s' nodes).map Prod.fst := by
  induction nodes with
  | nil => rfl
  | cons node nodes ih =>
    have hnode : (node.declarations s).map Prod.fst = (node.declarations s').map Prod.fst := by
      cases node <;> simp [declarations]
    rw [allDeclarations, allDeclarations, List.map_append, List.map_append, hnode, ih]

/-- The empty table admits names of the right form without repetition, throwaway names apart. -/
theorem admits_allDeclarations_iff {parent : Span} :
    NameTable.Admits {} (allDeclarations parent nodes) ↔
      (∀ name ∈ declaredNames nodes, name.toList ∈ localNames) ∧
        ((declaredNames nodes).filter (·.toList.head? ≠ some '_')).Nodup := by
  have hname : ∀ name : String, (!isThrowawayName name) = decide (name.toList.head? ≠ some '_') :=
    fun name => by simp [isThrowawayName]
  have hempty : ∀ d ∈ allDeclarations parent nodes,
      NameTable.contains {} d.1 = true → isThrowawayName d.1 = true := fun _ _ => nofun
  rw [NameTable.admits_iff, declaredNames, ← allDeclarations_names parent {}]
  simp only [hname, List.forall_mem_map, isLocalName_iff]
  exact and_congr_right fun _ => and_iff_left hempty

end ParamNode

open ParamNode

/-- A list passes if its nodes are fine, keep the order and declare names that can stand in one
table. -/
theorem ParamList.check?_eq_ok_iff {list : ParamList} {ps : List Param} :
    ParamList.check? (some list) = .ok ps ↔ params? list.span list.nodes = some ps ∧
      AllFine false list.nodes ∧ list.nodes.filterMap part? ∈ levelOrder ∧
        NameTable.Admits {} (allDeclarations list.span list.nodes) := by
  have hcheck : ParamList.check? (some list) = .ok ps ↔
      ∃ t, checkLevel list.span false .leading list.nodes {} = .ok (ps, t) := by
    rw [ParamList.check?, StateT.run']
    cases checkLevel list.span false .leading list.nodes {} with
    | error e =>
      constructor
      · intro h
        cases h
      · rintro ⟨t, h⟩
        cases h
    | ok outcome =>
      constructor
      · intro h
        cases h
        exact ⟨outcome.2, rfl⟩
      · rintro ⟨t, h⟩
        cases h
        rfl
  simp only [hcheck, checkLevel_ok, Phase.accepts_iff]
  constructor
  · rintro ⟨t, hps, hfine, horder, hnames, -⟩
    exact ⟨hps, hfine, horder, hnames⟩
  · rintro ⟨hps, hfine, horder, hnames⟩
    exact ⟨_, hps, hfine, horder, hnames, rfl⟩

/-- **The check accepts the grammar.** A list passes exactly if its nodes are grammatical, and then
it gives one parameter for each of them. -/
theorem ParamList.check_ok_iff_grammatical (list : ParamList) :
    ((∃ ps, ParamList.check? (some list) = .ok ps) ↔ Grammatical list.nodes) ∧
      ∀ ps, ParamList.check? (some list) = .ok ps → params? list.span list.nodes = some ps := by
  simp only [ParamList.check?_eq_ok_iff, admits_allDeclarations_iff]
  refine ⟨⟨?_, fun h => ?_⟩, fun ps h => h.1⟩
  · rintro ⟨ps, -, hfine, horder, hnames, hdistinct⟩
    exact ⟨regular_of_allFine hfine, horder, hnames, hdistinct⟩
  · have hfine : AllFine false list.nodes := Regular.allFine list.nodes h.toRegular nofun
    obtain ⟨ps, hps⟩ := AllFine.exists_params list.span list.nodes hfine
    exact ⟨ps, hps, hfine, h.order, h.names, h.distinct⟩

end Formals
