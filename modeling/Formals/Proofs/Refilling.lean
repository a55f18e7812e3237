import Formals.Proofs.BareCalls
import Formals.Proofs.Checks
import Formals.Proofs.DefaultOrder

/-!
# Other defaults

Whether the defaults of a list are reached in order does not depend on what the defaults are, and
neither does whether the list passes the check. So a list whose defaults can be reached out of order
can be given defaults with which some call fails, and no other list can
(`defaults_defined_iff_inOrder`).
-/

namespace Formals

open Machine

/-! ## Refilling -/

namespace Param

mutual
/-- A parameter with other defaults, each of which is given from the names that are declared before
its parameter and the name of that. -/
def refill (f : List String → String → Expr) (earlier : List String) : Param → Param
  | optional name _ span => optional name (f earlier name) span
  | keyword name (some _) span => keyword name (some (f earlier name)) span
  | group children span => group (refillAll f earlier children) span
  | p => p

/-- Some parameters with other defaults. -/
def refillAll (f : List String → String → Expr) (earlier : List String) : List Param → List Param
  | [] => []
  | p :: ps => p.refill f earlier :: refillAll f (earlier ++ p.names) ps
end

variable {f g : List String → String → Expr}

/-- Other defaults leave a parameter in the part of the list that it stands in, and so in its place
in the plan. -/
theorem part_refill (p : Param) (earlier : List String) : (p.refill f earlier).part = p.part := by
  cases p with
  | keyword name default span => cases default <;> rfl
  | _ => rfl

mutual
/-- Other defaults leave the names that a parameter declares. -/
theorem names_refill : ∀ (p : Param) (earlier : List String), (p.refill f earlier).names = p.names
  | required .., _ | optional .., _ | rest .., _ | keyword _ none _, _ | keyword _ (some _) _, _
  | keywordRest .., _ | attr .., _ => rfl
  | group children span, earlier => by
    rw [refill, names, names]
    exact names_refillAll children earlier

/-- Other defaults leave the names that some parameters declare, so that each parameter finds the
same names before it. -/
theorem names_refillAll : ∀ (ps : List Param) (earlier : List String),
    allNames (refillAll f earlier ps) = allNames ps
  | [], _ => rfl
  | p :: ps, earlier => by
    rw [refillAll, allNames, allNames, names_refill p, names_refillAll ps]
end

mutual
/-- Only the last defaults count. -/
theorem refill_refill : ∀ (p : Param) (earlier : List String),
    (p.refill f earlier).refill g earlier = p.refill g earlier
  | required .., _ | optional .., _ | rest .., _ | keyword _ none _, _ | keyword _ (some _) _, _
  | keywordRest .., _ | attr .., _ => rfl
  | group children span, earlier => by
    rw [refill, refill, refill, refillAll_refillAll children earlier]

/-- Only the last defaults of some parameters count. -/
theorem refillAll_refillAll : ∀ (ps : List Param) (earlier : List String),
    refillAll g earlier (refillAll f earlier ps) = refillAll g earlier ps
  | [], _ => rfl
  | p :: ps, earlier => by
    rw [refillAll, refillAll, refillAll, names_refill, refill_refill p, refillAll_refillAll ps]
end

end Param

/-- The slot of a parameter with another default. -/
def Slot.refill (f : List String → String → Expr) (x : Slot) : Slot :=
  ⟨x.param.refill f x.earlier, x.earlier⟩

namespace Param

variable {f g : List String → String → Expr}

mutual
/-- The slots of a parameter with other defaults. -/
theorem slots_refill : ∀ (p : Param) (earlier : List String),
    (p.refill f earlier).slots earlier = (p.slots earlier).map (Slot.refill f)
  | required .., _ | optional .., _ | rest .., _ | keyword _ none _, _ | keyword _ (some _) _, _
  | keywordRest .., _ | attr .., _ => rfl
  | group children span, earlier => by
    rw [refill, slots, slots, slotItems_refillAll children earlier, Slot.inOrder, Slot.inOrder,
      Plan.ofList_map]
    show List.flatMap _ (List.map _ _) = _
    rw [List.flatMap_map, List.map_flatMap]
    rfl

/-- The items of which the plan of a level is made have other defaults in their slots and are else
the same. -/
theorem slotItems_refillAll : ∀ (ps : List Param) (earlier : List String),
    slotItems earlier (refillAll f earlier ps) =
      (slotItems earlier ps).map fun item => (item.1, item.2.map (Slot.refill f))
  | [], _ => rfl
  | p :: ps, earlier => by
    rw [refillAll, slotItems, slotItems, List.map_cons, names_refill, part_refill, slots_refill p,
      slotItems_refillAll ps]
end

/-- The slots of a level with other defaults. -/
theorem levelSlots_refillAll (ps : List Param) (earlier : List String) :
    levelSlots earlier (refillAll f earlier ps) =
      (levelSlots earlier ps).map (Slot.refill f) := by
  rw [levelSlots, levelSlots, slotItems_refillAll, Slot.inOrder, Slot.inOrder, Plan.ofList_map]
  show List.flatMap _ (List.map _ _) = _
  rw [List.flatMap_map, List.map_flatMap]
  rfl

end Param

namespace Slot

variable {f : List String → String → Expr}

/-- The names that are bound in some slots do not depend on the defaults. -/
theorem names_refill (slots : List Slot) : names (slots.map (refill f)) = names slots := by
  rw [names, names, Param.allNames_eq, Param.allNames_eq, List.map_map, List.flatMap_map,
    List.flatMap_map]
  exact List.flatMap_congr fun x _ => Param.names_refill x.param x.earlier

/-- A parameter has a default if it has one after refilling. -/
theorem default?_refill (x : Slot) : (x.refill f).param.default? =
    x.param.default?.map fun _ => f x.earlier (x.param.names.headD "") := by
  obtain ⟨p, earlier⟩ := x
  cases p with
  | keyword name default span => cases default <;> rfl
  | _ => rfl

/-- Slots can be passed with other defaults if they can be passed with these: what a call has to
bring is said by the parameters without a default. -/
theorem passable_refill {taken : List Key} {slots : List Slot} :
    Passable taken (slots.map (refill f)) ↔ Passable taken slots := by
  induction slots generalizing taken with
  | nil => exact Iff.rfl
  | cons x slots ih =>
    obtain ⟨p, earlier⟩ := x
    rw [List.map_cons, Passable, Passable, ih]
    cases p with
    | keyword name default span =>
      cases default with
      | none => exact Iff.rfl
      | some default =>
        refine and_congr ⟨fun _ name' span' h => ?_, fun _ name' span' h => ?_⟩ Iff.rfl
        · cases h
        · cases h
    | _ =>
      refine and_congr ⟨fun _ name' span' h => ?_, fun _ name' span' h => ?_⟩ Iff.rfl
      · cases h
      · cases h

end Slot

/-- The order of the defaults does not depend on what the defaults are. -/
theorem Param.inOrder_refillAll {f : List String → String → Expr} {ps : List Param} :
    InOrder (refillAll f [] ps) ↔ InOrder ps := by
  constructor
  · intro h pre x post d hslots hpass hd n hn hown
    have hin := h (pre.map (Slot.refill f)) (x.refill f) (post.map (Slot.refill f))
      (f x.earlier (x.param.names.headD "")) (by rw [levelSlots_refillAll, hslots]; simp)
      (Slot.passable_refill.2 hpass) (by rw [Slot.default?_refill, hd]; rfl) n hn
      (fun hmem => hown (names_refill x.param x.earlier ▸ hmem))
    rwa [Slot.names_refill] at hin
  · intro h pre x post d hslots hpass hd n hn hown
    rw [levelSlots_refillAll] at hslots
    obtain ⟨pre, rest, hsplit, rfl, hrest⟩ := List.map_eq_append_iff.1 hslots
    obtain ⟨x, post, rfl, rfl, rfl⟩ := List.map_eq_cons_iff.1 hrest
    rw [Slot.default?_refill, Option.map_eq_some_iff] at hd
    obtain ⟨d, hd, -⟩ := hd
    rw [Slot.names_refill]
    exact h pre x post d hsplit (Slot.passable_refill.1 hpass) hd n hn
      fun hmem => hown ((names_refill x.param x.earlier).symm ▸ hmem)

namespace Param

variable {f : List String → String → Expr}

mutual
/-- A parameter writes no attribute with other defaults if it writes none. -/
theorem noAttr_refill : ∀ (p : Param) (earlier : List String),
    (p.refill f earlier).NoAttr ↔ p.NoAttr
  | required .., _ | optional .., _ | rest .., _ | keyword _ none _, _ | keyword _ (some _) _, _
  | keywordRest .., _ | attr .., _ => Iff.rfl
  | group children span, earlier => by
    rw [refill, NoAttr, NoAttr, allNoAttr_refillAll children earlier]

/-- Some parameters write no attribute with other defaults if they write none. -/
theorem allNoAttr_refillAll : ∀ (ps : List Param) (earlier : List String),
    AllNoAttr (refillAll f earlier ps) ↔ AllNoAttr ps
  | [], _ => Iff.rfl
  | p :: ps, earlier => by
    rw [refillAll, AllNoAttr, AllNoAttr, noAttr_refill p, allNoAttr_refillAll ps]
end

mutual
/-- Parameters without attributes are simple with simple defaults. -/
theorem simple_refill (hf : ∀ earlier name, (f earlier name).Simple) : ∀ (p : Param)
    (earlier : List String), p.NoAttr → (p.refill f earlier).Simple
  | required .., _, _ | rest .., _, _ | keyword _ none _, _, _ | keywordRest .., _, _ => trivial
  | optional .., _, _ | keyword _ (some _) _, _, _ => hf _ _
  | group children _, earlier, h => allSimple_refillAll hf children earlier h

/-- Some parameters without attributes are simple with simple defaults. -/
theorem allSimple_refillAll (hf : ∀ earlier name, (f earlier name).Simple) : ∀ (ps : List Param)
    (earlier : List String), AllNoAttr ps → AllSimple (refillAll f earlier ps)
  | [], _, _ => trivial
  | p :: ps, earlier, h => ⟨simple_refill hf p earlier h.1, allSimple_refillAll hf ps _ h.2⟩
end

mutual
/-- Parameters without attributes have code with defaults that have. -/
theorem lowers_refill (hf : ∀ earlier name span, ∃ code,
    defaultCode name (f earlier name) span = .ok code) : ∀ (p : Param) (earlier : List String),
    p.NoAttr → (p.refill f earlier).Lowers
  | required .., _, _ | rest .., _, _ | keyword _ none _, _, _ | keywordRest .., _, _ => trivial
  | optional .., _, _ | keyword _ (some _) _, _, _ => hf _ _ _
  | group children _, earlier, h => allLower_refillAll hf children earlier h

/-- Some parameters without attributes have code with defaults that have. -/
theorem allLower_refillAll (hf : ∀ earlier name span, ∃ code,
    defaultCode name (f earlier name) span = .ok code) : ∀ (ps : List Param)
    (earlier : List String), AllNoAttr ps → AllLower (refillAll f earlier ps)
  | [], _, _ => trivial
  | p :: ps, earlier, h => ⟨lowers_refill hf p earlier h.1, allLower_refillAll hf ps _ h.2⟩
end

end Param

/-! ## Refilling nodes -/

namespace ParamNode

mutual
/-- A node with other defaults. -/
def refill (f : List String → String → Expr) (earlier : List String) : ParamNode → ParamNode
  | optional name _ span => optional name (f earlier name) span
  | keyword name (some _) span => keyword name (some (f earlier name)) span
  | group children span => group (refillAll f earlier children) span
  | node => node

/-- Some nodes with other defaults. -/
def refillAll (f : List String → String → Expr) (earlier : List String) :
    List ParamNode → List ParamNode
  | [] => []
  | node :: others => node.refill f earlier :: refillAll f (earlier ++ declaredNames [node]) others
end

variable {f : List String → String → Expr}

/-- Other defaults leave a node in the part of the list that it stands in. -/
theorem part?_refill (node : ParamNode) (earlier : List String) :
    (node.refill f earlier).part? = node.part? := by
  cases node with
  | keyword name default span => cases default <;> rfl
  | _ => rfl

/-- Other defaults leave the parts of the list in which some nodes stand, and with them whether they
are in order. -/
theorem filterMap_part?_refillAll (nodes : List ParamNode) (earlier : List String) :
    (refillAll f earlier nodes).filterMap part? = nodes.filterMap part? := by
  induction nodes generalizing earlier with
  | nil => rfl
  | cons node nodes ih => rw [refillAll, List.filterMap_cons, List.filterMap_cons, part?_refill, ih]

mutual
/-- Other defaults leave what the check asks of a node by itself: which names it has, and what may
stand in a group. -/
theorem fine_refill {inGroup : Bool} : ∀ (node : ParamNode) (earlier : List String),
    (node.refill f earlier).Fine inGroup ↔ node.Fine inGroup
  | marker .., _ | required .., _ | optional .., _ | rest .., _ | keyword _ none _, _
  | keyword _ (some _) _, _ | keywordRest .., _ | attr .., _ | malformed .., _ => Iff.rfl
  | group children span, earlier => by
    have hnil : refillAll f earlier children ≠ [] ↔ children ≠ [] := by
      cases children <;> simp [refillAll]
    rw [refill, Fine, Fine, hnil, filterMap_part?_refillAll, allFine_refillAll children earlier]

/-- Other defaults leave what the check asks of each of some nodes. -/
theorem allFine_refillAll {inGroup : Bool} : ∀ (nodes : List ParamNode) (earlier : List String),
    AllFine inGroup (refillAll f earlier nodes) ↔ AllFine inGroup nodes
  | [], _ => Iff.rfl
  | node :: others, earlier => by
    rw [refillAll, AllFine, AllFine, fine_refill node, allFine_refillAll others]
end

mutual
/-- Other defaults leave what a node declares and where. -/
theorem declarations_refill (parent : Span) : ∀ (node : ParamNode) (earlier : List String),
    (node.refill f earlier).declarations parent = node.declarations parent
  | marker .., _ | required .., _ | optional .., _ | rest .., _ | keyword _ none _, _
  | keyword _ (some _) _, _ | keywordRest .., _ | attr .., _ | malformed .., _ => rfl
  | group children span, earlier => by
    rw [refill, declarations, declarations, allDeclarations_refillAll span children earlier]

/-- Other defaults leave what some nodes declare, and so what names are declared twice. -/
theorem allDeclarations_refillAll (parent : Span) : ∀ (nodes : List ParamNode)
    (earlier : List String),
    allDeclarations parent (refillAll f earlier nodes) = allDeclarations parent nodes
  | [], _ => rfl
  | node :: others, earlier => by
    rw [refillAll, allDeclarations, allDeclarations, declarations_refill parent node,
      allDeclarations_refillAll parent others]
end

/-- The name in the declaration of a name that may be missing. -/
theorem map_fst_declared (name : Option String) (span : Span) :
    (name.toList.map fun n => (n, span)).map Prod.fst = name.toList := by
  cases name <;> rfl

mutual
/-- A parameter declares what its node declares. -/
theorem names_of_param? {parent : Span} : ∀ {node : ParamNode} {p : Param},
    node.param? parent = some p → p.names = (node.declarations parent).map Prod.fst
  | marker text, p, h => by
    obtain rfl := Option.some.inj h
    rw [declarations, map_fst_declared]
    unfold markerParam markerReading
    split <;> rfl
  | required .., _, rfl | optional .., _, rfl | keyword .., _, rfl | attr .., _, rfl => rfl
  | rest name span, _, rfl | keywordRest name span, _, rfl => (map_fst_declared name span).symm
  | group children span, _, h => by
    obtain ⟨ps, hps, rfl⟩ := Option.map_eq_some_iff.1 h
    exact names_of_params? hps

/-- Some parameters declare what their nodes declare. -/
theorem names_of_params? {parent : Span} : ∀ {nodes : List ParamNode} {ps : List Param},
    params? parent nodes = some ps →
      Param.allNames ps = (allDeclarations parent nodes).map Prod.fst
  | [], _, rfl => rfl
  | node :: others, ps, h => by
    obtain ⟨p, hp, h⟩ := Option.bind_eq_some_iff.1 h
    obtain ⟨qs, hqs, h⟩ := Option.bind_eq_some_iff.1 h
    obtain rfl := Option.some.inj h
    rw [Param.allNames, allDeclarations, List.map_append, names_of_param? hp, names_of_params? hqs]
end

mutual
/-- A node with other defaults stands for the parameter with these defaults. A marker has none to
change, and stands for none with a default. -/
theorem param?_refill {parent : Span} : ∀ {node : ParamNode} {p : Param} {earlier : List String},
    node.param? parent = some p → (node.refill f earlier).param? parent = some (p.refill f earlier)
  | marker text, p, earlier, h => by
    obtain rfl := Option.some.inj h
    have hkeeps : (markerParam text parent).refill f earlier = markerParam text parent := by
      unfold markerParam
      split <;> rfl
    rw [hkeeps]
    rfl
  | required .., _, _, rfl | optional .., _, _, rfl | rest .., _, _, rfl
  | keyword _ none _, _, _, rfl | keyword _ (some _) _, _, _, rfl | keywordRest .., _, _, rfl
  | attr .., _, _, rfl => rfl
  | group children span, _, earlier, h => by
    obtain ⟨ps, hps, rfl⟩ := Option.map_eq_some_iff.1 h
    rw [refill, param?, params?_refillAll hps, Option.map_some, Param.refill]

/-- Some nodes with other defaults stand for the parameters with these. For a default of a later one
it matters that the names before it are the same for nodes and for parameters. -/
theorem params?_refillAll {parent : Span} : ∀ {nodes : List ParamNode} {ps : List Param}
    {earlier : List String}, params? parent nodes = some ps →
      params? parent (refillAll f earlier nodes) = some (Param.refillAll f earlier ps)
  | [], _, _, rfl => rfl
  | node :: others, ps, earlier, h => by
    obtain ⟨p, hp, h⟩ := Option.bind_eq_some_iff.1 h
    obtain ⟨qs, hqs, h⟩ := Option.bind_eq_some_iff.1 h
    obtain rfl := Option.some.inj h
    have hnames : declaredNames [node] = p.names := by
      rw [declaredNames, allDeclarations_names {} parent, names_of_param? hp, allDeclarations,
        allDeclarations, List.append_nil]
    rw [refillAll, params?, param?_refill hp, params?_refillAll hqs, hnames]
    rfl
end

end ParamNode

/-- A list with other defaults. -/
def ParamList.refill (f : List String → String → Expr) (list : ParamList) : ParamList :=
  ⟨ParamNode.refillAll f [] list.nodes, list.span⟩

/-- A list with other defaults passes the check if the list does. -/
theorem ParamList.check?_refill {list : ParamList} {ps : List Param}
    (f : List String → String → Expr) (h : ParamList.check? (some list) = .ok ps) :
    ParamList.check? (some (list.refill f)) = .ok (Param.refillAll f [] ps) := by
  obtain ⟨hps, hfine, horder, hnames⟩ := ParamList.check?_eq_ok_iff.1 h
  refine ParamList.check?_eq_ok_iff.2 ⟨ParamNode.params?_refillAll hps,
    (ParamNode.allFine_refillAll _ _).2 hfine, ?_, ?_⟩
  · rwa [ParamList.refill, ParamNode.filterMap_part?_refillAll]
  · rwa [ParamList.refill, ParamNode.allDeclarations_refillAll]

/-! ## Lists whose defaults can be reached out of order -/

/-- The default at one place reads a variable, and all others are trivial. -/
def exposing (x : Slot) (n : String) (earlier : List String) (name : String) : Expr :=
  if earlier = x.earlier ∧ name = x.param.names.headD "" then .localVar n else .nil

section

variable {x : Slot} {n : String} {d : Expr}

/-- The defaults that expose a slot are simple: one is a variable, and the others are `nil`. -/
theorem simple_exposing (earlier : List String) (name : String) :
    (exposing x n earlier name).Simple := by
  unfold exposing
  split
  · exact .inr ⟨n, rfl⟩
  · exact .inl rfl

/-- The only parameter with a default that it exposes has another name. -/
theorem lowers_exposing (hd : x.param.default? = some d) (hown : n ∉ x.param.names)
    (earlier : List String) (name : String) (span : Span) :
    ∃ code, defaultCode name (exposing x n earlier name) span = .ok code := by
  have hname : x.param.names = [x.param.names.headD ""] := by
    cases hp : x.param <;> simp [hp, Param.default?, Param.names] at hd ⊢
  unfold exposing
  split
  · rename_i h
    rw [hname, ← h.2, List.mem_singleton] at hown
    rw [defaultCode, Expr.readsLocal, if_neg (by simpa using hown)]
    exact ⟨_, rfl⟩
  · exact ⟨_, rfl⟩

/-- No default that exposes a slot reads a variable that is not declared before its parameter. -/
theorem readsEarlier_exposing {ps : List Param} (hn : n ∈ x.earlier) :
    Param.ReadsEarlier (Param.refillAll (exposing x n) [] ps) := by
  intro y hy e he m hreads
  rw [Param.levelSlots_refillAll] at hy
  obtain ⟨z, -, rfl⟩ := List.mem_map.1 hy
  rw [Slot.default?_refill, Option.map_eq_some_iff] at he
  obtain ⟨-, -, rfl⟩ := he
  unfold exposing at hreads
  split at hreads
  · rename_i h
    obtain rfl : n = m := by simpa [Expr.readsLocal] using hreads
    exact (show z.earlier = x.earlier from h.1) ▸ hn
  · cases hreads

end

/-- Two lists of parameters differ at most in their defaults. -/
def Param.SameButDefaults (ps qs : List Param) : Prop :=
  refillAll (fun _ _ => .nil) [] ps = refillAll (fun _ _ => .nil) [] qs

/-- No call of some code with undefined local variables fails because a variable is undefined. -/
def NeverUndefined (code : Stream) : Prop :=
  ∀ (arguments : List Value) (m : Machine), (∀ n, m.local? n = none) → m.heap.Sound →
    (∀ v ∈ arguments, v.Within m.heap) →
      ∀ n m', bindArguments code arguments m ≠ .error (.undefinedVariable n) m'

/-- **Defaults.** For a list without attributes: binding gets to every default after all parameters
that are declared before it are bound, exactly if no call fails because a variable is undefined,
whatever earlier variables the defaults of the list are made to read. -/
theorem defaults_defined_iff_inOrder {list : ParamList} {ps : List Param}
    (hps : ParamList.check? (some list) = .ok ps) (hattr : Param.AllNoAttr ps) :
    (∀ list' ps' localOnly code, ParamList.check? (some list') = .ok ps' →
      Param.SameButDefaults ps' ps → Param.ReadsEarlier ps' →
        ParamList.compile? (some list') localOnly = .ok code → NeverUndefined code) ↔
      Param.InOrder ps := by
  constructor
  · intro hsafe pre x post d hslots hpass hd n hn hown
    by_contra hlate
    -- The default at `x` is made to read `n`, and all others are made trivial.
    have hps' := ParamList.check?_refill (exposing x n) hps
    obtain ⟨code, hc⟩ : ∃ code, ParamList.compile? _ true = .ok code := (compile_ok_iff hps').2
      (Param.allLower_refillAll (lowers_exposing hd hown) ps [] hattr)
    have hslots' : Param.levelSlots [] (Param.refillAll (exposing x n) [] ps) =
        pre.map (Slot.refill (exposing x n)) ++ x.refill (exposing x n) ::
          post.map (Slot.refill (exposing x n)) := by
      rw [Param.levelSlots_refillAll, hslots]
      simp
    have hd' : (x.refill (exposing x n)).param.default? = some (.localVar n) := by
      rw [Slot.default?_refill, hd]
      simp [exposing]
    obtain ⟨arguments, m, hempty, hsound, hargs, n', m', hrun⟩ := exists_undefined hc hps'
      (Param.allSimple_refillAll simple_exposing ps [] hattr) hslots' (Slot.passable_refill.2 hpass)
      hd' (by rwa [Slot.names_refill])
    exact hsafe _ _ true code hps' (Param.refillAll_refillAll ps []) (readsEarlier_exposing hn) hc
      arguments m hempty hsound hargs n' m' hrun
  · intro horder list' ps' localOnly code hps' hsame hreads hc arguments m hempty hsound hargs n m'
    have horder' : Param.InOrder ps' := by
      rw [← Param.inOrder_refillAll, hsame, Param.inOrder_refillAll]
      exact horder
    have hattr' : Param.AllNoAttr ps' := by
      rw [← Param.allNoAttr_refillAll, hsame, Param.allNoAttr_refillAll]
      exact hattr
    exact bindArguments_ne_undefined hc hps' hattr' horder' hreads hempty hsound hargs n m'

/-- In `(a, b = a)` the default reads a parameter that is declared before it, and no call fails
because a variable is undefined. -/
theorem defaults_defined_pair : ∃ code,
    ParamList.compile? (some ⟨[.required "a" {}, .optional "b" (.localVar "a") {}], {}⟩) true =
      .ok code ∧ NeverUndefined code := by
  have hps : ParamList.check? (some ⟨[.required "a" {}, .optional "b" (.localVar "a") {}], {}⟩) =
      .ok [.required "a" {}, .optional "b" (.localVar "a") {}] := by cbv
  have hlevel : Param.levelSlots [] [.required "a" {}, .optional "b" (.localVar "a") {}] =
      [⟨.required "a" {}, []⟩, ⟨.optional "b" (.localVar "a") {}, ["a"]⟩] := by cbv
  have horder : Param.InOrder [.required "a" {}, .optional "b" (.localVar "a") {}] := by
    intro pre x post d hslots _ hd n hn _
    rw [hlevel] at hslots
    rcases List.cons_eq_append_iff.1 hslots with ⟨rfl, h⟩ | ⟨pre, rfl, h⟩
    · cases h
      cases hd
    · rcases List.cons_eq_append_iff.1 h with ⟨rfl, h⟩ | ⟨pre, rfl, h⟩
      · cases h
        exact hn
      · simp at h
  have hreads : Param.ReadsEarlier [.required "a" {}, .optional "b" (.localVar "a") {}] := by
    intro x hx d hd n hreads
    rw [hlevel] at hx
    simp only [List.mem_cons, List.not_mem_nil, or_false] at hx
    rcases hx with rfl | rfl
    · cases hd
    · obtain rfl := Option.some.inj hd
      obtain rfl : "a" = n := by simpa [Expr.readsLocal] using hreads
      exact List.mem_singleton_self _
  have hcode : ParamList.compile? (some ⟨[.required "a" {}, .optional "b" (.localVar "a") {}], {}⟩)
      true = .ok [⟨.arrayShift, {}⟩, ⟨.localSet "a" true, {}⟩, ⟨.arrayIsEmpty, {}⟩, ⟨.ifTrue, {}⟩,
        ⟨.localGet "a", {}⟩, ⟨.orElse, {}⟩, ⟨.arrayShift, {}⟩, ⟨.endIf, {}⟩,
        ⟨.localSet "b" true, {}⟩, ⟨.pop, {}⟩] := by
    cbv
  exact ⟨_, hcode, (defaults_defined_iff_inOrder hps ⟨trivial, trivial, trivial⟩).2 horder _ _ _ _
    hps rfl hreads hcode⟩

/-- In `(*r, k1: 1, k2: k1)` the default of `k2` reads a parameter that is declared before it, and a
call without arguments gets there before `k1` is bound. -/
theorem later_keyword_undefined : ∃ code m',
    ParamList.compile? (some ⟨[.rest (some "r") {}, .keyword "k1" (some (.int 1)) {},
      .keyword "k2" (some (.localVar "k1")) {}], {}⟩) true = .ok code ∧
    Param.ReadsEarlier [.rest (some "r") {}, .keyword "k1" (some (.int 1)) {},
      .keyword "k2" (some (.localVar "k1")) {}] ∧
    bindArguments code [] default = .error (.undefinedVariable "k1") m' := by
  have hcode : ParamList.compile? (some ⟨[.rest (some "r") {}, .keyword "k1" (some (.int 1)) {},
      .keyword "k2" (some (.localVar "k1")) {}], {}⟩) true =
      .ok [⟨.dup, {}⟩, ⟨.localSet "r" true, {}⟩, ⟨.stageKeywords, {}⟩, ⟨.hasKeyword "k2", {}⟩,
        ⟨.ifTrue, {}⟩, ⟨.takeKeyword "k2", {}⟩, ⟨.orElse, {}⟩, ⟨.localGet "k1", {}⟩, ⟨.endIf, {}⟩,
        ⟨.localSet "k2" true, {}⟩, ⟨.hasKeyword "k1", {}⟩, ⟨.ifTrue, {}⟩, ⟨.takeKeyword "k1", {}⟩,
        ⟨.orElse, {}⟩, ⟨.pushInt 1, {}⟩, ⟨.endIf, {}⟩, ⟨.localSet "k1" true, {}⟩,
        ⟨.checkKeywords, {}⟩, ⟨.pop, {}⟩, ⟨.pop, {}⟩] := by
    cbv
  have hlevel : Param.levelSlots [] [.rest (some "r") {}, .keyword "k1" (some (.int 1)) {},
      .keyword "k2" (some (.localVar "k1")) {}] = [⟨.rest (some "r") {}, []⟩,
        ⟨.keyword "k2" (some (.localVar "k1")) {}, ["r", "k1"]⟩,
        ⟨.keyword "k1" (some (.int 1)) {}, ["r"]⟩] := by cbv
  refine ⟨_, _, hcode, fun x hx d hd n hreads => ?_, by cbv⟩
  rw [hlevel] at hx
  simp only [List.mem_cons, List.not_mem_nil, or_false] at hx
  rcases hx with rfl | rfl | rfl
  · cases hd
  · obtain rfl := Option.some.inj hd
    obtain rfl : "k1" = n := by simpa [Expr.readsLocal] using hreads
    exact List.mem_cons_of_mem _ List.mem_cons_self
  · obtain rfl := Option.some.inj hd
    cases hreads

end Formals
