import Formals.Proofs.Calls
import Formals.Proofs.Checks
import Formals.Proofs.Compiling
import Formals.Proofs.Targets

/-!
# Where parameters and targets agree

A `Pattern` is what can stand among parameters as well as among targets: a local variable, a splat
with or without one, or a group of patterns. The code for a tree of patterns is not the same in both
places: a group of parameters keeps its value on the stack until it is bound, its names are always
local, and a rest looks for a keyword hash to drop. What the code does is the same as long as there
is one scope only (`Pattern.tasks_agree`), and so are the calls (`binders_agree`).
-/

namespace Formals

open Machine

/-! ## Patterns -/

/-- What can stand among parameters and among targets. -/
inductive Pattern where
  | var (name : String) (span : Span)
  /-- `*name`, where the name has a span of its own, or `*` without a name. -/
  | splat (name : Option (String × Span)) (span : Span)
  | group (children : List Pattern) (span : Span)

namespace Pattern

/-- The part that a pattern plays on its level. -/
def part : Pattern → Part
  | var .. | group .. => .positional
  | splat .. => .rest

/-- Induction on patterns: of a group it is proved for what holds of its children. -/
@[elab_as_elim, induction_eliminator]
theorem induction {motive : Pattern → Prop} (var : ∀ name span, motive (var name span))
    (splat : ∀ name span, motive (splat name span))
    (group : ∀ children span, (∀ p ∈ children, motive p) → motive (group children span))
    (p : Pattern) : motive p :=
  @Pattern.rec motive (fun children => ∀ p ∈ children, motive p) var splat group
    (List.forall_mem_nil _) (fun _ _ hp hchildren => List.forall_mem_cons.2 ⟨hp, hchildren⟩) p

mutual
/-- The names in a pattern. -/
def names : Pattern → List String
  | var name _ => [name]
  | splat name _ => name.toList.map Prod.fst
  | group children _ => allNames children

/-- The names in some patterns. -/
def allNames : List Pattern → List String
  | [] => []
  | p :: ps => p.names ++ allNames ps
end

/-- At most one pattern of a level is a splat. -/
def SplatsOnce (ps : List Pattern) : Prop := (ps.map part).count .rest ≤ 1

instance (ps : List Pattern) : Decidable (SplatsOnce ps) :=
  inferInstanceAs (Decidable ((ps.map part).count .rest ≤ 1))

mutual
/-- The groups in a pattern are not empty, and have at most one splat. -/
def Formed : Pattern → Prop
  | var .. | splat .. => True
  | group children _ => children ≠ [] ∧ SplatsOnce children ∧ AllFormed children

/-- The groups in some patterns are not empty, and have at most one splat. -/
def AllFormed : List Pattern → Prop
  | [] => True
  | p :: ps => p.Formed ∧ AllFormed ps
end

mutual
/-- A pattern among the targets of an assignment. -/
def targetNode : Pattern → TargetNode
  | var name span => .var .ofScope name span
  | splat name span => .splat (name.map fun n => .var .ofScope n.1 n.2) span
  | group children span => .nested (targetNodes children) span

/-- Patterns as the targets of an assignment. -/
def targetNodes : List Pattern → List TargetNode
  | [] => []
  | p :: ps => p.targetNode :: targetNodes ps
end

mutual
/-- A pattern among parameters. -/
def paramNode : Pattern → ParamNode
  | var name span => .required name span
  | splat name span => .rest (name.map Prod.fst) span
  | group children span => .group (paramNodes children) span

/-- Patterns as parameters. -/
def paramNodes : List Pattern → List ParamNode
  | [] => []
  | p :: ps => p.paramNode :: paramNodes ps
end

mutual
/-- The checked target that a pattern is. -/
def target : Pattern → Target
  | var name span => .var .ofScope name span
  | splat name span => .rest (name.map fun n => .var .ofScope n.1 n.2) span
  | group children span => .nested (targets children) span

/-- The checked targets that some patterns are. -/
def targets : List Pattern → List Target
  | [] => []
  | p :: ps => p.target :: targets ps
end

mutual
/-- The checked parameter that a pattern is. -/
def param : Pattern → Param
  | var name span => .required name span
  | splat name span => .rest (name.map Prod.fst) span
  | group children span => .group (params children) span

/-- The checked parameters that some patterns are. -/
def params : List Pattern → List Param
  | [] => []
  | p :: ps => p.param :: params ps
end

/-- Patterns are made targets one by one. -/
theorem targets_eq (ps : List Pattern) : targets ps = ps.map target := by
  induction ps with
  | nil => rfl
  | cons p ps ih => rw [targets, ih, List.map_cons]

/-- Patterns are made parameters one by one. -/
theorem params_eq (ps : List Pattern) : params ps = ps.map param := by
  induction ps with
  | nil => rfl
  | cons p ps ih => rw [params, ih, List.map_cons]

/-- A pattern plays its part as a target. -/
theorem part_target (p : Pattern) : p.target.part = p.part := by cases p <;> rfl

/-- A pattern plays its part as a parameter. -/
theorem part_param (p : Pattern) : p.param.part = p.part := by cases p <;> rfl

/-- A pattern takes one value or is a splat. -/
theorem part_cases (p : Pattern) : p.part = .positional ∨ p.part = .rest := by
  cases p with
  | var | group => exact .inl rfl
  | splat => exact .inr rfl

/-- Patterns play their parts as the nodes of a parameter list. -/
theorem part_of_paramNodes (ps : List Pattern) :
    (paramNodes ps).filterMap ParamNode.part? = ps.map part := by
  induction ps with
  | nil => rfl
  | cons p ps ih =>
    rw [paramNodes, List.map_cons, ← ih]
    cases p <;> rfl

/-! ## Patterns pass both checks -/

/-- What holds of the names in some patterns holds of those in the first one and in the others. -/
theorem mem_allNames_cons {p : Pattern} {ps : List Pattern} {P : String → Prop} :
    (∀ n ∈ allNames (p :: ps), P n) ↔ (∀ n ∈ p.names, P n) ∧ ∀ n ∈ allNames ps, P n := by
  rw [allNames, List.forall_mem_append]

mutual
/-- A pattern whose names are those of local variables passes the check of targets. -/
theorem check_targetNode (parent : Span) : ∀ p : Pattern, p.Formed →
    (∀ n ∈ p.names, isLocalName n = true) → p.targetNode.check parent = .ok p.target
  | var n span, _, hn => if_pos (hn n (List.mem_singleton_self n))
  | splat none span, _, _ => rfl
  | splat (some (n, inner)) span, _, hn => by
    have hcheck : checkSplatTarget span (.var .ofScope n inner) = .ok (.var .ofScope n inner) :=
      if_pos (hn n (List.mem_singleton_self n))
    simp only [targetNode, Option.map_some, TargetNode.check, hcheck]
    rfl
  | group children span, h, hn => by
    obtain ⟨hne, honce, hall⟩ := h
    have hlevel := checkLevel_targetNodes span children false hall hn honce
    obtain ⟨p, ps, rfl⟩ := List.exists_cons_of_ne_nil hne
    simp only [targetNode, TargetNode.check, hlevel]
    rfl

/-- The patterns of a level with one splat pass the check of targets. -/
theorem checkLevel_targetNodes (parent : Span) : ∀ (ps : List Pattern) (seen : Bool),
    AllFormed ps → (∀ n ∈ allNames ps, isLocalName n = true) →
    (ps.map part).count .rest + seen.toNat ≤ 1 →
    TargetNode.checkLevel parent seen (targetNodes ps) = .ok (targets ps)
  | [], _, _, _, _ => rfl
  | p :: ps, seen, h, hn, honce => by
    obtain ⟨hp, hps⟩ := mem_allNames_cons.1 hn
    have hcount : (p.targetNode.isSplat = true → seen = false) ∧
        (ps.map part).count .rest + (seen || p.targetNode.isSplat).toNat ≤ 1 := by
      cases p <;> cases seen <;> simp_all [part, targetNode, TargetNode.isSplat]
    have hrest := checkLevel_targetNodes parent ps _ h.2 hps hcount.2
    exact TargetNode.checkLevel_cons_ok_iff.2
      ⟨hcount.1, _, _, check_targetNode parent p h.1 hp, hrest, rfl⟩
end

/-- Formed patterns stand in the order that both checks ask for, in which a splat stands at most
once. -/
theorem accepts (ps : List Pattern) (h : AllFormed ps)
    (hn : ∀ n ∈ allNames ps, isLocalName n = true) (honce : SplatsOnce ps) :
    Phase.leading.Accepts (ps.map part) := by
  obtain ⟨hacc, -⟩ := TargetNode.checkLevel_checked {} false (targetNodes ps)
    (checkLevel_targetNodes {} ps false h hn honce)
  rwa [targets_eq, List.map_map, funext (f := Target.part ∘ target) part_target] at hacc

mutual
/-- A pattern is a fine parameter. -/
theorem fine_paramNode (inGroup : Bool) : ∀ p : Pattern, p.Formed →
    (∀ n ∈ p.names, isLocalName n = true) → p.paramNode.Fine inGroup
  | var .., _, _ | splat .., _, _ => trivial
  | group children span, h, hn => by
    obtain ⟨hne, honce, hall⟩ := h
    refine ⟨?_, ?_, fine_paramNodes true children hall hn⟩
    · obtain ⟨p, ps, rfl⟩ := List.exists_cons_of_ne_nil hne
      exact List.cons_ne_nil _ _
    · rw [part_of_paramNodes]
      exact Phase.accepts_iff.1 (accepts children hall hn honce)

/-- Patterns are fine parameters. -/
theorem fine_paramNodes (inGroup : Bool) : ∀ ps : List Pattern, AllFormed ps →
    (∀ n ∈ allNames ps, isLocalName n = true) → ParamNode.AllFine inGroup (paramNodes ps)
  | [], _, _ => trivial
  | p :: ps, h, hn => by
    obtain ⟨hp, hps⟩ := mem_allNames_cons.1 hn
    exact ⟨fine_paramNode inGroup p h.1 hp, fine_paramNodes inGroup ps h.2 hps⟩
end

mutual
/-- The parameter that a pattern stands for. -/
theorem param?_paramNode (parent : Span) : ∀ p : Pattern,
    p.paramNode.param? parent = some p.param
  | var .. | splat .. => rfl
  | group children span => by
    rw [paramNode, ParamNode.param?, params?_paramNodes span children]
    rfl

/-- The parameters that patterns stand for. -/
theorem params?_paramNodes (parent : Span) : ∀ ps : List Pattern,
    ParamNode.params? parent (paramNodes ps) = some (params ps)
  | [] => rfl
  | p :: ps => by
    rw [paramNodes, ParamNode.params?, param?_paramNode parent p, params?_paramNodes parent ps]
    rfl
end

mutual
/-- A pattern declares its names. -/
theorem names_paramNode (parent : Span) : ∀ p : Pattern,
    (p.paramNode.declarations parent).map Prod.fst = p.names
  | var .. => rfl
  | splat name span => by cases name <;> rfl
  | group children span => names_paramNodes span children

/-- Patterns declare their names. -/
theorem names_paramNodes (parent : Span) : ∀ ps : List Pattern,
    (ParamNode.allDeclarations parent (paramNodes ps)).map Prod.fst = allNames ps
  | [] => rfl
  | p :: ps => by
    rw [paramNodes, ParamNode.allDeclarations, List.map_append, names_paramNode parent p,
      names_paramNodes parent ps, allNames]
end

/-! ## Patterns have code -/

mutual
/-- The parameter that a pattern stands for has code: it has no default that could read itself. -/
theorem lowers_param : ∀ p : Pattern, p.param.Lowers
  | var .. | splat .. => trivial
  | group children _ => lowers_params children

/-- All parameters that patterns stand for have code. -/
theorem lowers_params : ∀ ps : List Pattern, Param.AllLower (params ps)
  | [] => trivial
  | p :: ps => ⟨lowers_param p, lowers_params ps⟩
end

/-- No pattern is optional. -/
theorem part_ne_optional (p : Pattern) : p.part ≠ .optional := by
  rcases p.part_cases with h | h <;> rw [h] <;> exact nofun

/-- Some targets have code if each of them has, wherever it stands. -/
theorem levelCode_targets (ps : List Pattern)
    (hp : ∀ p ∈ ps, ∀ s, ∃ code, p.target.piece.code s = .ok code) :
    ∃ code, levelCode (Target.pieces (targets ps)) = .ok code := by
  have hpart : ∀ p : Pattern, p.target.piece.part = p.part :=
    fun p => p.target.piece_part.trans p.part_target
  rw [Target.pieces_eq, targets_eq, List.map_map]
  exact (levelCode_map_ok_iff hpart fun p hmem s => iff_of_true (hp p hmem s) trivial).2
    ⟨Plan.not_locked part_ne_optional ps, fun _ _ => trivial⟩

/-- A pattern has code as a target. -/
theorem piece_target (p : Pattern) (s : LevelState) : ∃ code, p.target.piece.code s = .ok code := by
  induction p generalizing s with
  | var => exact ⟨_, rfl⟩
  | splat name span => cases name <;> exact ⟨_, rfl⟩
  | group children span ih =>
    obtain ⟨inner, hinner⟩ := levelCode_targets children ih
    simp only [target, Target.piece, hinner]
    exact ⟨_, rfl⟩

end Pattern

/-- A tree of patterns that can stand among parameters and among targets: its names are those of
local variables, and all different, its groups are not empty, and each level has at most one
splat. -/
structure PatternTree where
  patterns : List Pattern
  span : Span := {}
  validNames : ∀ n ∈ Pattern.allNames patterns, isLocalName n = true
  distinct : (Pattern.allNames patterns).Nodup
  splatsOnce : Pattern.SplatsOnce patterns
  formed : Pattern.AllFormed patterns

namespace PatternTree

/-- The tree as the left-hand side of an assignment. -/
def targetList (tree : PatternTree) : TargetList := ⟨Pattern.targetNodes tree.patterns, tree.span⟩

/-- The tree as a list of parameters. -/
def paramList (tree : PatternTree) : ParamList := ⟨Pattern.paramNodes tree.patterns, tree.span⟩

variable (tree : PatternTree)

/-- A tree passes as a list of targets. -/
theorem check_targetList : tree.targetList.check = .ok (Pattern.targets tree.patterns) :=
  Pattern.checkLevel_targetNodes tree.span tree.patterns false tree.formed tree.validNames
    tree.splatsOnce

/-- A tree passes as a list of parameters. -/
theorem check_paramList :
    ParamList.check? (some tree.paramList) = .ok (Pattern.params tree.patterns) := by
  have hdeclared : ParamNode.declaredNames tree.paramList.nodes = Pattern.allNames tree.patterns :=
    Pattern.names_paramNodes {} tree.patterns
  refine ParamList.check?_eq_ok_iff.2 ⟨Pattern.params?_paramNodes tree.span tree.patterns,
    Pattern.fine_paramNodes false tree.patterns tree.formed tree.validNames, ?_, ?_⟩
  · rw [paramList, Pattern.part_of_paramNodes]
    exact Phase.accepts_iff.1
      (Pattern.accepts tree.patterns tree.formed tree.validNames tree.splatsOnce)
  · rw [ParamNode.admits_allDeclarations_iff, hdeclared]
    exact ⟨fun n hn => isLocalName_iff.1 (tree.validNames n hn), tree.distinct.filter _⟩

/-- A tree compiles as a list of targets. -/
theorem compile_targetList : ∃ code, tree.targetList.compile = .ok code := by
  obtain ⟨code, hcode⟩ := Pattern.levelCode_targets tree.patterns fun p _ => p.piece_target
  refine ⟨code, ?_⟩
  rw [TargetList.compile, tree.check_targetList]
  exact hcode

/-- A tree compiles as a list of parameters, under either option. -/
theorem compile_paramList (localOnly : Bool) :
    ∃ code, ParamList.compile? (some tree.paramList) localOnly = .ok code :=
  (compile_ok_iff tree.check_paramList).2 (Pattern.lowers_params tree.patterns)

end PatternTree

/-! ## Actions that agree -/

/-- Two actions do the same where there is one scope only, and it stays the only one. -/
structure Act.Agree {α : Type} (a b : Act α) : Prop where
  eq : ∀ t : Trail, t.outer = [] → a t = b t
  outer : ∀ {t t' : Trail} {x : α}, t.outer = [] → a t = .ok x t' → t'.outer = []

namespace Act.Agree

variable {α β : Type} {a b : Act α}

/-- An action that leaves the scopes alone agrees with itself. -/
theorem refl (h : ∀ {t t' : Trail} {x : α}, a t = .ok x t' → t'.outer = t.outer) : a.Agree a :=
  ⟨fun _ _ => rfl, fun ht hx => (h hx).trans ht⟩

/-- Doing nothing agrees with itself. -/
theorem pure (x : α) : Act.Agree (Pure.pure x) (Pure.pure x) := .refl fun h => by cases h; rfl

/-- Two actions in a row agree with two that agree with them one by one. The first one leaves one
scope for the second one. -/
theorem bind {f g : α → Act β} (h : a.Agree b) (hf : ∀ x, (f x).Agree (g x)) :
    Act.Agree (a >>= f) (b >>= g) where
  eq t ht := by
    rw [bind_apply, bind_apply, ← h.eq t ht]
    cases hx : a t with
    | error e t' => rfl
    | ok x t' => exact (hf x).eq t' (h.outer ht hx)
  outer ht hx := by
    obtain ⟨x, t₁, ha, hx⟩ := bind_eq_ok.1 hx
    exact (hf x).outer (h.outer ht ha) hx

/-- A change of the heap agrees with itself. -/
theorem update (f : Heap → α × Heap) : (Act.update f).Agree (Act.update f) :=
  .refl fun h => by cases h; rfl

/-- Looking up the elements of a value agrees with itself. -/
theorem elements (v : Value) : (Act.elements v).Agree (Act.elements v) :=
  .refl fun h => by rw [(Act.elements_ok h).2]

/-- Where there is one scope only, all variables belong to it. -/
theorem setLocal (name : String) (v : Value) (localOnly : Bool) :
    (Act.setLocal name v false).Agree (Act.setLocal name v localOnly) := by
  have hset : ∀ (t : Trail) (b : Bool), t.outer = [] →
      t.toEnv.setLocal name v b = t.define name v := by
    intro t b ht
    rw [Env.setLocal, ht]
    exact ite_self _
  refine ⟨fun t ht => ?_, fun {t t' x} ht h => ?_⟩
  · simp only [Act.setLocal, Act.change, hset t _ ht]
  · rw [Act.setLocal_ok h, hset t false ht]
    exact ht

/-- Binding a share agrees with binding it in the own scope. -/
theorem share (name : Option String) (v : Value) (localOnly : Bool) :
    (Act.share name v false).Agree (Act.share name v localOnly) := by
  cases name with
  | none => exact .pure ()
  | some name => exact .setLocal name v localOnly

/-- Checking the keywords that are left agrees with itself. -/
theorem unstage (s : LevelState) (k : Nat) : (Act.unstage s k).Agree (Act.unstage s k) :=
  .refl fun h => by rw [Act.unstage_ok h]

end Act.Agree

/-- Two tasks do the same on levels without a keyword hash. -/
def Task.Agree (a b : Task) : Prop :=
  ∀ ⦃s⦄ q k, s.Unstaged → (a.run s q k).Agree (b.run s q k)

/-- Tasks agree that take a value from the sequence and do the same with it. -/
theorem Task.Agree.positional {bind bind' : Value → Act Unit} (h : ∀ v, (bind v).Agree (bind' v)) :
    (Task.positional bind).Agree (Task.positional bind') :=
  fun s _ k _ => .bind (.unstage s k) fun _ => .bind (.update _) fun v =>
    .bind (h v) fun _ => .pure k

section

variable {ι : Type} {part : ι → Part} {f g : ι → Task}

/-- Steps of a plan agree whose tasks agree. -/
theorem steps_agree (q : Nat) : ∀ {steps : List (LevelState × ι)} (k : Nat),
    (∀ step ∈ steps, (f step.2).Agree (g step.2)) → (∀ step ∈ steps, step.1.Unstaged) →
    (Act.steps q (steps.map fun step => (step.1, f step.2)) k).Agree
      (Act.steps q (steps.map fun step => (step.1, g step.2)) k)
  | [], k, _, _ => .pure k
  | _ :: _, k, h, hs =>
    .bind (h _ List.mem_cons_self q k (hs _ List.mem_cons_self)) fun k' =>
      steps_agree q k' (fun step hstep => h step (List.mem_cons_of_mem _ hstep))
        fun step hstep => hs step (List.mem_cons_of_mem _ hstep)

/-- Levels agree whose tasks agree. -/
theorem levelAct_agree (hpart : ∀ i, part i = .positional ∨ part i = .rest)
    (hf : ∀ i, (f i).part = part i) (hg : ∀ i, (g i).part = part i) {items : List ι}
    (h : ∀ i ∈ items, (f i).Agree (g i)) (q : Nat) :
    (levelAct (items.map f) q).Agree (levelAct (items.map g) q) := by
  have hf : Task.part ∘ f = part := funext hf
  have hg : Task.part ∘ g = part := funext hg
  have hafter : ∀ i (s : LevelState), (s.after (part i)).Unstaged := fun i s => by
    rcases hpart i with hp | hp <;> rw [hp] <;> rfl
  obtain ⟨hunstaged, -⟩ := (Plan.linked_ofList part items).kept LevelState.Unstaged (fun _ _ h => h)
    (fun step _ s _ => hafter step.2 s) rfl
  rw [levelAct, levelAct, Plan.ofList_map, Plan.ofList_map, hf, hg]
  exact .bind (steps_agree q 0 (fun step hstep => h _ (Plan.mem_of_mem_ofList hstep)) hunstaged)
    fun k => .unstage _ k

end

/-! ## Patterns agree -/

namespace Pattern

/-- A level of targets agrees with the level of parameters, if the patterns on it do. -/
theorem levelAct_agree (localOnly : Bool) (ps : List Pattern)
    (h : ∀ p ∈ ps, p.target.task.Agree (p.param.task localOnly)) (q : Nat) :
    (levelAct (Target.tasks (targets ps)) q).Agree
      (levelAct (Param.tasks localOnly (params ps)) q) := by
  rw [Target.tasks_eq, Param.tasks_eq, targets_eq, params_eq, List.map_map, List.map_map]
  exact Formals.levelAct_agree part_cases (fun p => p.target.task_part.trans p.part_target)
    (fun p => (Param.task_part localOnly p.param).trans p.part_param) h q

/-- As a target a pattern does what it does as a parameter. -/
theorem task_agree (p : Pattern) (localOnly : Bool) :
    p.target.task.Agree (p.param.task localOnly) := by
  induction p generalizing localOnly with
  | var name span => exact .positional fun v => .setLocal name v localOnly
  | splat name span =>
    intro s q k hs
    have hunstage : Act.unstage s k = pure () := by
      rw [Act.unstage, hs]
      rfl
    cases name with
    | none =>
      show (pure k : Act Nat).Agree (Act.unstage s k >>= fun _ => pure k)
      rw [hunstage, pure_bind]
      exact .pure k
    | some name =>
      show Act.Agree (Act.setLocal name.1 (.array q) false >>= fun _ => pure k)
        (Act.unstage s k >>= fun _ => Act.setLocal name.1 (.array q) localOnly >>= fun _ => pure k)
      rw [hunstage, pure_bind]
      exact .bind (.setLocal name.1 _ localOnly) fun _ => .pure k
  | group children span ih =>
    exact .positional fun v => .bind (.elements v) fun items => .bind (.update _) fun q =>
      levelAct_agree true children (fun p hp => ih p hp true) q

/-- All patterns of a level agree as targets and as parameters. -/
theorem tasks_agree (ps : List Pattern) (localOnly : Bool) :
    ∀ p ∈ ps, p.target.task.Agree (p.param.task localOnly) := fun p _ => p.task_agree localOnly

end Pattern

/-- **Agreement.** A tree of patterns is compiled both as the left-hand side of an assignment and as
a list of parameters. In a machine with one scope, as a fresh one is, assigning an array and binding
its elements have the same outcome: both end well or fail with the same error, and they leave the
same variables, in the order of their assignment, and the same heap. -/
theorem binders_agree (tree : PatternTree) (localOnly : Bool) : ∃ assigning binding,
    tree.targetList.compile = .ok assigning ∧
    ParamList.compile? (some tree.paramList) localOnly = .ok binding ∧
    ∀ (m : Machine) (a : Nat), m.outer = [] →
      observe (assign assigning (.array a) m) =
        observe (bindArguments binding (m.heap.arrayAt a) m) := by
  obtain ⟨assigning, hassigning⟩ := tree.compile_targetList
  obtain ⟨binding, hbinding⟩ := tree.compile_paramList localOnly
  refine ⟨assigning, binding, hassigning, hbinding, fun m a hm => ?_⟩
  obtain ⟨ts, hts, hassign⟩ := compile_targets_realizes hassigning
  obtain rfl := Except.ok.inj (hts.symm.trans tree.check_targetList)
  obtain ⟨ps, hps, hbind⟩ := compile_params_realizes hbinding
  obtain rfl := Except.ok.inj (hps.symm.trans tree.check_paramList)
  have hlevel := Pattern.levelAct_agree localOnly tree.patterns
    (Pattern.tasks_agree tree.patterns localOnly) m.heap.arrays.size
  calc observe (assign assigning (.array a) m)
      = Act.observe (callAct (Value.splat · (.array a)) _ m.toEnv.trail) :=
      observe_call hassign (Value.splat · (.array a)) m
    _ = Act.observe (callAct (fun _ => m.heap.arrayAt a) _ m.toEnv.trail) := by
      rw [callAct_apply, callAct_apply]
      exact congrArg _ (hlevel.eq _ hm)
    _ = observe (bindArguments binding (m.heap.arrayAt a) m) :=
      (observe_call hbind (fun _ => m.heap.arrayAt a) m).symm

/-- `a, (b, *c), *d`, with three arrays: the first one is taken apart, and so is the second one in
it; the third one fails at `b`, when `a` has its value. -/
theorem nested_agree : ∃ (tree : PatternTree) (assigning binding : Stream) (m : Machine),
    tree.patterns = [.var "a" {}, .group [.var "b" {}, .splat (some ("c", {})) {}] {},
      .splat (some ("d", {})) {}] ∧
    m = fresh ⟨#[[.int 1, .array 1, .int 4], [.int 2, .int 3], [.int 1, .int 5]], #[], #[]⟩ ∧
    tree.targetList.compile = .ok assigning ∧
    ParamList.compile? (some tree.paramList) true = .ok binding ∧
    (observe (assign assigning (.array 0) m)).1 = none ∧
    (observe (assign assigning (.array 0) m)).2.scope =
      [("a", .int 1), ("b", .int 2), ("c", .array 4), ("d", .array 3)] ∧
    (observe (assign assigning (.array 2) m)).1 =
      some (.typeError (.notConvertible "Integer" "Array")) ∧
    (observe (assign assigning (.array 2) m)).2.scope = [("a", .int 1)] ∧
    ∀ a, observe (assign assigning (.array a) m) =
      observe (bindArguments binding (m.heap.arrayAt a) m) := by
  let tree : PatternTree :=
    { patterns := [.var "a" {}, .group [.var "b" {}, .splat (some ("c", {})) {}] {},
        .splat (some ("d", {})) {}]
      validNames := by decide
      distinct := by decide
      splatsOnce := by decide
      formed := ⟨trivial, ⟨nofun, by decide, trivial, trivial, trivial⟩, trivial, trivial⟩ }
  have hcode : tree.targetList.compile = .ok [⟨.arrayShift, {}⟩, ⟨.localSet "a" false, {}⟩,
      ⟨.arrayShift, {}⟩, ⟨.toArray, {}⟩, ⟨.arrayShift, {}⟩, ⟨.localSet "b" false, {}⟩, ⟨.dup, {}⟩,
      ⟨.localSet "c" false, {}⟩, ⟨.pop, {}⟩, ⟨.dup, {}⟩, ⟨.localSet "d" false, {}⟩,
      ⟨.pop, {}⟩] := by
    cbv
  obtain ⟨assigning, binding, hassigning, hbinding, hagree⟩ := binders_agree tree true
  obtain rfl := Except.ok.inj (hcode.symm.trans hassigning)
  exact ⟨tree, _, binding, _, rfl, rfl, hcode, hbinding, by cbv, by cbv, by cbv, by cbv,
    fun a => hagree _ a rfl⟩

end Formals
