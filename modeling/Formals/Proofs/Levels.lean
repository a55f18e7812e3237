import Formals.Binding.Emission
import Formals.Proofs.Evaluation
import Formals.Proofs.Plans

/-!
# The actions of levels

A `Task` is an item of a level together with the action that binds it, as a `Piece` is one together
with its code; `levelAct` does the tasks of a level in the order of their plan. The code for a level
realizes the action of the level (`levelCode_realizes`), and so does the code for a list of
parameters or of targets.

On the stack a level has its sequence, and above that the keyword hash while it is staged
(`LevelState.layout`).
-/

namespace Formals

open Machine

/-! ## Tasks -/

/-- An item of a level and the action that binds it. The action gets the handles of the sequence and
of the keyword hash, and gives back the handle of the keyword hash. -/
structure Task where
  part : Part
  run : LevelState → (seq kw : Nat) → Act Nat

/-- What a level has on the stack. -/
def LevelState.layout (s : LevelState) (q k : Nat) : List Value :=
  if s.keywordsStaged then [.hash k, .array q] else [.array q]

namespace Act

/-- Checks the keyword hash that is dropped, unless a keyword rest has taken it. -/
def unstage (s : LevelState) (k : Nat) : Act Unit :=
  if s.keywordsStaged ∧ ¬ s.keywordRestSeen then checkKeywords k else return ()

/-- Moves the keyword hash out of the sequence, unless that is done. -/
def ensureStaged (s : LevelState) (q k : Nat) : Act Nat :=
  if s.keywordsStaged then return k else stage q

/-- Binds a name, if there is one. -/
def share (name : Option String) (v : Value) (localOnly : Bool) : Act Unit :=
  match name with
  | some name => setLocal name v localOnly
  | none => return ()

/-- The value of a default, which is recorded. -/
def evalDefault (name : String) (default : Expr) : Act Value := do
  let v ← default.eval
  note ⟨name, default, v⟩
  return v

/-- Writes a value to an attribute. -/
def writeAttr (receiver : Expr) (writer : String) (v : Value) : Act Unit := do
  let target ← receiver.eval
  let _ ← send target writer [v]

/-- Assigns a value to a variable. -/
def assign (kind : VariableKind) (name : String) (v : Value) : Act Unit :=
  match kind with
  | .ofScope => setLocal name v false
  | .ofInstance => setInstance name v
  | .ofProgram => setGlobal name v

/-- Does the steps of a plan. -/
def steps (q : Nat) : List (LevelState × Task) → Nat → Act Nat
  | [], k => return k
  | (s, task) :: rest, k => do
    let k ← task.run s q k
    steps q rest k

end Act

/-- Does the tasks of a level on a sequence. -/
def levelAct (tasks : List Task) (q : Nat) : Act Unit := do
  let plan := Plan.ofList Task.part tasks
  let k ← Act.steps q plan.steps 0
  Act.unstage plan.final k

/-- Does the tasks of a level on the elements of a value. -/
def takeApart (tasks : List Task) (v : Value) : Act Unit := do
  let items ← Act.elements v
  let q ← Act.newArray items
  levelAct tasks q

/-- A task that takes a value from the sequence. -/
def Task.positional (bind : Value → Act Unit) : Task := ⟨.positional, fun s q k => do
  Act.unstage s k
  let v ← Act.take s.side q
  bind v
  return k⟩

mutual
/-- A parameter as a task of its level. -/
def Param.task (localOnly : Bool) : Param → Task
  | .required name _ => .positional fun v => Act.setLocal name v localOnly
  | .optional name default _ => ⟨.optional, fun s q k => do
    Act.unstage s k
    let empty ← Act.isEmpty q
    let v ← Act.choose empty (Act.evalDefault name default) (Act.take .left q)
    Act.setLocal name v localOnly
    return k⟩
  | .rest name _ => ⟨.rest, fun s q k => do
    Act.unstage s k
    Act.share name (.array q) localOnly
    return k⟩
  | .keyword name none _ => ⟨.keyword, fun s q k => do
    let k ← Act.ensureStaged s q k
    let v ← Act.takeKeyword k name
    Act.setLocal name v localOnly
    return k⟩
  | .keyword name (some default) _ => ⟨.keyword, fun s q k => do
    let k ← Act.ensureStaged s q k
    let present ← Act.hasKeyword k name
    let v ← Act.choose present (Act.takeKeyword k name) (Act.evalDefault name default)
    Act.setLocal name v localOnly
    return k⟩
  | .keywordRest name _ => ⟨.keywordRest, fun s q k => do
    let k ← Act.ensureStaged s q k
    Act.share name (.hash k) localOnly
    return k⟩
  | .group children _ => .positional (takeApart (Param.tasks true children))
  | .attr receiver writer _ => .positional (Act.writeAttr receiver writer)

/-- The parameters of a level as tasks. -/
def Param.tasks (localOnly : Bool) : List Param → List Task
  | [] => []
  | p :: others => p.task localOnly :: Param.tasks localOnly others
end

/-- Assigns a value to the target of a splat. -/
def splatAct (v : Value) : Target → Act Unit
  | .var kind name _ => Act.assign kind name v
  | .attr receiver writer _ => Act.writeAttr receiver writer v
  | .nested .. | .rest .. => return ()

mutual
/-- A target as a task of its level. -/
def Target.task : Target → Task
  | .var kind name _ => .positional (Act.assign kind name)
  | .nested children _ => .positional (takeApart (Target.tasks children))
  | .rest none _ => ⟨.rest, fun _ _ k => return k⟩
  | .rest (some target) _ => ⟨.rest, fun _ q k => do
    splatAct (.array q) target
    return k⟩
  | .attr receiver writer _ => .positional (Act.writeAttr receiver writer)

/-- The targets of a level as tasks. -/
def Target.tasks : List Target → List Task
  | [] => []
  | t :: others => t.task :: Target.tasks others
end

/-! ## The code for one item -/

namespace Realizes

variable {s : LevelState} {q k : Nat} {span : Span} {localOnly : Bool} {name : String}

/-- Taking the next value. -/
theorem takeValue (s : LevelState) (span : Span) (q : Nat) :
    Realizes [s.takeValue span] [.array q] (Act.take s.side q) (fun v => [v, .array q]) := by
  unfold LevelState.takeValue
  cases s.side with
  | left => exact .arrayShift span q
  | right => exact .arrayPop span q

/-- Dropping the keyword hash. -/
theorem unstageCode (s : LevelState) (span : Span) (q k : Nat) :
    Realizes (s.unstageCode span) (s.layout q k) (Act.unstage s k) (fun _ => [.array q]) := by
  obtain ⟨side, staged, seen⟩ := s
  cases staged with
  | false => exact .pure (fun _ => [.array q]) ()
  | true =>
    have hpop := (pop span (.hash k)).frame [.array q]
    cases seen with
    | true => exact hpop
    | false =>
      have := ((checkKeywords span k).frame [.array q]).seq fun _ => hpop
      rwa [bind_pure_unit] at this

/-- Dropping all that a level has on the stack. -/
theorem dropLevel (s : LevelState) (span : Span) (q k : Nat) :
    Realizes (s.unstageCode span ++ [⟨.pop, span⟩]) (s.layout q k) (Act.unstage s k)
      (fun _ => []) := by
  have := (unstageCode s span q k).seq fun _ => pop span (.array q)
  rwa [bind_pure_unit] at this

/-- Staging the keyword hash. -/
theorem stageCode (s : LevelState) (span : Span) (q k : Nat) :
    Realizes (s.stageCode span) (s.layout q k) (Act.ensureStaged s q k)
      (fun k => [.hash k, .array q]) := by
  obtain ⟨side, staged, seen⟩ := s
  cases staged with
  | false => exact .stageKeywords span q
  | true => exact .pure (fun k => [.hash k, .array q]) k

/-- Binding a name, if there is one, to the value on top of the stack. -/
theorem shareWith (name : Option String) (localOnly : Bool) (span : Span) (v : Value) :
    Realizes (shareWith name localOnly span) [v] (Act.share name v localOnly) (fun _ => [v]) := by
  cases name with
  | none => exact .pure (fun _ => [v]) ()
  | some name =>
    have := (dup span v).seq fun _ => (localSet name localOnly span v).frame [v]
    rwa [pure_bind] at this

/-- The code for a task that takes a value from the sequence. -/
theorem positional (span : Span) {body : Stream} {bind : Value → Act Unit}
    (h : ∀ v, Realizes body [v] (bind v) (fun _ => [])) (s : LevelState) (q k : Nat) :
    Realizes (s.unstageCode span ++ s.takeValue span :: body) (s.layout q k)
      ((Task.positional bind).run s q k) (fun _ => [.array q]) := by
  rw [← List.singleton_append]
  exact (unstageCode s span q k).seq fun _ => (takeValue s span q).seq fun v =>
    .returning k ((h v).frame [.array q])

/-- Writing an attribute. -/
theorem writeAttribute {receiver : Expr} {writer : String} {code : Stream}
    (h : writeAttribute receiver writer span = .ok code) (v : Value) :
    Realizes code [v] (Act.writeAttr receiver writer v) (fun _ => []) := by
  obtain ⟨target, ht, h⟩ := ok_of_bind h
  cases h
  refine ((Expr.lower_realizes ht).frame [v]).seq fun r => ?_
  exact (Realizes.send span writer r [v] receiver.isSelf true rfl).seq
    fun _ => pop span v

/-- Assigning a variable. -/
theorem assignVariable (kind : VariableKind) (name : String) (span : Span) (v : Value) :
    Realizes [assignVariable kind name span] [v] (Act.assign kind name v) (fun _ => []) := by
  cases kind with
  | ofScope => exact localSet name false span v
  | ofInstance => exact instanceSet span v name
  | ofProgram => exact globalSet span v name

end Realizes

/-! ## The code for a level -/

section

variable {ι : Type} {part : ι → Part} {pieceOf : ι → Piece} {taskOf : ι → Task}

/-- In states of one kind, the code of a piece does what a task does. -/
def Matches (kind : LevelState → Prop) (piece : Piece) (task : Task) : Prop :=
  ∀ s code, kind s → piece.code s = .ok code → ∀ q k,
    Realizes code (s.layout q k) (task.run s q k) (fun k => (s.after task.part).layout q k)

/-- The code for the steps of a plan does the steps. -/
theorem steps_realize {kind : LevelState → Prop} (htask : ∀ i, (taskOf i).part = part i) (q : Nat) :
    ∀ {steps : List (LevelState × ι)} {s final : LevelState} {codes : List Stream} (k : Nat),
      (∀ step ∈ steps, Matches kind (pieceOf step.2) (taskOf step.2)) →
      (∀ step ∈ steps, kind step.1) → Plan.Linked part s steps final →
      steps.mapM (fun step => (pieceOf step.2).code step.1) = .ok codes →
      Realizes codes.flatten (s.layout q k)
        (Act.steps q (steps.map fun step => (step.1, taskOf step.2)) k) (final.layout q)
  | [], s, _, _, k, _, _, ⟨side, rfl⟩, h => by
    cases h
    exact .pure (s.layout q) k
  | (s', i) :: steps, s, final, _, k, hm, hk, ⟨⟨side, hs⟩, hl⟩, h => by
    rw [List.mapM_cons] at h
    obtain ⟨code, hc, h⟩ := ok_of_bind h
    obtain ⟨codes, hcs, h⟩ := ok_of_bind h
    cases h
    obtain ⟨hmatch, hm⟩ := List.forall_mem_cons.1 hm
    obtain ⟨hkind, hk⟩ := List.forall_mem_cons.1 hk
    have hlayout : s'.layout q k = s.layout q k := by rw [hs]; rfl
    have hfirst := hmatch s' code hkind hc q k
    rw [htask, hlayout] at hfirst
    exact hfirst.seq fun k' => steps_realize htask q k' hm hk hl hcs

/-- The code for a level is that of its steps, and what takes the level from the stack. -/
theorem levelCode_map (hpiece : ∀ i, (pieceOf i).part = part i) (items : List ι) :
    ∃ span, levelCode (items.map pieceOf) = (do
      let bound ← (Plan.ofList part items).steps.mapM fun step => (pieceOf step.2).code step.1
      match (Plan.ofList part items).stuck with
      | some i => throw (.malformed .unorderable (pieceOf i).span)
      | none =>
        return bound.flatten ++ (Plan.ofList part items).final.unstageCode span ++
          [⟨.pop, span⟩]) := by
  have hpiece : Piece.part ∘ pieceOf = part := funext hpiece
  let plan := (Plan.ofList part items).map pieceOf
  refine ⟨(plan.steps.getLast?.map fun step => step.2.span).getD {}, ?_⟩
  rw [levelCode, Plan.ofList_map, hpiece]
  simp only [plan, Plan.map, List.mapM_map, Function.comp_def]
  cases (Plan.ofList part items).stuck <;> rfl

/-- The plan of a level that has code is not stuck. -/
theorem stuck_of_levelCode (hpiece : ∀ i, (pieceOf i).part = part i) {items : List ι}
    {code : Stream}
    (h : levelCode (items.map pieceOf) = .ok code) : (Plan.ofList part items).stuck = none := by
  obtain ⟨span, hcode⟩ := levelCode_map hpiece items
  rw [hcode] at h
  obtain ⟨codes, -, h⟩ := ok_of_bind h
  cases hs : (Plan.ofList part items).stuck with
  | none => rfl
  | some i =>
    rw [hs] at h
    cases h

/-- The code for a level is that of its steps, each of which has code, and what takes the level from
the stack. -/
theorem levelCode_ok (hpiece : ∀ i, (pieceOf i).part = part i) {items : List ι} {code : Stream}
    (h : levelCode (items.map pieceOf) = .ok code) : ∃ codes span,
      (Plan.ofList part items).steps.mapM (fun step => (pieceOf step.2).code step.1) = .ok codes ∧
      code = codes.flatten ++
        ((Plan.ofList part items).final.unstageCode span ++ [⟨.pop, span⟩]) := by
  have hstuck := stuck_of_levelCode hpiece h
  obtain ⟨span, hcode⟩ := levelCode_map hpiece items
  rw [hcode, hstuck] at h
  obtain ⟨codes, hcodes, h⟩ := ok_of_bind h
  cases h
  exact ⟨codes, span, hcodes, List.append_assoc ..⟩

/-- **Levels.** The code for a level takes the sequence from the stack and does the tasks of the
level, if the code of each of its items does the task of the item. -/
theorem levelCode_realizes (kind : LevelState → Prop)
    (hside : ∀ s side, kind s → kind { s with side })
    (hafter : ∀ i s, kind s → kind (s.after (part i))) (hstart : kind {})
    (hpiece : ∀ i, (pieceOf i).part = part i) (htask : ∀ i, (taskOf i).part = part i)
    {items : List ι} (hm : ∀ i ∈ items, Matches kind (pieceOf i) (taskOf i)) {code : Stream}
    (h : levelCode (items.map pieceOf) = .ok code) (q : Nat) :
    Realizes code [.array q] (levelAct (items.map taskOf) q) (fun _ => []) := by
  have ht : Task.part ∘ taskOf = part := funext htask
  obtain ⟨codes, span, hcodes, rfl⟩ := levelCode_ok hpiece h
  rw [levelAct, Plan.ofList_map, ht]
  have hlinked := Plan.linked_ofList part items
  obtain ⟨hkind, -⟩ := hlinked.kept kind hside (fun step _ => hafter step.2) hstart
  exact (steps_realize htask q 0 (fun step hstep => hm _ (Plan.mem_of_mem_ofList hstep)) hkind
    hlinked hcodes).seq fun k => .dropLevel _ span q k

end

/-! ## Parameters -/

/-- The pieces of a level are those of its parameters, one by one. -/
theorem Param.pieces_eq (localOnly : Bool) (ps : List Param) :
    Param.pieces localOnly ps = ps.map (Param.piece localOnly) := by
  induction ps with
  | nil => rfl
  | cons p ps ih => rw [Param.pieces, ih, List.map_cons]

/-- The tasks of a level are those of its parameters, one by one. -/
theorem Param.tasks_eq (localOnly : Bool) (ps : List Param) :
    Param.tasks localOnly ps = ps.map (Param.task localOnly) := by
  induction ps with
  | nil => rfl
  | cons p ps ih => rw [Param.tasks, ih, List.map_cons]

/-- The piece of a parameter plays its part, so that the plan for the code is that for the
parameters. -/
theorem Param.piece_part (localOnly : Bool) (p : Param) : (p.piece localOnly).part = p.part := by
  cases p with
  | keyword name default span => cases default <;> rfl
  | _ => rfl

/-- The task of a parameter plays its part, so that the plan for the actions is that for the
parameters. -/
theorem Param.task_part (localOnly : Bool) (p : Param) : (p.task localOnly).part = p.part := by
  cases p with
  | keyword name default span => cases default <;> rfl
  | _ => rfl

/-- A level of parameters whose items have code for their tasks has code for its own. -/
theorem levelCode_params {localOnly : Bool} {ps : List Param}
    (hm : ∀ p ∈ ps, Matches (fun _ => True) (p.piece localOnly) (p.task localOnly)) {code : Stream}
    (h : levelCode (Param.pieces localOnly ps) = .ok code) (q : Nat) :
    Realizes code [.array q] (levelAct (Param.tasks localOnly ps) q) (fun _ => []) := by
  rw [Param.pieces_eq] at h
  rw [Param.tasks_eq]
  exact levelCode_realizes (fun _ => True) (fun _ _ _ => trivial) (fun _ _ _ => trivial) trivial
    (Param.piece_part localOnly) (Param.task_part localOnly) hm h q

/-- The code for a default is the code of the expression. -/
theorem lower_of_defaultCode {name : String} {default : Expr} {span : Span} {code : Stream}
    (h : defaultCode name default span = .ok code) : default.lower span = .ok code := by
  unfold defaultCode at h
  split at h
  · cases h
  · exact h

section

variable {s : LevelState} {name : String} {default : Expr} {span : Span} {localOnly : Bool}
  {code : Stream}

/-- The code for an optional parameter tests whether a value is left. -/
theorem Param.optional_code
    (h : ((Param.optional name default span).piece localOnly).code s = .ok code) :
    ∃ absent, default.lower span = .ok absent ∧
      code = s.unstageCode span ++ ([⟨.arrayIsEmpty, span⟩] ++ (⟨.ifTrue, span⟩ :: (absent ++
        ⟨.orElse, span⟩ :: ([⟨.arrayShift, span⟩] ++ [⟨.endIf, span⟩])) ++
          [⟨.localSet name localOnly, span⟩])) := by
  obtain ⟨absent, ha, h⟩ := ok_of_bind h
  cases h
  exact ⟨absent, lower_of_defaultCode ha, by simp [setParam]⟩

/-- The code for a keyword with a default tests whether the keyword is given. -/
theorem Param.keyword_code
    (h : ((Param.keyword name (some default) span).piece localOnly).code s = .ok code) :
    ∃ absent, default.lower span = .ok absent ∧
      code = s.stageCode span ++ ([⟨.hasKeyword name, span⟩] ++ (⟨.ifTrue, span⟩ ::
        ([⟨.takeKeyword name, span⟩] ++ ⟨.orElse, span⟩ :: (absent ++ [⟨.endIf, span⟩])) ++
          [⟨.localSet name localOnly, span⟩])) := by
  obtain ⟨absent, ha, h⟩ := ok_of_bind h
  cases h
  exact ⟨absent, lower_of_defaultCode ha, by simp [setParam]⟩

/-- The code for a group takes a copy apart and drops the value. -/
theorem Param.group_code {children : List Param}
    (h : ((Param.group children span).piece localOnly).code s = .ok code) :
    ∃ inner, levelCode (Param.pieces true children) = .ok inner ∧
      code = s.unstageCode span ++ s.takeValue span :: ([⟨.dup, span⟩, ⟨.toArray, span⟩] ++
        (inner ++ [⟨.pop, span⟩])) := by
  obtain ⟨inner, hi, h⟩ := ok_of_bind h
  cases h
  exact ⟨inner, hi, by simp⟩

end

/-- The code for a parameter does the task of the parameter. -/
theorem Param.piece_matches (localOnly : Bool) (p : Param) :
    Matches (fun _ => True) (p.piece localOnly) (p.task localOnly) := by
  induction p generalizing localOnly with
  | required name span =>
    intro s code _ h q k
    cases h
    exact .positional span (fun v => .localSet name localOnly span v) s q k
  | optional name default span =>
    intro s code _ h q k
    obtain ⟨absent, ha, rfl⟩ := optional_code h
    refine (Realizes.unstageCode s span q k).seq fun _ =>
      (Realizes.arrayIsEmpty span q).seq fun b => ?_
    have := Realizes.defaultFirst name localOnly b ha ((Expr.lower_realizes ha).frame [.array q])
      (.arrayShift span q)
    exact (this.returning k).congr (bind_assoc ..)
  | rest name span =>
    intro s code _ h q k
    cases h
    exact (Realizes.unstageCode s span q k).seq fun _ =>
      .returning k (.shareWith name localOnly span (.array q))
  | keyword name default span =>
    intro s code _ h q k
    cases default with
    | none =>
      cases h
      exact (Realizes.stageCode s span q k).seq fun k =>
        ((Realizes.takeKeyword span k name).frame [.array q]).seq fun v =>
          .returning k ((Realizes.localSet name localOnly span v).frame [.hash k, .array q])
    | some default =>
      obtain ⟨absent, ha, rfl⟩ := keyword_code h
      refine (Realizes.stageCode s span q k).seq fun k =>
        ((Realizes.hasKeyword span k name).frame [.array q]).seq fun b => ?_
      have := Realizes.defaultLast name localOnly b ha
        ((Expr.lower_realizes ha).frame [.hash k, .array q])
        ((Realizes.takeKeyword span k name).frame [.array q])
      exact (this.returning k).congr (bind_assoc ..)
  | keywordRest name span =>
    intro s code _ h q k
    cases h
    exact (Realizes.stageCode s span q k).seq fun k =>
      .returning k ((Realizes.shareWith name localOnly span (.hash k)).frame [.array q])
  | group children span ih =>
    intro s code _ h q k
    obtain ⟨inner, hi, rfl⟩ := group_code h
    refine .positional span (fun v => ?_) s q k
    have hinner := ((Realizes.toArray span v).seq fun q =>
      levelCode_params (fun p hp => ih p hp true) hi q).frame [v]
    have := (Realizes.dup span v).seq fun _ => hinner.seq fun _ => Realizes.pop span v
    rwa [pure_bind, bind_pure_unit, bind_assoc] at this
  | attr receiver writer span =>
    intro s code _ h q k
    obtain ⟨write, hw, h⟩ := ok_of_bind h
    cases h
    rw [List.append_assoc]
    exact .positional span (fun v => .writeAttribute hw v) s q k

/-! ## Targets -/

/-- The part that a target plays on its level. -/
def Target.part : Target → Part
  | .rest .. => .rest
  | .var .. | .nested .. | .attr .. => .positional

/-- A level of targets stages no keyword hash. -/
def LevelState.Unstaged (s : LevelState) : Prop := s.keywordsStaged = false

/-- The pieces of a level are those of its targets, one by one. -/
theorem Target.pieces_eq (ts : List Target) : Target.pieces ts = ts.map Target.piece := by
  induction ts with
  | nil => rfl
  | cons t ts ih => rw [Target.pieces, ih, List.map_cons]

/-- The tasks of a level are those of its targets, one by one. -/
theorem Target.tasks_eq (ts : List Target) : Target.tasks ts = ts.map Target.task := by
  induction ts with
  | nil => rfl
  | cons t ts ih => rw [Target.tasks, ih, List.map_cons]

/-- The piece of a target plays its part. -/
theorem Target.piece_part (t : Target) : t.piece.part = t.part := by
  cases t with
  | rest target span => cases target <;> rfl
  | _ => rfl

/-- The task of a target plays its part. -/
theorem Target.task_part (t : Target) : t.task.part = t.part := by
  cases t with
  | rest target span => cases target <;> rfl
  | _ => rfl

/-- No target stages a keyword hash. -/
theorem Target.unstaged_after (t : Target) (s : LevelState) : (s.after t.part).Unstaged := by
  cases t <;> rfl

/-- A level of targets whose items have code for their tasks has code for its own. -/
theorem levelCode_targets {ts : List Target}
    (hm : ∀ t ∈ ts, Matches LevelState.Unstaged t.piece t.task) {code : Stream}
    (h : levelCode (Target.pieces ts) = .ok code) (q : Nat) :
    Realizes code [.array q] (levelAct (Target.tasks ts) q) (fun _ => []) := by
  rw [Target.pieces_eq] at h
  rw [Target.tasks_eq]
  exact levelCode_realizes LevelState.Unstaged (fun _ _ h => h)
    (fun t s _ => t.unstaged_after s) rfl
    Target.piece_part Target.task_part hm h q

/-- The code of a target that takes a value from the sequence. -/
theorem Realizes.unstaged {s : LevelState} (hs : s.Unstaged) {span : Span} {body : Stream}
    {bind : Value → Act Unit} (h : ∀ v, Realizes body [v] (bind v) (fun _ => [])) (q k : Nat) :
    Realizes (s.takeValue span :: body) (s.layout q k) ((Task.positional bind).run s q k)
      (fun _ => [.array q]) := by
  have := Realizes.positional span h s q k
  rwa [LevelState.unstageCode, hs, if_neg Bool.false_ne_true, List.nil_append] at this

/-- The code for the target of a splat assigns it. -/
theorem splatCode_realizes {t : Target} {code : Stream} (h : splatCode t = .ok code) (v : Value) :
    Realizes code [v] (splatAct v t) (fun _ => []) := by
  cases t with
  | var kind name span =>
    cases h
    exact .assignVariable kind name span v
  | attr receiver writer span => exact .writeAttribute h v
  | nested children span => cases h
  | rest target span => cases h

/-- The code for a target does the task of the target. -/
theorem Target.piece_matches (t : Target) : Matches LevelState.Unstaged t.piece t.task := by
  induction t with
  | var kind name span =>
    intro s code hs h q k
    cases h
    exact .unstaged hs (fun v => .assignVariable kind name span v) q k
  | nested children span ih =>
    intro s code hs h q k
    obtain ⟨inner, hi, h⟩ := ok_of_bind h
    cases h
    refine .unstaged hs (fun v => ?_) q k
    have := (Realizes.toArray span v).seq fun q => levelCode_targets ih hi q
    rwa [bind_assoc] at this
  | rest target span =>
    intro s code hs h q k
    cases target with
    | none =>
      cases h
      rw [LevelState.layout, hs]
      exact .pure (fun _ => [.array q]) k
    | some target =>
      obtain ⟨inner, hi, h⟩ := ok_of_bind h
      cases h
      rw [LevelState.layout, hs, ← List.singleton_append]
      have := (Realizes.dup span (.array q)).seq fun _ =>
        ((splatCode_realizes hi (.array q)).frame [.array q])
      rw [pure_bind] at this
      exact this.returning k
  | attr receiver writer span =>
    intro s code hs h q k
    obtain ⟨write, hw, h⟩ := ok_of_bind h
    cases h
    exact .unstaged hs (fun v => .writeAttribute hw v) q k

/-! ## The code for lists -/

/-- **Parameters.** The code for a list of parameters binds them to the arguments in the array on
top of the stack. -/
theorem compile_params_realizes {list : Option ParamList} {localOnly : Bool} {code : Stream}
    (h : ParamList.compile? list localOnly = .ok code) : ∃ ps, ParamList.check? list = .ok ps ∧
      ∀ q, Realizes code [.array q] (levelAct (Param.tasks localOnly ps) q) (fun _ => []) := by
  obtain ⟨ps, hps, h⟩ := ok_of_bind h
  exact ⟨ps, hps, levelCode_params (fun p _ => p.piece_matches localOnly) h⟩

/-- **Targets.** The code for a list of targets assigns to them the elements of the array on top of
the stack. -/
theorem compile_targets_realizes {list : TargetList} {code : Stream}
    (h : list.compile = .ok code) : ∃ ts, list.check = .ok ts ∧
      ∀ q, Realizes code [.array q] (levelAct (Target.tasks ts) q) (fun _ => []) := by
  obtain ⟨ts, hts, h⟩ := ok_of_bind h
  exact ⟨ts, hts, levelCode_targets (fun t _ => t.piece_matches) h⟩

end Formals
