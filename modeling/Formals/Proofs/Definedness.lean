import Formals.Proofs.Failures

/-!
# Where undefined variables come from

Binding defines the names of its parameters, one after the other (`Param.task_defines`), and the
only error about a name is that a default reads a variable that is not defined. `Param.slots` lists
the parameters of a level and of the groups in it in the order in which they are bound, each with
the names that are declared before it, and `levelAct_undefined` finds the one whose default fails.
-/

namespace Formals

open Machine

/-! ## Expressions -/

/-- Sending a message fails only because of the values. -/
theorem Act.send_error {receiver : Value} {message : String} {arguments : List Value}
    {t t' : Trail} {e : RuntimeError} (h : Act.send receiver message arguments t = .error e t') :
    e.isValueError := by
  unfold Act.send at h
  split at h
  · cases h
  · rename_i he
    cases h
    exact isValueError_dispatch he

/-- What an evaluation can fail with: an error about its values, or one about a local variable that
it reads and that is not defined. -/
def RuntimeError.OfEvaluation (reads : String → Bool) (t : Trail) (e : RuntimeError) : Prop :=
  e.isValueError ∨ ∃ name, e = .undefinedVariable name ∧ reads name = true ∧ t.local? name = none

namespace RuntimeError.OfEvaluation

variable {reads reads' : String → Bool} {t t' : Trail} {e : RuntimeError}

/-- Of a part of an evaluation, after the parts before it. -/
theorem part (h : e.OfEvaluation reads t') (hq : Quiet t t')
    (hr : ∀ name, reads name = true → reads' name = true) : e.OfEvaluation reads' t :=
  h.imp_right fun ⟨name, he, hreads, hnone⟩ =>
    ⟨name, he, hr name hreads, hq.local?_eq name ▸ hnone⟩

/-- Of the first part of an evaluation. -/
theorem first (h : e.OfEvaluation reads t)
    (hr : ∀ name, reads name = true → reads' name = true) : e.OfEvaluation reads' t :=
  h.part (.refl t) hr

end RuntimeError.OfEvaluation

namespace Expr

mutual
/-- What the evaluation of an expression can fail with. -/
theorem eval_error : ∀ {e : Expr} {t t' : Trail} {err : RuntimeError}, e.eval t = .error err t' →
    err.OfEvaluation (e.readsLocal ·) t
  | nil, t, t', err, h | bool _, t, t', err, h | int _, t, t', err, h | str _, t, t', err, h
  | sym _, t, t', err, h | self, t, t', err, h | globalVar _, t, t', err, h => by
    cases h
  | instanceVar x, t, t', err, h => by
    rw [eval] at h
    have := Act.read_error h
    split at this <;> cases this
  | localVar x, t, t', err, h => by
    rw [eval] at h
    have := Act.read_error h
    split at this
    · cases this
    · rename_i hnone
      cases this
      exact .inr ⟨x, rfl, by simp [readsLocal], hnone⟩
  | array elements, t, t', err, h => by
    rw [eval] at h
    rcases bind_eq_error.1 h with h | ⟨items, t₁, -, h⟩
    · exact (evalList_error h).first fun name hr => by rwa [readsLocal]
    · cases map_eq_error.1 h
  | hash pairs, t, t', err, h => by
    rw [eval] at h
    rcases bind_eq_error.1 h with h | ⟨flat, t₁, -, h⟩
    · exact (evalPairs_error h).first fun name hr => by rwa [readsLocal]
    rcases bind_eq_error.1 (map_eq_error.1 h) with h | ⟨entries, t₂, -, h⟩
    · exact .inl (isValueError_entriesOf (Act.read_error h))
    · cases h
  | call none method arguments, t, t', err, h => by
    rw [eval] at h
    rcases bind_eq_error.1 h with h | ⟨items, t₁, -, h⟩
    · exact (evalList_error h).first fun name hr => by rwa [readsLocal]
    rcases bind_eq_error.1 h with h | ⟨receiver, t₂, -, h⟩
    · cases h
    · exact .inl (Act.send_error h)
  | call (some receiver) method arguments, t, t', err, h => by
    rw [eval] at h
    rcases bind_eq_error.1 h with h | ⟨items, t₁, hi, h⟩
    · exact (evalList_error h).first fun name hr => by rw [readsLocal, hr, Bool.true_or]
    rcases bind_eq_error.1 h with h | ⟨r, t₂, -, h⟩
    · exact (eval_error h).part (evalList_quiet hi) fun name hr => by
        rw [readsLocal, hr, Bool.or_true]
    · exact .inl (Act.send_error h)

/-- What the evaluation of some expressions can fail with. -/
theorem evalList_error : ∀ {es : List Expr} {t t' : Trail} {err : RuntimeError},
    evalList es t = .error err t' → err.OfEvaluation (anyReadsLocal · es) t
  | [], t, t', err, h => by cases h
  | e :: rest, t, t', err, h => by
    rw [evalList] at h
    rcases bind_eq_error.1 h with h | ⟨v, t₁, hv, h⟩
    · exact (eval_error h).first fun name hr => by rw [anyReadsLocal, hr, Bool.true_or]
    · exact (evalList_error (map_eq_error.1 h)).part (eval_quiet hv) fun name hr => by
        rw [anyReadsLocal, hr, Bool.or_true]

/-- What the evaluation of some pairs can fail with. -/
theorem evalPairs_error : ∀ {ps : List (Expr × Expr)} {t t' : Trail} {err : RuntimeError},
    evalPairs ps t = .error err t' → err.OfEvaluation (anyPairReadsLocal · ps) t
  | [], t, t', err, h => by cases h
  | (key, value) :: rest, t, t', err, h => by
    rw [evalPairs] at h
    rcases bind_eq_error.1 h with h | ⟨k, t₁, hk, h⟩
    · exact (eval_error h).first fun name hr => by
        rw [anyPairReadsLocal, hr, Bool.true_or, Bool.true_or]
    rcases bind_eq_error.1 h with h | ⟨v, t₂, hv, h⟩
    · exact (eval_error h).part (eval_quiet hk) fun name hr => by
        rw [anyPairReadsLocal, hr, Bool.or_true, Bool.true_or]
    · exact (evalPairs_error (map_eq_error.1 h)).part ((eval_quiet hk).trans (eval_quiet hv))
        fun name hr => by rw [anyPairReadsLocal, hr, Bool.or_true]
end

/-- An expression fails with an undefined variable only if it reads one. -/
theorem eval_undefined {e : Expr} {t t' : Trail} {name : String}
    (h : e.eval t = .error (.undefinedVariable name) t') :
    e.readsLocal name = true ∧ t.local? name = none := by
  rcases eval_error h with h | ⟨_, heq, hreads, hnone⟩
  · cases h
  · cases heq
    exact ⟨hreads, hnone⟩

end Expr

/-! ## Defined names -/

/-- The local variables that are defined are some names. -/
def Trail.Defines (t : Trail) (names : List String) : Prop :=
  ∀ n, (t.local? n).isSome ↔ n ∈ names

namespace Trail.Defines

variable {t t' : Trail} {names names' : List String}

/-- Of the names it counts only which they are. -/
theorem congr (h : t.Defines names) (hn : ∀ n, n ∈ names ↔ n ∈ names') : t.Defines names' :=
  fun n => (h n).trans (hn n)

/-- A run that leaves the local variables alone. -/
theorem framed (h : t.Defines names) {arrays hashes : Nat → Prop}
    (hf : Framed [] arrays hashes t t') : t'.Defines names := fun n => by
  rw [hf.locals n List.not_mem_nil]
  exact h n

/-- A local variable that is set is defined, in whatever scope it is found. -/
theorem setLocal (h : t.Defines names) {name : String} {v : Value} {localOnly : Bool} {u : Unit}
    (hs : Act.setLocal name v localOnly t = .ok u t') : t'.Defines (names ++ [name]) := fun n => by
  rw [Act.setLocal_ok hs, List.mem_append, List.mem_singleton]
  show ((t.toEnv.setLocal name v localOnly).local? n).isSome ↔ _
  rw [Env.local?_setLocal]
  split
  · rename_i hn
    exact ⟨fun _ => .inr hn.symm, fun _ => rfl⟩
  · rename_i hn
    exact (h n).trans ⟨.inl, fun hor => hor.resolve_right fun he => hn he.symm⟩

/-- A share defines the name that it is bound to, if it has one. -/
theorem share (h : t.Defines names) {name : Option String} {v : Value} {localOnly : Bool} {u : Unit}
    (hs : Act.share name v localOnly t = .ok u t') : t'.Defines (names ++ name.toList) := by
  cases name with
  | none =>
    cases hs
    rwa [Option.toList_none, List.append_nil]
  | some name => exact h.setLocal hs

/-- A default defines nothing, whatever it does. -/
theorem evalDefault (h : t.Defines names) {name : String} {default : Expr} {v : Value}
    (hv : Act.evalDefault name default t = .ok v t') : t'.Defines names := by
  have hf : Framed [] (fun _ => True) (fun _ => True) t t' := .evalDefault hv
  exact h.framed hf

/-- Taking a value for a group defines nothing. -/
theorem taken (h : t.Defines names) (side : Side) (q : Nat) : (t.taken side q).Defines names := h

/-- Opening a group defines nothing. -/
theorem opened (h : t.Defines names) (items : List Value) : (t.opened items).Defines names := h

/-- Taking the keyword hash out defines nothing. -/
theorem ensureStaged (h : t.Defines names) {s : LevelState} {q k k' : Nat}
    (hs : Act.ensureStaged s q k t = .ok k' t') : t'.Defines names :=
  h.framed (Framed.ensureStaged [] hs).1

/-- Taking a keyword defines nothing. -/
theorem takeKeyword (h : t.Defines names) {k : Nat} {name : String} {v : Value}
    (hv : Act.takeKeyword k name t = .ok v t') : t'.Defines names := by
  have hf : Framed [] (fun _ => True) (· ≠ k) t t' := .takeKeyword hv
  exact h.framed hf

end Trail.Defines

/-- The task of a parameter defines the names of the parameter. -/
def Param.Defining (localOnly : Bool) (p : Param) : Prop :=
  ∀ ⦃s q k t k' t' names⦄, t.Defines names → (p.task localOnly).run s q k t = .ok k' t' →
    t'.Defines (names ++ p.names)

/-- Steps define the names of their parameters. -/
theorem steps_define {localOnly : Bool} {steps : List (LevelState × Param)} {q k k' : Nat}
    {t t' : Trail} {names : List String}
    (hp : ∀ step ∈ steps, step.2.Defining localOnly) (ht : t.Defines names)
    (h : Act.steps q (stepTasks localOnly steps) k t = .ok k' t') :
    t'.Defines (names ++ Param.allNames (steps.map Prod.snd)) := by
  induction steps generalizing k t names with
  | nil =>
    cases h
    rwa [List.map_nil, Param.allNames, List.append_nil]
  | cons step steps ih =>
    obtain ⟨s, p⟩ := step
    obtain ⟨k₁, t₁, hfirst, hrest⟩ := steps_cons_ok h
    have := ih (fun step hmem => hp step (List.mem_cons_of_mem _ hmem))
      (hp _ List.mem_cons_self ht hfirst) hrest
    rwa [List.append_assoc] at this

/-- The names of some parameters are those of each of them. -/
theorem Param.mem_allNames_iff {n : String} {ps : List Param} :
    n ∈ Param.allNames ps ↔ ∃ p ∈ ps, n ∈ p.names := by
  rw [Param.allNames_eq, List.mem_flatMap]

/-- A level defines the names of its parameters. -/
theorem levelAct_defines {localOnly : Bool} {ps : List Param} {q : Nat} {u : Unit} {t t' : Trail}
    {names : List String} (hp : ∀ p ∈ ps, p.Defining localOnly)
    (hacc : Phase.leading.Accepts (ps.map Param.part)) (ht : t.Defines names)
    (h : levelAct (Param.tasks localOnly ps) q t = .ok u t') :
    t'.Defines (names ++ Param.allNames ps) := by
  obtain ⟨shape⟩ := exists_shape hacc
  obtain ⟨k, hsteps⟩ := levelAct_ok h
  refine (steps_define (fun step hstep => hp _ (Plan.mem_of_mem_ofList hstep)) ht hsteps).congr
    fun n => ?_
  simp only [List.mem_append, Param.mem_allNames_iff, shape.steps_perm.mem_iff]

/-- Every parameter that is accepted has its names defined by its task. -/
theorem Param.task_defines (localOnly : Bool) {inGroup : Bool} (p : Param)
    (hacc : p.Accepted inGroup) : p.Defining localOnly := by
  induction p generalizing localOnly inGroup with
  | required name span =>
    intro s q k t k' t' names ht h
    cases Param.task_ok h with
    | required hl => exact (ht.taken s.side q).setLocal hl
  | optional name default span =>
    intro s q k t k' t' names ht h
    cases Param.task_ok h with
    | given _ hl => exact (ht.taken .left q).setLocal hl
    | absent _ hv hl => exact (ht.evalDefault hv).setLocal hl
  | rest name span =>
    intro s q k t k' t' names ht h
    cases Param.task_ok h with
    | rest hl => exact ht.share hl
  | keyword name default span =>
    intro s q k t k' t' names ht h
    cases Param.task_ok h with
    | keywordGiven he hv hl => exact ((ht.ensureStaged he).takeKeyword hv).setLocal hl
    | keywordAbsent he _ hv hl => exact ((ht.ensureStaged he).evalDefault hv).setLocal hl
  | keywordRest name span =>
    intro s q k t k' t' names ht h
    cases Param.task_ok h with
    | keywordRest he hl => exact (ht.ensureStaged he).share hl
  | group children span ih =>
    intro s q k t k' t' names ht h
    cases Param.task_ok h with
    | @group _ _ items _ _ hlevel =>
      have hp := fun p hp => ih p hp true (Param.allAccepted_iff.1 hacc.2 p hp)
      exact levelAct_defines hp hacc.1 ((ht.taken s.side q).opened items) hlevel
  | attr receiver writer span =>
    intro s q k t k' t' names ht h
    cases Param.task_ok h with
    | attr hw =>
      have hf : Framed [] (fun _ => True) (fun _ => True) _ t' := .of_quiet (Act.writeAttr_ok hw)
      rw [Param.names, List.append_nil]
      exact (ht.taken s.side q).framed hf

/-! ## Slots -/

/-- A parameter that is bound by itself, with the names that are declared before it. -/
structure Slot where
  param : Param
  earlier : List String

/-- The default of a parameter. -/
def Param.default? : Param → Option Expr
  | .optional _ default _ => some default
  | .keyword _ default _ => default
  | _ => none

mutual
/-- A parameter that is no attribute and has none in it. -/
def Param.NoAttr : Param → Prop
  | .attr .. => False
  | .group children _ => Param.AllNoAttr children
  | _ => True

/-- None of some parameters is an attribute or has one in it. -/
def Param.AllNoAttr : List Param → Prop
  | [] => True
  | p :: ps => p.NoAttr ∧ Param.AllNoAttr ps
end

/-- None of some parameters is or has an attribute if none of them by itself is or has one. -/
theorem Param.allNoAttr_iff {ps : List Param} : Param.AllNoAttr ps ↔ ∀ p ∈ ps, p.NoAttr := by
  induction ps with
  | nil => simp [Param.AllNoAttr]
  | cons p ps ih => simp [Param.AllNoAttr, ih]

namespace Slot

/-- The slots of the items of a level, in the order in which the items are bound. -/
def inOrder (items : List (Part × List Slot)) : List Slot :=
  (Plan.ofList Prod.fst items).steps.flatMap fun step => step.2.2

/-- The names that some slots declare. -/
def names (slots : List Slot) : List String := Param.allNames (slots.map Slot.param)

/-- The names of some slots are those of their parameters. -/
theorem mem_names {n : String} {slots : List Slot} :
    n ∈ names slots ↔ ∃ x ∈ slots, n ∈ x.param.names := by
  rw [names, Param.mem_allNames_iff]
  simp

/-- The names of slots in a row are those of the first ones and then of the others. -/
theorem names_append (a b : List Slot) : names (a ++ b) = names a ++ names b := by
  rw [names, List.map_append, Param.allNames_eq, List.flatMap_append, ← Param.allNames_eq,
    ← Param.allNames_eq]
  rfl

end Slot

namespace Param

mutual
/-- The slots of a parameter that stands behind some names: a group has those of its parameters. -/
def slots (earlier : List String) : Param → List Slot
  | group children _ => Slot.inOrder (slotItems earlier children)
  | p => [⟨p, earlier⟩]

/-- The slots of the parameters of a level. -/
def slotItems (earlier : List String) : List Param → List (Part × List Slot)
  | [] => []
  | p :: ps => (p.part, p.slots earlier) :: slotItems (earlier ++ p.names) ps
end

/-- The slots of a level, in the order in which they are bound. -/
def levelSlots (earlier : List String) (ps : List Param) : List Slot :=
  Slot.inOrder (slotItems earlier ps)

/-- The parameters of a level, each with the names that are declared before it. -/
def placed (earlier : List String) : List Param → List (List String × Param)
  | [] => []
  | p :: ps => (earlier, p) :: placed (earlier ++ p.names) ps

/-- The steps of a level, each with the names that are declared before its parameter. -/
def placedSteps (earlier : List String) (ps : List Param) :
    List (LevelState × List String × Param) :=
  (Plan.ofList (fun x => x.2.part) (placed earlier ps)).steps

/-- A step without the names that are declared before. -/
def unplaced (step : LevelState × List String × Param) : LevelState × Param := (step.1, step.2.2)

/-- The slots of a step. -/
def stepSlots (step : LevelState × List String × Param) : List Slot := step.2.2.slots step.2.1

variable {earlier : List String} {ps : List Param}

/-- Without the names before them the parameters of a level are as they were. -/
theorem placed_snd : (placed earlier ps).map Prod.snd = ps := by
  induction ps generalizing earlier with
  | nil => rfl
  | cons p ps ih => rw [placed, List.map_cons, ih]

/-- The plan of a level does not look at the names that are declared before a parameter. -/
theorem steps_eq (earlier : List String) (ps : List Param) :
    (Plan.ofList part ps).steps = (placedSteps earlier ps).map unplaced := by
  have h := Plan.ofList_map Prod.snd part (placed earlier ps)
  rw [placed_snd] at h
  rw [h]
  rfl

/-- The items of a level are its parameters with their parts and slots. -/
theorem slotItems_eq : slotItems earlier ps =
    (placed earlier ps).map fun x => (x.2.part, x.2.slots x.1) := by
  induction ps generalizing earlier with
  | nil => rw [slotItems, placed, List.map_nil]
  | cons p ps ih => rw [slotItems, placed, List.map_cons, ih]

/-- The slots of a level are those of its steps, one step after the other. -/
theorem levelSlots_eq : levelSlots earlier ps = (placedSteps earlier ps).flatMap stepSlots := by
  rw [levelSlots, Slot.inOrder, slotItems_eq, Plan.ofList_map]
  show List.flatMap _ (List.map _ _) = _
  rw [List.flatMap_map]
  rfl

/-- A step of a level binds one of its parameters. -/
theorem mem_of_mem_placedSteps {step : LevelState × List String × Param}
    (h : step ∈ placedSteps earlier ps) : step.2.2 ∈ ps := by
  have hmem : unplaced step ∈ (Plan.ofList part ps).steps := by
    rw [steps_eq earlier]
    exact List.mem_map_of_mem h
  exact Plan.mem_of_mem_ofList hmem

/-- The parameters of the steps of a level. -/
theorem exists_placedStep (shape : Shape part ps) (earlier : List String) {p : Param}
    (hp : p ∈ ps) : ∃ step ∈ placedSteps earlier ps, step.2.2 = p := by
  have hmem := shape.steps_perm.mem_iff.2 hp
  rw [steps_eq earlier, List.map_map] at hmem
  exact List.mem_map.1 hmem

/-- The names of the slots of a level are those of its parameters. -/
theorem mem_names_levelSlots {n : String} (hacc : Phase.leading.Accepts (ps.map part))
    (hp : ∀ p ∈ ps, ∀ earlier, n ∈ Slot.names (p.slots earlier) ↔ n ∈ p.names) :
    n ∈ Slot.names (levelSlots earlier ps) ↔ n ∈ allNames ps := by
  obtain ⟨shape⟩ := exists_shape hacc
  rw [levelSlots_eq, Slot.mem_names, mem_allNames_iff]
  constructor
  · rintro ⟨x, hx, hn⟩
    obtain ⟨step, hstep, hx⟩ := List.mem_flatMap.1 hx
    have hmem := mem_of_mem_placedSteps hstep
    exact ⟨_, hmem, (hp _ hmem _).1 (Slot.mem_names.2 ⟨x, hx, hn⟩)⟩
  · rintro ⟨p, hmem, hn⟩
    obtain ⟨step, hstep, rfl⟩ := exists_placedStep shape earlier hmem
    obtain ⟨x, hx, hn⟩ := Slot.mem_names.1 ((hp _ hmem step.2.1).2 hn)
    exact ⟨x, List.mem_flatMap.2 ⟨step, hstep, hx⟩, hn⟩

/-- The names of the slots of a parameter are those of the parameter. -/
theorem mem_names_slots {n : String} {inGroup : Bool} (p : Param) (hacc : p.Accepted inGroup)
    (earlier : List String) : n ∈ Slot.names (p.slots earlier) ↔ n ∈ p.names := by
  induction p generalizing inGroup earlier with
  | group children span ih =>
    rw [slots, names]
    exact mem_names_levelSlots hacc.1 fun p hp => ih p hp (allAccepted_iff.1 hacc.2 p hp)
  | required | optional | rest | keyword | keywordRest | attr =>
    simp [slots, Slot.names, allNames]

/-- The names of the slots of some steps are those of their parameters. -/
theorem mem_names_steps {n : String} {steps : List (LevelState × List String × Param)}
    (hp : ∀ step ∈ steps, ∀ earlier, n ∈ Slot.names (step.2.2.slots earlier) ↔
      n ∈ step.2.2.names) : n ∈ Slot.names (steps.flatMap stepSlots) ↔
        n ∈ allNames ((steps.map unplaced).map Prod.snd) := by
  rw [Slot.mem_names, mem_allNames_iff, List.map_map]
  constructor
  · rintro ⟨x, hx, hn⟩
    obtain ⟨step, hstep, hx⟩ := List.mem_flatMap.1 hx
    exact ⟨_, List.mem_map_of_mem hstep, (hp _ hstep _).1 (Slot.mem_names.2 ⟨x, hx, hn⟩)⟩
  · rintro ⟨p, hmem, hn⟩
    obtain ⟨step, hstep, rfl⟩ := List.mem_map.1 hmem
    obtain ⟨x, hx, hn⟩ := Slot.mem_names.1 ((hp _ hstep step.2.1).2 hn)
    exact ⟨x, List.mem_flatMap.2 ⟨step, hstep, hx⟩, hn⟩

section

variable {steps : List (LevelState × List String × Param)} {localOnly : Bool} {q k : Nat}
    {t t' : Trail}

/-- After some steps of a level the names of their slots are defined. -/
theorem placedSteps_define {inGroup : Bool} {k' : Nat} {before : List String}
    (hacc : ∀ step ∈ steps, step.2.2.Accepted inGroup) (ht : t.Defines before)
    (h : Act.steps q (stepTasks localOnly (steps.map unplaced)) k t = .ok k' t') :
    t'.Defines (before ++ Slot.names (steps.flatMap stepSlots)) := by
  have hdefines : ∀ step ∈ steps.map unplaced, step.2.Defining localOnly := by
    intro step hstep
    obtain ⟨step, hmem, rfl⟩ := List.mem_map.1 hstep
    exact task_defines localOnly _ (hacc step hmem)
  refine (steps_define hdefines ht h).congr fun n => ?_
  rw [List.mem_append, List.mem_append, mem_names_steps]
  exact fun step hstep => mem_names_slots _ (hacc step hstep)

/-- Steps of a level fail at one of them, after those before it went well. -/
theorem placedSteps_error {e : RuntimeError}
    (h : Act.steps q (stepTasks localOnly (steps.map unplaced)) k t = .error e t') :
    ∃ front step back k₁ t₁, steps = front ++ step :: back ∧
      Act.steps q (stepTasks localOnly (front.map unplaced)) k t = .ok k₁ t₁ ∧
      step.2.2.Fails step.1 q k₁ t₁ e := by
  obtain ⟨before, s, p, after, k₁, t₁, hsplit, hbefore, hfails⟩ := steps_error h
  obtain ⟨front, rest, rfl, rfl, hrest⟩ := List.map_eq_append_iff.1 hsplit
  obtain ⟨step, back, rfl, hstep, rfl⟩ := List.map_eq_cons_iff.1 hrest
  obtain ⟨rfl, rfl⟩ := Prod.mk.inj hstep
  exact ⟨front, step, back, k₁, t₁, rfl, hbefore, hfails⟩

end

end Param

/-! ## Undefined variables -/

/-- Among some slots, which stand behind some names, there is one whose default reads a variable
that is not defined then. -/
def Slot.Blamed (before : List String) (n : String) (slots : List Slot) : Prop :=
  ∃ pre x post d, slots = pre ++ x :: post ∧ x.param.default? = some d ∧ d.readsLocal n = true ∧
    n ∉ before ++ names pre

/-- If the task of a parameter fails with an undefined variable, then one of its slots is to
blame. -/
def Param.Blames (p : Param) : Prop :=
  p.NoAttr → ∀ ⦃s q k t before earlier n⦄, t.Defines before →
    p.Fails s q k t (.undefinedVariable n) → Slot.Blamed before n (p.slots earlier)

/-- A default alone is to blame. -/
theorem Slot.blamed_singleton {p : Param} {earlier before : List String} {n : String}
    {default : Expr} {t t' : Trail} (hd : p.default? = some default) (ht : t.Defines before)
    (h : default.eval t = .error (.undefinedVariable n) t') : Blamed before n [⟨p, earlier⟩] := by
  obtain ⟨hreads, hnone⟩ := Expr.eval_undefined h
  refine ⟨[], _, [], default, rfl, hd, hreads, fun hmem => ?_⟩
  rw [show names [] = [] from rfl, List.append_nil] at hmem
  have hsome := (ht n).2 hmem
  rw [hnone] at hsome
  cases hsome

/-- The slots of one step of a level are to blame. -/
theorem Slot.Blamed.level {earlier before : List String} {n : String} {ps : List Param}
    {front back : List (LevelState × List String × Param)} {step : LevelState × List String × Param}
    (hsplit : Param.placedSteps earlier ps = front ++ step :: back)
    (h : Blamed (before ++ names (front.flatMap Param.stepSlots)) n (Param.stepSlots step)) :
    Blamed before n (Param.levelSlots earlier ps) := by
  obtain ⟨pre, x, post, d, hslots, hd, hreads, hnot⟩ := h
  refine ⟨front.flatMap Param.stepSlots ++ pre, x, post ++ back.flatMap Param.stepSlots, d, ?_, hd,
    hreads, ?_⟩
  · rw [Param.levelSlots_eq, hsplit, List.flatMap_append, List.flatMap_cons, hslots]
    simp
  · rw [List.append_assoc] at hnot
    rwa [names_append]

/-- A level that fails with an undefined variable goes well up to a step whose slots are to
blame. -/
theorem levelAct_undefined {localOnly inGroup : Bool} {ps : List Param} {q : Nat} {t t' : Trail}
    {before : List String} {n : String} (hp : ∀ p ∈ ps, p.Blames)
    (hacc : Param.AllAccepted inGroup ps) (hattr : Param.AllNoAttr ps) (ht : t.Defines before)
    (earlier : List String)
    (h : levelAct (Param.tasks localOnly ps) q t = .error (.undefinedVariable n) t') :
    ∃ front step back k₁ t₁, Param.placedSteps earlier ps = front ++ step :: back ∧
      Act.steps q (stepTasks localOnly (front.map Param.unplaced)) 0 t = .ok k₁ t₁ ∧
      Slot.Blamed (before ++ Slot.names (front.flatMap Param.stepSlots)) n
        (Param.stepSlots step) := by
  rcases levelAct_error h with hsteps | ⟨_, _, -, hu⟩
  · rw [Param.steps_eq earlier] at hsteps
    obtain ⟨front, step, back, k₁, t₁, hplaced, hfront, hfails⟩ := Param.placedSteps_error hsteps
    have hmem : ∀ x ∈ front ++ step :: back, x.2.2 ∈ ps := fun x hx =>
      Param.mem_of_mem_placedSteps (hplaced ▸ hx)
    have hdefines := Param.placedSteps_define (fun x hx =>
      Param.allAccepted_iff.1 hacc _ (hmem x (List.mem_append_left _ hx))) ht hfront
    have hstep : step.2.2 ∈ ps := hmem step (by simp)
    exact ⟨front, step, back, k₁, t₁, hplaced, hfront,
      hp _ hstep (Param.allNoAttr_iff.1 hattr _ hstep) hdefines hfails⟩
  · exact absurd hu Act.unstage_ne_undefined

/-- Every parameter that is accepted has its slots to blame for undefined variables. -/
theorem Param.task_blames {inGroup : Bool} (p : Param) (hacc : p.Accepted inGroup) : p.Blames := by
  induction p generalizing inGroup with
  | group children span ih =>
    intro hattr s q k t before earlier n ht h
    rw [Param.slots]
    cases h with
    | leftOver _ hu => exact absurd hu Act.unstage_ne_undefined
    | elements he => cases isValueError_elements he
    | @group _ _ items _ _ hlevel =>
      have hall := Param.allAccepted_iff.1 hacc.2
      obtain ⟨front, step, back, k₁, t₁, hsplit, -, hblamed⟩ := levelAct_undefined
        (fun p hp => ih p hp (hall p hp)) hacc.2 hattr ((ht.taken s.side q).opened items) earlier
        hlevel
      exact hblamed.level hsplit
  | optional name default span =>
    intro hattr s q k t before earlier n ht h
    cases h with
    | leftOver _ hu => exact absurd hu Act.unstage_ne_undefined
    | optional _ hv => exact Slot.blamed_singleton rfl ht hv
  | keyword name default span =>
    intro hattr s q k t before earlier n ht h
    cases h with
    | leftOver _ hu => exact absurd hu Act.unstage_ne_undefined
    | missing _ _ he => cases he
    | keyword hs _ hv => exact Slot.blamed_singleton rfl (ht.ensureStaged hs) hv
  | required name span | rest name span | keywordRest name span =>
    intro hattr s q k t before earlier n ht h
    cases h with
    | leftOver _ hu => exact absurd hu Act.unstage_ne_undefined
  | attr receiver writer span => exact fun hattr => hattr.elim

/-! ## Keywords that are taken twice -/

namespace Slot

/-- The keywords that some slots take. -/
def keys (slots : List Slot) : List Key := slots.filterMap fun x => x.param.key?

/-- Binding can get past some slots, when some keywords are taken: no keyword parameter without a
default comes behind another parameter that takes its keyword. -/
def Passable (taken : List Key) : List Slot → Prop
  | [] => True
  | x :: xs =>
    (∀ name span, x.param = .keyword name none span → Key.sym name ∉ taken) ∧
      Passable (taken ++ x.param.key?.toList) xs

/-- The keywords of slots in a row are that of the first one, if it takes any, and those of the
others. -/
theorem keys_cons (x : Slot) (xs : List Slot) :
    keys (x :: xs) = x.param.key?.toList ++ keys xs := by
  rw [keys, List.filterMap_cons]
  cases x.param.key? <;> rfl

/-- Slots in a row can be passed if the first ones can, and the others once the keywords of the
first ones are taken. -/
theorem passable_append {taken : List Key} {a b : List Slot} :
    Passable taken (a ++ b) ↔ Passable taken a ∧ Passable (taken ++ keys a) b := by
  induction a generalizing taken with
  | nil => simp [Passable, keys]
  | cons x a ih => rw [List.cons_append, Passable, Passable, ih, keys_cons, List.append_assoc,
      and_assoc]

/-- Slots that take no keyword. -/
theorem passable_of_keys {taken : List Key} {slots : List Slot} (h : keys slots = []) :
    Passable taken slots := by
  induction slots generalizing taken with
  | nil => trivial
  | cons x xs ih =>
    rw [keys_cons, List.append_eq_nil_iff] at h
    refine ⟨fun name span hx => ?_, ?_⟩
    · rw [hx] at h
      cases h.1
    · exact ih h.2

end Slot

namespace Param

/-- A parameter in a group takes no keyword. -/
theorem keys_slots (p : Param) (earlier : List String) (hacc : p.Accepted true) :
    Slot.keys (p.slots earlier) = [] := by
  induction p generalizing earlier with
  | group children span ih =>
    rw [slots]
    refine List.filterMap_eq_nil_iff.2 fun x hx => ?_
    rw [← levelSlots, levelSlots_eq] at hx
    obtain ⟨step, hstep, hx⟩ := List.mem_flatMap.1 hx
    have hmem := mem_of_mem_placedSteps hstep
    have hkeys := ih _ hmem step.2.1 (allAccepted_iff.1 hacc.2 _ hmem)
    exact List.filterMap_eq_nil_iff.1 hkeys x hx
  | required | optional | rest | attr => rfl
  | keyword | keywordRest => cases hacc

/-- The keyword that the slots of a parameter take is that of the parameter. -/
theorem keys_slots_eq {p : Param} (earlier : List String) (hacc : p.Accepted false) :
    Slot.keys (p.slots earlier) = p.key?.toList := by
  cases p with
  | group children span => exact keys_slots (group children span) earlier hacc
  | _ => rfl

end Param

namespace Hand

variable {h : Heap} {hand : Hand} {side : Side} {p : Param} {taken : List Key}

/-- The keyword hash of a hand has no key twice. -/
def Unique (hand : Hand) : Prop := hand.entries.keys.Nodup

/-- A hand that is opened has no key twice, since hashes in a sound heap have none. -/
theorem Unique.opened (hu : hand.Unique) (hs : h.Sound) : (hand.opened h).Unique := by
  unfold Hand.opened
  split
  · exact hu
  · split
    · rename_i he
      exact hs.stagedHash? he
    · exact .nil

/-- A turn leaves a hand without keys that it has twice: it takes at most one key out. -/
theorem Unique.after (hu : hand.Unique) (hs : h.Sound) : (hand.after h side p).Unique := by
  cases p with
  | keyword name default span =>
    show ((hand.opened h).entries.erase (.sym name)).keys.Nodup
    rw [Entries.erase_eq_filter (hu.opened hs)]
    exact Entries.nodup_keys_filter (hu.opened hs) _
  | keywordRest name span => exact hu.opened hs
  | _ => exact hu

/-- Some keywords are not in a hand out of which the keyword hash was taken. -/
def Lacks (hand : Hand) (taken : List Key) : Prop :=
  ∀ key ∈ taken, hand.keywords.isSome ∧ hand.entries.get? key = none

/-- What was taken out of a hand is not in it after it is opened: the hash is taken out once. -/
theorem Lacks.opened (hl : hand.Lacks taken) : (hand.opened h).Lacks taken := fun key hkey => by
  obtain ⟨hsome, hnone⟩ := hl key hkey
  obtain ⟨entries, he⟩ := Option.isSome_iff_exists.1 hsome
  rw [opened_of_some he]
  exact ⟨hsome, hnone⟩

/-- A parameter that had its turn has taken its keyword. -/
theorem Lacks.after (hl : hand.Lacks taken) (hu : hand.Unique) (hs : h.Sound) :
    (hand.after h side p).Lacks (taken ++ p.key?.toList) := by
  intro key hkey
  cases p with
  | keyword name default span =>
    refine ⟨rfl, ?_⟩
    show ((hand.opened h).entries.erase (.sym name)).get? key = none
    by_cases hname : Key.sym name = key
    · subst hname
      exact Entries.get?_erase_self (hu.opened hs)
    · rw [Entries.get?_erase hname]
      have hmem : key ∈ taken := (List.mem_append.1 hkey).resolve_right fun hin =>
        hname (List.mem_singleton.1 hin).symm
      exact (hl.opened key hmem).2
  | keywordRest name span => exact hl.opened key (by simpa [Param.key?] using hkey)
  | _ => exact hl key (by simpa [Param.key?] using hkey)

end Hand

/-- The steps of a level that went well are passable. -/
theorem Running.passable {localOnly : Bool} {h₀ : Heap} {base q k k' : Nat}
    {front : List (LevelState × List String × Param)} {rest : List (LevelState × Param)}
    {s : LevelState} {hand : Hand} {t t' : Trail} {taken : List Key}
    (hr : Running h₀ base q (front.map Param.unplaced ++ rest) s k hand t) (hs : h₀.Sound)
    (hu : hand.Unique) (hl : hand.Lacks taken)
    (hacc : ∀ step ∈ front, step.2.2.Accepted false)
    (h : Act.steps q (stepTasks localOnly (front.map Param.unplaced)) k t = .ok k' t') :
    Slot.Passable taken (front.flatMap Param.stepSlots) := by
  induction front generalizing s k hand t taken with
  | nil => trivial
  | cons step front ih =>
    obtain ⟨s', earlier, p⟩ := step
    obtain ⟨k₁, t₁, hfirst, hrest⟩ := steps_cons_ok h
    obtain ⟨hr₁, -⟩ := hr.step hfirst
    have hp : p.Accepted false := hacc _ List.mem_cons_self
    rw [List.flatMap_cons, Slot.passable_append]
    refine ⟨?_, ?_⟩
    · cases p with
      | keyword name default span =>
        refine ⟨fun name' span' hx hmem => ?_, trivial⟩
        cases hx
        -- it went well, so its keyword was still there
        cases Param.task_ok hfirst with
        | keywordGiven he hv _ =>
          have hsome := (Act.takeKeyword_ok hv).1
          rw [hr.hashAt_opened rfl he, (hl.opened _ hmem).2] at hsome
          cases hsome
      | group children span =>
        exact Slot.passable_of_keys (Param.keys_slots (.group children span) earlier hp)
      | _ => exact Slot.passable_of_keys rfl
    · refine ih hr₁ (hu.after hs) ?_
        (fun step hmem => hacc step (List.mem_cons_of_mem _ hmem)) hrest
      have hkeys : Slot.keys (Param.stepSlots (s', earlier, p)) = p.key?.toList :=
        Param.keys_slots_eq earlier hp
      rw [hkeys]
      exact hl.after hu hs

end Formals
