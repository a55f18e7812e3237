import Formals.Proofs.Frames
import Formals.Proofs.Levels
import Formals.Proofs.Shares

/-!
# Runs of tasks

A task leaves alone all local variables but those that its parameter declares, all arrays but the
sequence of its level and all hashes but the keyword hash of its level (`Framed`); a level leaves
alone all arrays but its sequence (`levelAct_framed`). On the sequence and the keyword hash a task
does what a `Hand` says: if the level `Holds` a hand, then it holds the next one after the task
(`Param.task_holds`).
-/

namespace Formals

open Machine

/-! ## Names -/

mutual
/-- The names that a parameter declares. -/
def Param.names : Param → List String
  | .required name _ | .optional name _ _ | .keyword name _ _ => [name]
  | .rest name _ | .keywordRest name _ => name.toList
  | .group children _ => Param.allNames children
  | .attr .. => []

/-- The names that some parameters declare. -/
def Param.allNames : List Param → List String
  | [] => []
  | p :: ps => p.names ++ Param.allNames ps
end

/-- The names that some parameters declare are those of each of them, in their order. -/
theorem Param.allNames_eq (ps : List Param) : Param.allNames ps = ps.flatMap Param.names := by
  induction ps with
  | nil => rfl
  | cons p ps ih => rw [Param.allNames, ih, List.flatMap_cons]

/-! ## What the primitives do -/

namespace Act

variable {t t' : Trail}

/-- Checking the keywords that are left does nothing when it ends well. -/
theorem unstage_ok {s : LevelState} {k : Nat} {u : Unit} (h : unstage s k t = .ok u t') :
    t' = t := by
  unfold unstage at h
  split at h
  · unfold checkKeywords inspect read at h
    split at h <;> cases h
    rfl
  · cases h
    rfl

/-- Taking a value gives the next one at an end of the array and leaves the others in it. -/
theorem take_ok {side : Side} {q : Nat} {v : Value} (h : take side q t = .ok v t') :
    v = side.next (t.heap.arrayAt q) ∧
      t' = { t with heap := t.heap.setArray q (side.others (t.heap.arrayAt q)) } := by
  cases side <;> cases h <;> exact ⟨rfl, rfl⟩

/-- Setting a local variable does so and nothing else. -/
theorem setLocal_ok {name : String} {v : Value} {localOnly : Bool} {u : Unit}
    (h : setLocal name v localOnly t = .ok u t') :
    t' = { t with toEnv := t.toEnv.setLocal name v localOnly } := by
  cases h
  rfl

/-- Whether an array is empty is found without a change. -/
theorem isEmpty_ok {q : Nat} {b : Bool} (h : isEmpty q t = .ok b t') :
    b = (t.heap.arrayAt q).isEmpty ∧ t' = t := by
  cases h
  exact ⟨rfl, rfl⟩

/-- Whether a hash has a keyword is found without a change. -/
theorem hasKeyword_ok {k : Nat} {name : String} {b : Bool} (h : hasKeyword k name t = .ok b t') :
    b = (t.heap.hashAt k).contains (.sym name) ∧ t' = t := by
  cases h
  exact ⟨rfl, rfl⟩

/-- A keyword that is taken was there, and is taken out. -/
theorem takeKeyword_ok {k : Nat} {name : String} {v : Value}
    (h : takeKeyword k name t = .ok v t') : (t.heap.hashAt k).get? (.sym name) = some v ∧
      t' = { t with heap := t.heap.setHash k ((t.heap.hashAt k).erase (.sym name)) } := by
  unfold takeKeyword at h
  split at h
  · rename_i hv
    cases h
    exact ⟨hv, rfl⟩
  · cases h

/-- Evaluating a default is quiet, but for the record that it was evaluated. -/
theorem evalDefault_ok {name : String} {default : Expr} {v : Value}
    (h : evalDefault name default t = .ok v t') : ∃ t₁, Quiet t t₁ ∧
      t' = { t₁ with defaults := ⟨name, default, v⟩ :: t₁.defaults } := by
  obtain ⟨w, t₁, hw, h⟩ := bind_eq_ok.1 h
  obtain ⟨_, t₂, hn, h⟩ := bind_eq_ok.1 h
  cases h
  cases hn
  exact ⟨t₁, Expr.eval_quiet hw, rfl⟩

/-- Writing an attribute is quiet: it sets at most an instance variable. -/
theorem writeAttr_ok {receiver : Expr} {writer : String} {v : Value} {u : Unit}
    (h : writeAttr receiver writer v t = .ok u t') : Quiet t t' := by
  obtain ⟨target, t₁, ht, h⟩ := bind_eq_ok.1 h
  obtain ⟨answer, t₂, ha, h⟩ := bind_eq_ok.1 h
  cases h
  exact (Expr.eval_quiet ht).trans (.of_send ha)

/-- Taking the keyword hash out makes a new hash of it, and takes it off the end of the array, or
makes an empty one if there is none. -/
theorem stage_ok {q k : Nat} (h : stage q t = .ok k t') : k = t.heap.hashes.size ∧
    t' = { t with heap := match stagedHash? t.heap (t.heap.arrayAt q) with
      | some entries => ((t.heap.setArray q (t.heap.arrayAt q).dropLast).newHash entries).2
      | none => (t.heap.newHash []).2 } := by
  unfold stage update change at h
  cases hs : stagedHash? t.heap (t.heap.arrayAt q) with
  | some entries =>
    simp only [hs] at h
    cases h
    exact ⟨rfl, rfl⟩
  | none =>
    simp only [hs] at h
    cases h
    exact ⟨rfl, rfl⟩

/-- The elements of a value are found without a change. -/
theorem elements_ok {v : Value} {items : List Value} (h : elements v t = .ok items t') :
    v.elements t.heap = .ok items ∧ t' = t := by
  unfold elements inspect read at h
  split at h
  · rename_i he
    cases h
    exact ⟨he, rfl⟩
  · cases h

end Act

/-! ## What tasks do -/

/-- The trail after the next value is taken from a sequence. -/
def Trail.taken (t : Trail) (side : Side) (q : Nat) : Trail :=
  { t with heap := t.heap.setArray q (side.others (t.heap.arrayAt q)) }

/-- The trail with a new array for the elements of a value. -/
def Trail.opened (t : Trail) (items : List Value) : Trail :=
  { t with heap := (t.heap.newArray items).2 }

@[simp]
theorem Trail.size_taken (t : Trail) (side : Side) (q : Nat) :
    (t.taken side q).heap.arrays.size = t.heap.arrays.size := by
  simp [Trail.taken, Heap.setArray]

/-- The array for the elements of a value that was taken is a new one. -/
theorem Trail.opened_taken (t : Trail) (side : Side) (q : Nat) (items : List Value) :
    t.heap.arrays.size < ((t.taken side q).opened items).heap.arrays.size ∧
      ((t.taken side q).opened items).heap.arrayAt t.heap.arrays.size = items := by
  have hsize := t.size_taken side q
  exact ⟨by simp [opened, Heap.newArray], hsize ▸ Heap.arrayAt_newArray (t.taken side q).heap items⟩

/-- The run of a task that takes a value from the sequence. -/
theorem Task.positional_ok {bind : Value → Act Unit} {s : LevelState} {q k k' : Nat} {t t' : Trail}
    (h : (Task.positional bind).run s q k t = .ok k' t') :
    k' = k ∧ bind (s.side.next (t.heap.arrayAt q)) (t.taken s.side q) = .ok () t' := by
  obtain ⟨_, t₁, hu, h⟩ := bind_eq_ok.1 h
  obtain ⟨v, t₂, hv, h⟩ := bind_eq_ok.1 h
  obtain ⟨_, t₃, hb, h⟩ := bind_eq_ok.1 h
  cases h
  rw [Act.unstage_ok hu] at hv
  obtain ⟨rfl, rfl⟩ := Act.take_ok hv
  exact ⟨rfl, hb⟩

/-- What the task of a parameter does when it goes well: it binds the next value, a value from the
keyword hash, the value of the default, the sequence or the keyword hash. -/
inductive Param.Runs (localOnly : Bool) (s : LevelState) (q k : Nat) (t : Trail) :
    Param → Nat → Trail → Prop
  | required {name : String} {span : Span} {t' : Trail} :
      Act.setLocal name (s.side.next (t.heap.arrayAt q)) localOnly (t.taken s.side q) = .ok () t' →
      Runs localOnly s q k t (.required name span) k t'
  | attr {receiver : Expr} {writer : String} {span : Span} {t' : Trail} :
      Act.writeAttr receiver writer (s.side.next (t.heap.arrayAt q)) (t.taken s.side q) =
        .ok () t' → Runs localOnly s q k t (.attr receiver writer span) k t'
  | group {children : List Param} {span : Span} {items : List Value} {t' : Trail} :
      (s.side.next (t.heap.arrayAt q)).elements (t.taken s.side q).heap = .ok items →
      levelAct (Param.tasks true children) t.heap.arrays.size ((t.taken s.side q).opened items) =
        .ok () t' → Runs localOnly s q k t (.group children span) k t'
  | given {name : String} {default : Expr} {span : Span} {t' : Trail} :
      t.heap.arrayAt q ≠ [] →
      Act.setLocal name (Side.left.next (t.heap.arrayAt q)) localOnly (t.taken .left q) =
        .ok () t' → Runs localOnly s q k t (.optional name default span) k t'
  | absent {name : String} {default : Expr} {span : Span} {v : Value} {t₁ t' : Trail} :
      t.heap.arrayAt q = [] → Act.evalDefault name default t = .ok v t₁ →
      Act.setLocal name v localOnly t₁ = .ok () t' →
      Runs localOnly s q k t (.optional name default span) k t'
  | rest {name : Option String} {span : Span} {t' : Trail} :
      Act.share name (.array q) localOnly t = .ok () t' →
      Runs localOnly s q k t (.rest name span) k t'
  | keywordGiven {name : String} {default : Option Expr} {span : Span} {v : Value} {k' : Nat}
      {t₁ t₂ t' : Trail} :
      Act.ensureStaged s q k t = .ok k' t₁ → Act.takeKeyword k' name t₁ = .ok v t₂ →
      Act.setLocal name v localOnly t₂ = .ok () t' →
      Runs localOnly s q k t (.keyword name default span) k' t'
  | keywordAbsent {name : String} {default : Expr} {span : Span} {v : Value} {k' : Nat}
      {t₁ t₂ t' : Trail} :
      Act.ensureStaged s q k t = .ok k' t₁ →
      (t₁.heap.hashAt k').contains (.sym name) = false →
      Act.evalDefault name default t₁ = .ok v t₂ → Act.setLocal name v localOnly t₂ = .ok () t' →
      Runs localOnly s q k t (.keyword name (some default) span) k' t'
  | keywordRest {name : Option String} {span : Span} {k' : Nat} {t₁ t' : Trail} :
      Act.ensureStaged s q k t = .ok k' t₁ → Act.share name (.hash k') localOnly t₁ = .ok () t' →
      Runs localOnly s q k t (.keywordRest name span) k' t'

/-- **Runs.** The task of a parameter that goes well does what is listed. -/
theorem Param.task_ok {localOnly : Bool} {s : LevelState} {q k k' : Nat} {t t' : Trail} {p : Param}
    (h : (p.task localOnly).run s q k t = .ok k' t') : p.Runs localOnly s q k t k' t' := by
  cases p with
  | required name span =>
    obtain ⟨rfl, hb⟩ := Task.positional_ok h
    exact .required hb
  | attr receiver writer span =>
    obtain ⟨rfl, hb⟩ := Task.positional_ok h
    exact .attr hb
  | group children span =>
    obtain ⟨rfl, hb⟩ := Task.positional_ok h
    obtain ⟨items, t₁, he, hb⟩ := bind_eq_ok.1 hb
    obtain ⟨inner, t₂, hq, hb⟩ := bind_eq_ok.1 hb
    obtain ⟨hitems, rfl⟩ := Act.elements_ok he
    cases hq
    have hlevel : levelAct (Param.tasks true children) t.heap.arrays.size
        ((t.taken s.side q).opened items) = .ok () t' := t.size_taken s.side q ▸ hb
    exact .group hitems hlevel
  | optional name default span =>
    obtain ⟨_, t₁, hu, h⟩ := bind_eq_ok.1 h
    obtain ⟨b, t₂, hb, h⟩ := bind_eq_ok.1 h
    obtain ⟨v, t₃, hv, h⟩ := bind_eq_ok.1 h
    obtain ⟨_, t₄, hl, h⟩ := bind_eq_ok.1 h
    cases h
    rw [Act.unstage_ok hu] at hb
    obtain ⟨hempty, rfl⟩ := Act.isEmpty_ok hb
    -- the default is evaluated exactly if the sequence is empty
    cases b with
    | true => exact .absent (List.isEmpty_iff.1 hempty.symm) hv hl
    | false =>
      have hv : Act.take .left q t₂ = .ok v t₃ := hv
      obtain ⟨rfl, rfl⟩ := Act.take_ok hv
      exact .given (List.isEmpty_eq_false_iff.1 hempty.symm) hl
  | rest name span =>
    obtain ⟨_, t₁, hu, h⟩ := bind_eq_ok.1 h
    obtain ⟨_, t₂, hl, h⟩ := bind_eq_ok.1 h
    cases h
    rw [Act.unstage_ok hu] at hl
    exact .rest hl
  | keyword name default span =>
    cases default with
    | none =>
      obtain ⟨k₁, t₁, he, h⟩ := bind_eq_ok.1 h
      obtain ⟨v, t₂, hv, h⟩ := bind_eq_ok.1 h
      obtain ⟨_, t₃, hl, h⟩ := bind_eq_ok.1 h
      cases h
      exact .keywordGiven he hv hl
    | some default =>
      obtain ⟨k₁, t₁, he, h⟩ := bind_eq_ok.1 h
      obtain ⟨b, t₂, hb, h⟩ := bind_eq_ok.1 h
      obtain ⟨v, t₃, hv, h⟩ := bind_eq_ok.1 h
      obtain ⟨_, t₄, hl, h⟩ := bind_eq_ok.1 h
      cases h
      obtain ⟨hpresent, rfl⟩ := Act.hasKeyword_ok hb
      cases b with
      | true => exact .keywordGiven he hv hl
      | false => exact .keywordAbsent he hpresent.symm hv hl
  | keywordRest name span =>
    obtain ⟨k₁, t₁, he, h⟩ := bind_eq_ok.1 h
    obtain ⟨_, t₂, hl, h⟩ := bind_eq_ok.1 h
    cases h
    exact .keywordRest he hl

/-! ## Frames -/

/-- What a run leaves alone: the local variables but for some names, the arrays and the hashes with
a property, and the record of defaults, to which it may add. -/
structure Framed (names : List String) (arrays hashes : Nat → Prop) (t t' : Trail) : Prop where
  locals : ∀ n, n ∉ names → t'.local? n = t.local? n
  heap : t.heap.Keeps arrays hashes t'.heap
  defaults : ∀ e ∈ t.defaults, e ∈ t'.defaults

namespace Framed

variable {names names' : List String} {arrays hashes arrays' hashes' : Nat → Prop}
  {t t' t'' : Trail}

/-- A run that does nothing leaves everything alone. -/
theorem refl (t : Trail) : Framed names arrays hashes t t :=
  ⟨fun _ _ => rfl, .refl _, fun _ h => h⟩

/-- Two runs in a row leave alone what the second one leaves alone of what the first one does. -/
theorem trans (a : Framed names arrays hashes t t') (b : Framed names arrays' hashes' t' t'')
    (harrays : ∀ i < t.heap.arrays.size, arrays i → arrays' i)
    (hhashes : ∀ i < t.heap.hashes.size, hashes i → hashes' i) :
    Framed names arrays hashes t t'' where
  locals n hn := (b.locals n hn).trans (a.locals n hn)
  heap := a.heap.comp b.heap harrays hhashes
  defaults e he := b.defaults e (a.defaults e he)

/-- What is left alone may be forgotten in part. -/
theorem mono (a : Framed names arrays hashes t t') (hnames : ∀ n ∈ names, n ∈ names')
    (harrays : ∀ i < t.heap.arrays.size, arrays' i → arrays i)
    (hhashes : ∀ i < t.heap.hashes.size, hashes' i → hashes i) :
    Framed names' arrays' hashes' t t' where
  locals n hn := a.locals n fun h => hn (hnames n h)
  heap := a.heap.mono harrays hhashes
  defaults := a.defaults

/-- A quiet run leaves all cells and local variables alone. -/
theorem of_quiet (h : Quiet t t') : Framed names arrays hashes t t' where
  locals n _ := h.local?_eq n
  heap := h.heap.keeps
  defaults e he := by rwa [h.defaults]

/-- Setting a local variable leaves the others alone, and all cells. -/
theorem setLocal {name : String} {v : Value} {localOnly : Bool} {u : Unit}
    (h : Act.setLocal name v localOnly t = .ok u t') : Framed [name] arrays hashes t t' := by
  rw [Act.setLocal_ok h]
  refine ⟨fun n hn => ?_, ?_, fun _ he => he⟩
  · exact (t.toEnv.local?_setLocal name v localOnly n).trans
      (if_neg fun he => hn (List.mem_singleton.2 he.symm))
  · rw [Env.heap_setLocal]
    exact .refl _

/-- Binding a share leaves the variables alone that are not its own, and all cells. -/
theorem share {name : Option String} {v : Value} {localOnly : Bool} {u : Unit}
    (h : Act.share name v localOnly t = .ok u t') : Framed name.toList arrays hashes t t' := by
  cases name with
  | none =>
    cases h
    exact .refl t
  | some name => exact setLocal h

/-- Taking a value leaves all other arrays alone. -/
theorem taken (side : Side) (q : Nat) : Framed names (· ≠ q) hashes t (t.taken side q) :=
  ⟨fun _ _ => rfl, (Heap.keeps_setArray ..).mono (fun _ _ h => h) (fun _ _ _ => trivial),
    fun _ he => he⟩

/-- What is done with a value that was taken from the sequence. -/
theorem behindTaken {side : Side} {q : Nat}
    (h : Framed names (fun _ => True) (fun _ => True) (t.taken side q) t') :
    Framed names (· ≠ q) hashes t t' :=
  (taken side q).trans h (fun _ _ _ => trivial) fun _ _ _ => trivial

/-- Opening a group makes an array, and leaves those that there are alone. -/
theorem opened (items : List Value) : Framed names arrays hashes t (t.opened items) :=
  ⟨fun _ _ => rfl, (Heap.grows_newArray ..).keeps, fun _ he => he⟩

/-- Taking a keyword leaves all other hashes alone. -/
theorem takeKeyword {k : Nat} {name : String} {v : Value}
    (h : Act.takeKeyword k name t = .ok v t') : Framed names arrays (· ≠ k) t t' := by
  rw [(Act.takeKeyword_ok h).2]
  exact ⟨fun _ _ => rfl, (Heap.keeps_setHash ..).mono (fun _ _ _ => trivial) (fun _ _ h => h),
    fun _ he => he⟩

/-- Evaluating a default leaves all cells and local variables alone. -/
theorem evalDefault {name : String} {default : Expr} {v : Value}
    (h : Act.evalDefault name default t = .ok v t') : Framed names arrays hashes t t' := by
  obtain ⟨t₁, hq, rfl⟩ := Act.evalDefault_ok h
  have : Framed names arrays hashes t t₁ := of_quiet hq
  exact ⟨this.locals, this.heap, fun e he => List.mem_cons_of_mem _ (this.defaults e he)⟩

/-- Taking the keyword hash out of the sequence puts it into a new cell. -/
theorem stage {q k : Nat} (h : Act.stage q t = .ok k t') :
    Framed names (· ≠ q) hashes t t' ∧ k = t.heap.hashes.size := by
  have hset : t.heap.Keeps (· ≠ q) hashes (t.heap.setArray q (t.heap.arrayAt q).dropLast) :=
    (Heap.keeps_setArray ..).mono (fun _ _ h => h) (fun _ _ _ => trivial)
  obtain ⟨rfl, rfl⟩ := Act.stage_ok h
  refine ⟨⟨fun _ _ => rfl, ?_, fun _ he => he⟩, rfl⟩
  cases stagedHash? t.heap (t.heap.arrayAt q) with
  | some entries => exact hset.trans (Heap.grows_newHash ..).keeps
  | none => exact (Heap.grows_newHash ..).keeps

end Framed

/-! ## What tasks leave alone -/

/-- What a run of a task leaves alone: the local variables but for some names, the arrays but the
sequence, and the hashes but the staged keyword hash. A keyword hash that it stages is a new one. -/
def Task.Frames (task : Task) (names : List String) : Prop :=
  ∀ ⦃s q k t k' t'⦄, task.run s q k t = .ok k' t' →
    Framed names (· ≠ q) (fun b => s.keywordsStaged → b ≠ k) t t' ∧
      ∀ b < t.heap.hashes.size, (s.keywordsStaged → b ≠ k) →
        (s.after task.part).keywordsStaged → b ≠ k'

/-- Taking the keyword hash out of the sequence, if that is not done. -/
theorem Framed.ensureStaged (names : List String) {s : LevelState} {q k k' : Nat} {t t' : Trail}
    (h : Act.ensureStaged s q k t = .ok k' t') :
    Framed names (· ≠ q) (fun _ => True) t t' ∧
      ∀ b < t.heap.hashes.size, (s.keywordsStaged → b ≠ k) → b ≠ k' := by
  unfold Act.ensureStaged at h
  split at h
  · rename_i hs
    cases h
    exact ⟨.refl t, fun b _ hb => hb hs⟩
  · obtain ⟨hf, rfl⟩ := Framed.stage h
    exact ⟨hf, fun b hlt _ => Nat.ne_of_lt hlt⟩

/-- The frame of a task that takes from the keyword hash. -/
theorem Framed.hashed {names : List String} {s : LevelState} {q k k₁ : Nat} {t t₁ t' : Trail}
    (h : Act.ensureStaged s q k t = .ok k₁ t₁)
    (hrest : Framed names (fun _ => True) (· ≠ k₁) t₁ t') :
    Framed names (· ≠ q) (fun b => s.keywordsStaged → b ≠ k) t t' ∧
      ∀ b < t.heap.hashes.size, (s.keywordsStaged → b ≠ k) → b ≠ k₁ := by
  obtain ⟨hf, hk⟩ := Framed.ensureStaged names h
  refine ⟨Framed.trans (hf.mono (fun _ h => h) (fun _ _ h => h) fun _ _ _ => trivial) hrest
    (fun _ _ _ => trivial) hk, hk⟩

/-- The tasks for some steps of a plan. -/
def stepTasks (localOnly : Bool) (steps : List (LevelState × Param)) : List (LevelState × Task) :=
  steps.map fun step => (step.1, step.2.task localOnly)

/-- The run of a level is the run of its steps, and the check of the keyword hash at the end. -/
theorem levelAct_eq (localOnly : Bool) (ps : List Param) (q : Nat) :
    levelAct (Param.tasks localOnly ps) q =
      Act.steps q (stepTasks localOnly (Plan.ofList Param.part ps).steps) 0 >>=
        fun k => Act.unstage (Plan.ofList Param.part ps).final k := by
  have hpart : Task.part ∘ Param.task localOnly = Param.part := funext (Param.task_part localOnly)
  rw [levelAct, Param.tasks_eq, Plan.ofList_map, hpart]
  rfl

/-- A level goes well only if its steps do. -/
theorem levelAct_ok {localOnly : Bool} {ps : List Param} {q : Nat} {u : Unit} {t t' : Trail}
    (h : levelAct (Param.tasks localOnly ps) q t = .ok u t') :
    ∃ k, Act.steps q (stepTasks localOnly (Plan.ofList Param.part ps).steps) 0 t = .ok k t' := by
  rw [levelAct_eq] at h
  obtain ⟨k, t₁, hs, h⟩ := bind_eq_ok.1 h
  rw [Act.unstage_ok h]
  exact ⟨k, hs⟩

/-- The run of some steps begins with the run of the first one. -/
theorem steps_cons_ok {localOnly : Bool} {s : LevelState} {p : Param}
    {steps : List (LevelState × Param)} {q k kf : Nat} {t t' : Trail}
    (h : Act.steps q (stepTasks localOnly ((s, p) :: steps)) k t = .ok kf t') :
    ∃ k₁ t₁, (p.task localOnly).run s q k t = .ok k₁ t₁ ∧
      Act.steps q (stepTasks localOnly steps) k₁ t₁ = .ok kf t' := bind_eq_ok.1 h

/-- What the steps of a level leave alone. -/
theorem steps_framed {localOnly : Bool} {names : List String} {q : Nat}
    {steps : List (LevelState × Param)} {s final : LevelState} {k kf : Nat} {t t' : Trail}
    (hframes : ∀ step ∈ steps, (step.2.task localOnly).Frames step.2.names)
    (hnames : ∀ step ∈ steps, ∀ n ∈ step.2.names, n ∈ names)
    (hl : Plan.Linked Param.part s steps final)
    (h : Act.steps q (stepTasks localOnly steps) k t = .ok kf t') :
    Framed names (· ≠ q) (fun b => s.keywordsStaged → b ≠ k) t t' := by
  induction steps generalizing s k t with
  | nil =>
    cases h
    exact .refl _
  | cons step steps ih =>
    obtain ⟨s', p⟩ := step
    obtain ⟨⟨side, rfl⟩, hl⟩ := hl
    obtain ⟨k₁, t₁, hfirst, hrest⟩ := steps_cons_ok h
    obtain ⟨hf, hk⟩ := hframes _ List.mem_cons_self hfirst
    rw [Param.task_part] at hk
    have hrest := ih (fun step hmem => hframes step (List.mem_cons_of_mem _ hmem))
      (fun step hmem => hnames step (List.mem_cons_of_mem _ hmem)) hl hrest
    exact Framed.trans (hf.mono (hnames _ List.mem_cons_self) (fun _ _ h => h) fun _ _ h => h)
      hrest (fun _ _ h => h) hk

/-- What a level leaves alone. -/
theorem levelAct_framed {localOnly : Bool} {ps : List Param} {q : Nat} {u : Unit} {t t' : Trail}
    (hframes : ∀ p ∈ ps, (p.task localOnly).Frames p.names)
    (h : levelAct (Param.tasks localOnly ps) q t = .ok u t') :
    Framed (Param.allNames ps) (· ≠ q) (fun _ => True) t t' := by
  obtain ⟨k, h⟩ := levelAct_ok h
  have hmem : ∀ step ∈ (Plan.ofList Param.part ps).steps, step.2 ∈ ps :=
    fun step hstep => Plan.mem_of_mem_ofList hstep
  have hnames : ∀ step ∈ (Plan.ofList Param.part ps).steps, ∀ n ∈ step.2.names,
      n ∈ Param.allNames ps := fun step hstep n hn => by
    rw [Param.allNames_eq]
    exact List.mem_flatMap.2 ⟨step.2, hmem step hstep, hn⟩
  have := steps_framed (fun step hstep => hframes _ (hmem step hstep)) hnames
    (Plan.linked_ofList Param.part ps) h
  exact this.mono (fun _ h => h) (fun _ _ h => h) fun _ _ _ hs => by cases hs

/-- What the task of a parameter leaves alone. -/
theorem Param.task_frames (localOnly : Bool) (p : Param) : (p.task localOnly).Frames p.names := by
  induction p generalizing localOnly with
  | required name span =>
    intro s q k t k' t' h
    cases Param.task_ok h with
    | required hl =>
      exact ⟨.behindTaken (.setLocal hl), fun _ _ _ hs => by cases hs⟩
  | attr receiver writer span =>
    intro s q k t k' t' h
    cases Param.task_ok h with
    | attr hw =>
      exact ⟨.behindTaken (.of_quiet (Act.writeAttr_ok hw)), fun _ _ _ hs => by cases hs⟩
  | group children span ih =>
    intro s q k t k' t' h
    cases Param.task_ok h with
    | @group _ _ items _ _ hlevel =>
      have hinner := levelAct_framed (fun p hp => ih p hp true) hlevel
      have hboth : Framed (Param.allNames children) (fun _ => True) (fun _ => True)
          (t.taken s.side q) t' := by
        refine (Framed.opened items).trans hinner (fun a hlt _ => ?_) (fun _ _ h => h)
        have := t.size_taken s.side q
        omega
      exact ⟨.behindTaken hboth, fun _ _ _ hs => by cases hs⟩
  | optional name default span =>
    intro s q k t k' t' h
    cases Param.task_ok h with
    | given _ hl =>
      exact ⟨.behindTaken (.setLocal hl), fun _ _ _ hs => by cases hs⟩
    | absent _ hv hl =>
      exact ⟨(Framed.evalDefault hv).trans (.setLocal hl) (fun _ _ h => h) (fun _ _ h => h),
        fun _ _ _ hs => by cases hs⟩
  | rest name span =>
    intro s q k t k' t' h
    cases Param.task_ok h with
    | rest hl => exact ⟨.share hl, fun _ _ _ hs => by cases hs⟩
  | keyword name default span =>
    intro s q k t k' t' h
    cases Param.task_ok h with
    | keywordGiven he hv hl =>
      have hvalue : Framed [name] (fun _ => True) (· ≠ k') _ t' :=
        (Framed.takeKeyword hv).trans (.setLocal hl) (fun _ _ h => h) (fun _ _ h => h)
      obtain ⟨hf, hk⟩ := Framed.hashed he hvalue
      exact ⟨hf, fun b hlt hb _ => hk b hlt hb⟩
    | keywordAbsent he _ hv hl =>
      have hvalue : Framed [name] (fun _ => True) (· ≠ k') _ t' :=
        (Framed.evalDefault hv).trans (.setLocal hl) (fun _ _ h => h) (fun _ _ h => h)
      obtain ⟨hf, hk⟩ := Framed.hashed he hvalue
      exact ⟨hf, fun b hlt hb _ => hk b hlt hb⟩
  | keywordRest name span =>
    intro s q k t k' t' h
    cases Param.task_ok h with
    | keywordRest he hl =>
      obtain ⟨hf, hk⟩ := Framed.hashed he (.share hl)
      exact ⟨hf, fun b hlt hb _ => hk b hlt hb⟩

/-! ## What tasks do to the hand -/

/-- A level holds a hand: the sequence and the keyword hash have its contents. The keyword hash is a
cell from `base` on. -/
structure Holds (base q k : Nat) (hand : Hand) (t : Trail) : Prop where
  sequence_lt : q < t.heap.arrays.size
  sequence_eq : t.heap.arrayAt q = hand.items
  base_le : base ≤ t.heap.hashes.size
  keywords : ∀ entries, hand.keywords = some entries →
    base ≤ k ∧ k < t.heap.hashes.size ∧ t.heap.hashAt k = entries

section

variable {base q k : Nat} {hand : Hand} {t t' : Trail}

/-- A run that leaves the sequence and the keyword hash alone. -/
theorem Holds.framed (hh : Holds base q k hand t) {names : List String}
    {arrays hashes : Nat → Prop} (hf : Framed names arrays hashes t t') (hq : arrays q)
    (hk : hashes k) : Holds base q k hand t' where
  sequence_lt := Nat.lt_of_lt_of_le hh.sequence_lt hf.heap.arrays_le
  sequence_eq := (hf.heap.arrayAt_eq q hh.sequence_lt hq).trans hh.sequence_eq
  base_le := Nat.le_trans hh.base_le hf.heap.hashes_le
  keywords entries he := by
    obtain ⟨hb, hlt, hat⟩ := hh.keywords entries he
    exact ⟨hb, Nat.lt_of_lt_of_le hlt hf.heap.hashes_le,
      (hf.heap.hashAt_eq k hlt hk).trans hat⟩

/-- A local variable that is set. -/
theorem Holds.setLocal (hh : Holds base q k hand t) {name : String} {v : Value} {localOnly : Bool}
    {u : Unit} (h : Act.setLocal name v localOnly t = .ok u t') : Holds base q k hand t' := by
  have hf : Framed [name] (fun _ => True) (fun _ => True) t t' := .setLocal h
  exact hh.framed hf trivial trivial

/-- A default that is evaluated. -/
theorem Holds.evalDefault (hh : Holds base q k hand t) {name : String} {default : Expr} {v : Value}
    (h : Act.evalDefault name default t = .ok v t') : Holds base q k hand t' := by
  have hf : Framed [] (fun _ => True) (fun _ => True) t t' := .evalDefault h
  exact hh.framed hf trivial trivial

/-- A name that is bound, if there is one. -/
theorem Holds.share (hh : Holds base q k hand t) {name : Option String} {v : Value}
    {localOnly : Bool} {u : Unit} (h : Act.share name v localOnly t = .ok u t') :
    Holds base q k hand t' := by
  have hf : Framed name.toList (fun _ => True) (fun _ => True) t t' := .share h
  exact hh.framed hf trivial trivial

/-- Other contents of the sequence. -/
theorem Holds.setArray (hh : Holds base q k hand t) (items : List Value) :
    Holds base q k ⟨items, hand.keywords⟩ { t with heap := t.heap.setArray q items } where
  sequence_lt := Nat.lt_of_lt_of_le hh.sequence_lt (t.heap.keeps_setArray q items).arrays_le
  sequence_eq := Heap.arrayAt_setArray hh.sequence_lt items
  base_le := hh.base_le
  keywords := hh.keywords

/-- Other contents of the keyword hash. -/
theorem Holds.setHash {entries : Entries Key Value} (hh : Holds base q k hand t)
    (he : hand.keywords = some entries) (entries' : Entries Key Value) :
    Holds base q k ⟨hand.items, some entries'⟩ { t with heap := t.heap.setHash k entries' } where
  sequence_lt := hh.sequence_lt
  sequence_eq := hh.sequence_eq
  base_le := Nat.le_trans hh.base_le (t.heap.keeps_setHash k entries').hashes_le
  keywords entries'' heq := by
    cases heq
    obtain ⟨hb, hlt, -⟩ := hh.keywords entries he
    exact ⟨hb, Nat.lt_of_lt_of_le hlt (t.heap.keeps_setHash k entries').hashes_le,
      Heap.hashAt_setHash hlt entries'⟩

/-- A new keyword hash. -/
theorem Holds.newHash (hh : Holds base q k hand t) (entries : Entries Key Value) :
    Holds base q t.heap.hashes.size ⟨hand.items, some entries⟩
      { t with heap := (t.heap.newHash entries).2 } where
  sequence_lt := hh.sequence_lt
  sequence_eq := hh.sequence_eq
  base_le := Nat.le_trans hh.base_le (t.heap.grows_newHash entries).hashes_le
  keywords entries' heq := by
    cases heq
    refine ⟨hh.base_le, ?_, t.heap.hashAt_newHash entries⟩
    simp [Heap.newHash]

/-- Taking the keyword hash out of the sequence opens the hand. -/
theorem Holds.ensureStaged {h₀ : Heap} {s : LevelState} {k' : Nat} (hh : Holds base q k hand t)
    (h : Act.ensureStaged s q k t = .ok k' t') (hs : s.keywordsStaged = hand.keywords.isSome)
    (hstage : stagedHash? t.heap hand.items = stagedHash? h₀ hand.items) :
    Holds base q k' (hand.opened h₀) t' ∧ (hand.keywords.isSome → k' = k) := by
  unfold Act.ensureStaged at h
  cases hk : hand.keywords with
  | some entries =>
    have hs : s.keywordsStaged = true := by rw [hs, hk]; rfl
    rw [if_pos hs] at h
    cases h
    rw [Hand.opened_of_some hk]
    exact ⟨hh, fun _ => rfl⟩
  | none =>
    have hs : s.keywordsStaged = false := by rw [hs, hk]; rfl
    rw [hs, if_neg Bool.false_ne_true] at h
    obtain ⟨rfl, rfl⟩ := Act.stage_ok h
    refine ⟨?_, fun hsome => by cases hsome⟩
    rw [Hand.opened, hk, ← hstage, hh.sequence_eq]
    cases stagedHash? t.heap hand.items with
    | some entries => exact (hh.setArray hand.items.dropLast).newHash entries
    | none => exact hh.newHash []

/-- Taking a value from the sequence. -/
theorem Holds.taken (hh : Holds base q k hand t) (side : Side) :
    Holds base q k ⟨side.others hand.items, hand.keywords⟩ (t.taken side q) := by
  rw [Trail.taken, hh.sequence_eq]
  exact hh.setArray _

/-- Taking a value from the keyword hash. -/
theorem Holds.takeKeyword {items : List Value} {entries : Entries Key Value}
    (hh : Holds base q k ⟨items, some entries⟩ t) {name : String} {v : Value}
    (h : Act.takeKeyword k name t = .ok v t') : entries.get? (.sym name) = some v ∧
      Holds base q k ⟨items, some (entries.erase (.sym name))⟩ t' := by
  obtain ⟨hv, rfl⟩ := Act.takeKeyword_ok h
  obtain ⟨-, -, hat⟩ := hh.keywords entries rfl
  rw [hat] at hv ⊢
  exact ⟨hv, hh.setHash rfl _⟩

/-- **Hands.** The task of a parameter does to the sequence and the keyword hash what is said of the
hand. -/
theorem Param.task_holds {localOnly : Bool} {h₀ : Heap} {s : LevelState} {k' : Nat} (p : Param)
    (hh : Holds base q k hand t) (h : (p.task localOnly).run s q k t = .ok k' t')
    (hs : p.isKeyword = true → s.keywordsStaged = hand.keywords.isSome)
    (hstage : p.isKeyword = true → stagedHash? t.heap hand.items = stagedHash? h₀ hand.items) :
    Holds base q k' (hand.after h₀ s.side p) t' ∧ (hand.keywords.isSome → k' = k) := by
  have hopened : hand.opened h₀ = ⟨(hand.opened h₀).items, some (hand.opened h₀).entries⟩ := by
    rw [← Hand.keywords_opened]
  cases Param.task_ok h with
  | required hl => exact ⟨(hh.taken s.side).setLocal hl, fun _ => rfl⟩
  | attr hw =>
    have hf : Framed [] (fun _ => True) (fun _ => True) _ t' := .of_quiet (Act.writeAttr_ok hw)
    exact ⟨(hh.taken s.side).framed hf trivial trivial, fun _ => rfl⟩
  | @group children span items _ _ hlevel =>
    have ho : Framed [] (fun _ => True) (fun _ => True) _ ((t.taken s.side q).opened items) :=
      .opened items
    have hf := levelAct_framed (fun p _ => p.task_frames true) hlevel
    refine ⟨((hh.taken s.side).framed ho trivial trivial).framed hf ?_ trivial, fun _ => rfl⟩
    exact Nat.ne_of_lt hh.sequence_lt
  | given _ hl => exact ⟨(hh.taken .left).setLocal hl, fun _ => rfl⟩
  | @absent name default span _ _ _ hempty hv hl =>
    rw [hh.sequence_eq] at hempty
    have hafter : hand.after h₀ s.side (.optional name default span) = hand := by
      cases hand
      cases hempty
      rfl
    rw [hafter]
    exact ⟨(hh.evalDefault hv).setLocal hl, fun _ => rfl⟩
  | rest hl => exact ⟨hh.share hl, fun _ => rfl⟩
  | keywordGiven he hv hl =>
    obtain ⟨hh₁, hk⟩ := hh.ensureStaged he (hs rfl) (hstage rfl)
    rw [hopened] at hh₁
    exact ⟨(hh₁.takeKeyword hv).2.setLocal hl, hk⟩
  | @keywordAbsent name default span _ _ _ _ _ he hpresent hv hl =>
    obtain ⟨hh₁, hk⟩ := hh.ensureStaged he (hs rfl) (hstage rfl)
    rw [hopened] at hh₁
    rw [(hh₁.keywords _ rfl).2.2] at hpresent
    have hnone := Entries.get?_of_not_contains (Bool.not_eq_true _ ▸ hpresent)
    have hafter : hand.after h₀ s.side (.keyword name (some default) span) =
        ⟨(hand.opened h₀).items, some (hand.opened h₀).entries⟩ := by
      rw [Hand.after, Entries.erase_of_get?_eq_none hnone]
    rw [hafter]
    exact ⟨(hh₁.evalDefault hv).setLocal hl, hk⟩
  | keywordRest he hl =>
    obtain ⟨hh₁, hk⟩ := hh.ensureStaged he (hs rfl) (hstage rfl)
    exact ⟨hh₁.share hl, hk⟩

end

end Formals
