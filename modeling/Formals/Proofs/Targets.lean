import Formals.Proofs.Order
import Formals.Proofs.Runs

/-!
# Runs of targets

The targets of a level are assigned from the left up to the splat and then from the right
(`Target.turns_cases`). A target `receive`s a value: the next value of the sequence, or the sequence
itself if it is a splat (`Target.task_ok`). What it leaves alone are all local and global variables
that are not among its own, and all arrays that there were (`Target.receive_assigns`).
-/

namespace Formals

open Machine

/-! ## Checked targets -/

namespace Target

/-- What a splat may stand for: a variable or an attribute. -/
def MaySplat : Target → Prop
  | var .. => True
  | attr _ writer _ => isWriterName writer = true
  | nested .. | rest .. => False

mutual
/-- A target as the check lets it through: there is at most one splat on each level, it stands for a
variable or an attribute, and attributes are written by writers. -/
def Checked : Target → Prop
  | var .. => True
  | nested children _ => Phase.leading.Accepts (children.map part) ∧ AllChecked children
  | rest target _ => ∀ x ∈ target, x.MaySplat
  | attr _ writer _ => isWriterName writer = true

/-- All of some targets are checked. -/
def AllChecked : List Target → Prop
  | [] => True
  | x :: xs => x.Checked ∧ AllChecked xs
end

/-- Targets are checked if each of them is. -/
theorem allChecked_iff {ts : List Target} : AllChecked ts ↔ ∀ x ∈ ts, x.Checked := by
  induction ts with
  | nil => simp [AllChecked]
  | cons x xs ih => simp [AllChecked, ih]

end Target

/-- A variable that passes the check is kept as it is. -/
theorem checkVariable_ok {kind : VariableKind} {name : String} {span : Span} {x : Target}
    (h : checkVariable kind name span = .ok x) : x = .var kind name span := by
  unfold checkVariable at h
  split at h <;> cases h
  rfl

/-- An attribute that passes the check is kept as it is, and its method is a writer. -/
theorem checkAttribute_ok {receiver : Expr} {writer : String} {span : Span} {x : Target}
    (h : checkAttribute receiver writer span = .ok x) :
    x = .attr receiver writer span ∧ isWriterName writer = true := by
  obtain ⟨_, hw, h⟩ := ok_of_bind h
  cases h
  unfold checkWriter at hw
  split at hw
  · rename_i hwriter
    exact ⟨rfl, hwriter⟩
  · cases hw

/-- What passes the check behind a star may stand there. -/
theorem checkSplatTarget_ok {splat : Span} {node : TargetNode} {x : Target}
    (h : checkSplatTarget splat node = .ok x) : x.MaySplat := by
  cases node with
  | var kind name span =>
    rw [checkVariable_ok h]
    trivial
  | attr receiver writer span =>
    obtain ⟨rfl, hwriter⟩ := checkAttribute_ok h
    exact hwriter
  | nested | splat | malformed => cases h

/-- The phase of a level of targets on which a splat has been seen or not. -/
def splatPhase (seen : Bool) : Phase := if seen then .afterRest else .leading

/-- What a level begins with has to pass the check, and after a splat it may not be another one. -/
theorem TargetNode.checkLevel_cons_ok_iff {parent : Span} {seen : Bool} {node : TargetNode}
    {others : List TargetNode} {ts : List Target} :
    checkLevel parent seen (node :: others) = .ok ts ↔ (node.isSplat = true → seen = false) ∧
      ∃ x xs, node.check parent = .ok x ∧
        checkLevel parent (seen || node.isSplat) others = .ok xs ∧ ts = x :: xs := by
  have hbody : (do
      let x ← node.check parent
      return x :: (← checkLevel parent (seen || node.isSplat) others)) = Except.ok ts ↔
      ∃ x xs, node.check parent = .ok x ∧
        checkLevel parent (seen || node.isSplat) others = .ok xs ∧ ts = x :: xs := by
    constructor
    · intro h
      obtain ⟨x, hx, h⟩ := ok_of_bind h
      obtain ⟨xs, hxs, h⟩ := ok_of_bind h
      cases h
      exact ⟨x, xs, hx, hxs, rfl⟩
    · rintro ⟨x, xs, hx, hxs, rfl⟩
      rw [hx, hxs]
      rfl
  cases node with
  | splat target span =>
    rw [checkLevel]
    cases seen with
    | true => exact iff_of_false nofun fun h => nomatch h.1 rfl
    | false => exact hbody.trans (and_iff_right fun _ => rfl).symm
  | _ =>
    rw [checkLevel]
    · exact hbody.trans (and_iff_right nofun).symm
    · exact nofun

mutual
/-- A target that passes the check. -/
theorem TargetNode.check_checked (parent : Span) : ∀ (node : TargetNode) {x : Target},
    node.check parent = .ok x → x.Checked ∧ x.part = if node.isSplat then .rest else .positional
  | .var kind name span, x, h => by
    rw [check] at h
    rw [checkVariable_ok h]
    exact ⟨trivial, rfl⟩
  | .nested children span, x, h => by
    rw [check] at h
    cases hempty : children.isEmpty with
    | true =>
      rw [hempty] at h
      cases h
    | false =>
      rw [hempty] at h
      obtain ⟨ts, hts, h⟩ := ok_of_bind h
      cases h
      exact ⟨TargetNode.checkLevel_checked span false children hts, rfl⟩
  | .splat none span, x, h => by
    cases h
    exact ⟨nofun, rfl⟩
  | .splat (some target) span, x, h => by
    obtain ⟨inner, hi, h⟩ := ok_of_bind h
    cases h
    refine ⟨fun y hy => ?_, rfl⟩
    cases hy
    exact checkSplatTarget_ok hi
  | .attr receiver writer span, x, h => by
    rw [check] at h
    obtain ⟨rfl, hwriter⟩ := checkAttribute_ok h
    exact ⟨hwriter, rfl⟩
  | .malformed raw, x, h => by cases h

/-- The targets of a level that passes the check. -/
theorem TargetNode.checkLevel_checked (parent : Span) (seen : Bool) :
    ∀ (nodes : List TargetNode) {ts : List Target},
      TargetNode.checkLevel parent seen nodes = .ok ts →
      (splatPhase seen).Accepts (ts.map Target.part) ∧ Target.AllChecked ts
  | [], ts, h => by
    cases h
    exact ⟨trivial, trivial⟩
  | node :: others, ts, h => by
    obtain ⟨honce, x, xs, hx, hxs, rfl⟩ := TargetNode.checkLevel_cons_ok_iff.1 h
    obtain ⟨hchecked, hpart⟩ := TargetNode.check_checked parent node hx
    obtain ⟨hacc, hall⟩ := TargetNode.checkLevel_checked parent _ others hxs
    refine ⟨⟨_, ?_, hacc⟩, hchecked, hall⟩
    rw [hpart]
    cases hs : node.isSplat with
    | true =>
      rw [honce hs]
      rfl
    | false => cases seen <;> rfl
end

/-- The targets of a list that passes the check. -/
theorem TargetList.check_checked {list : TargetList} {ts : List Target} (h : list.check = .ok ts) :
    Phase.leading.Accepts (ts.map Target.part) ∧ Target.AllChecked ts :=
  TargetNode.checkLevel_checked list.span false list.nodes h

/-! ## The order of a level -/

namespace Target

/-- No target plays the part of an optional or keyword parameter or of a keyword rest. -/
theorem part_ne (x : Target) : x.part ≠ .optional ∧ x.part ≠ .keyword ∧ x.part ≠ .keywordRest := by
  cases x <;> simp [part]

/-- Targets none of which is a splat are assigned from the left. Otherwise those before the splat
are, then the splat, and then those behind it, from the right. -/
theorem turns_cases {ts : List Target} (hacc : Phase.leading.Accepts (ts.map part)) :
    ((∀ x ∈ ts, x.part = .positional) ∧
      (Plan.ofList part ts).turns = Shape.sided .left ts) ∨
    ∃ front splat back, ts = front ++ splat :: back ∧ splat.part = .rest ∧
      (∀ x ∈ front ++ back, x.part = .positional) ∧ (Plan.ofList part ts).turns =
        Shape.sided .left front ++ (.left, splat) :: Shape.sided .right back.reverse := by
  obtain ⟨s⟩ := exists_shape hacc
  have hnil : ∀ {p : Part} {xs : List Target}, (∀ x ∈ xs, x.part = p) →
      p = .optional ∨ p = .keyword ∨ p = .keywordRest → xs = [] := by
    intro p xs hxs hp
    refine List.eq_nil_iff_forall_not_mem.2 fun x hx => ?_
    have := hxs x hx
    have := x.part_ne
    rcases hp with rfl | rfl | rfl <;> simp_all
  -- of the shape only the leading targets, the splat and those behind it are left
  have ho := hnil s.part_optionals (.inl rfl)
  have hm := s.middle_nil ho
  have hk := hnil s.part_keywords (.inr (.inl rfl))
  have hr : s.keywordRest.toList = [] :=
    hnil (fun x hx => s.part_keywordRest x (Option.mem_toList.1 hx)) (.inr (.inr rfl))
  have hitems := s.items_eq
  rw [ho, hm, hk, hr] at hitems
  have hturns : (Plan.ofList part ts).turns = s.turns := s.turns_eq.1
  cases hrest : s.rest with
  | none =>
    rw [hrest, s.tail_nil hrest] at hitems
    simp only [Option.toList_none, List.append_nil] at hitems
    refine .inl ⟨hitems ▸ s.part_leading, hturns.trans ?_⟩
    simp [Shape.turns, Shape.behind, Shape.hashed, ho, hk, hr, hrest, s.tail_nil hrest,
      ← hitems, Shape.sided]
  | some splat =>
    rw [hrest] at hitems
    refine .inr ⟨s.leading, splat, s.tail, by simpa using hitems, s.part_rest splat hrest,
      fun x hx => (List.mem_append.1 hx).elim (s.part_leading x) (s.part_tail x), hturns.trans ?_⟩
    simp [Shape.turns, Shape.behind, Shape.hashed, ho, hk, hr, hrest, Shape.sided]

end Target

/-! ## What targets receive -/

/-- What a target does with the value that it receives. -/
def Target.receive (v : Value) : Target → Act Unit
  | .var kind name _ => Act.assign kind name v
  | .nested children _ => takeApart (Target.tasks children) v
  | .rest none _ => return ()
  | .rest (some target) _ => splatAct v target
  | .attr receiver writer _ => Act.writeAttr receiver writer v

/-- The tasks for some steps of a plan for targets. -/
def targetTasks (steps : List (LevelState × Target)) : List (LevelState × Task) :=
  steps.map fun step => (step.1, step.2.task)

section

variable {s : LevelState} {q k k' : Nat} {t t' : Trail} {x : Target}

/-- The task of a target that goes well: a splat receives the sequence, any other target the next
value of it. -/
theorem Target.task_ok (h : x.task.run s q k t = .ok k' t') : k' = k ∧
    (x.part = .positional ∧
        x.receive (s.side.next (t.heap.arrayAt q)) (t.taken s.side q) = .ok () t' ∨
      x.part = .rest ∧ x.receive (.array q) t = .ok () t') := by
  cases x with
  | var | nested | attr =>
    obtain ⟨hk, hb⟩ := Task.positional_ok h
    exact ⟨hk, .inl ⟨rfl, hb⟩⟩
  | rest target span =>
    cases target with
    | none =>
      cases h
      exact ⟨rfl, .inr ⟨rfl, rfl⟩⟩
    | some target =>
      obtain ⟨_, t₁, hr, h⟩ := bind_eq_ok.1 h
      cases h
      exact ⟨rfl, .inr ⟨rfl, hr⟩⟩

/-- The run of some steps begins with the run of the first one. -/
theorem targetSteps_cons_ok {steps : List (LevelState × Target)}
    (h : Act.steps q (targetTasks ((s, x) :: steps)) k t = .ok k' t') :
    ∃ k₁ t₁, x.task.run s q k t = .ok k₁ t₁ ∧ Act.steps q (targetTasks steps) k₁ t₁ = .ok k' t' :=
  bind_eq_ok.1 h

/-- The run of a level is the run of its steps. -/
theorem targetLevel_ok {ts : List Target} {u : Unit}
    (h : levelAct (Target.tasks ts) q t = .ok u t') :
    ∃ k, Act.steps q (targetTasks (Plan.ofList Target.part ts).steps) 0 t = .ok k t' := by
  have hpart : Task.part ∘ Target.task = Target.part := funext Target.task_part
  rw [levelAct, Target.tasks_eq, Plan.ofList_map, hpart] at h
  obtain ⟨k, t₁, hs, h⟩ := bind_eq_ok.1 h
  rw [Act.unstage_ok h]
  exact ⟨k, hs⟩

/-- What is taken apart are the elements of a value, in a new array. -/
theorem takeApart_ok {tasks : List Task} {v : Value} {u : Unit}
    (h : takeApart tasks v t = .ok u t') : ∃ items, v.elements t.heap = .ok items ∧
      levelAct tasks t.heap.arrays.size (t.opened items) = .ok () t' := by
  obtain ⟨items, t₁, he, h⟩ := bind_eq_ok.1 h
  obtain ⟨q, t₂, hq, h⟩ := bind_eq_ok.1 h
  obtain ⟨hitems, rfl⟩ := Act.elements_ok he
  cases hq
  exact ⟨items, hitems, h⟩

end

/-! ## Variables -/

namespace Target

mutual
/-- The variables that a target assigns. -/
def vars : Target → List (VariableKind × String)
  | var kind name _ => [(kind, name)]
  | nested children _ => allVars children
  | rest (some (var kind name _)) _ => [(kind, name)]
  | rest .. | attr .. => []

/-- The variables that some targets assign. -/
def allVars : List Target → List (VariableKind × String)
  | [] => []
  | x :: xs => x.vars ++ allVars xs
end

/-- The variables that targets assign are those of each of them. -/
theorem allVars_eq (ts : List Target) : allVars ts = ts.flatMap vars := by
  induction ts with
  | nil => rfl
  | cons x ts ih => rw [allVars, ih, List.flatMap_cons]

end Target

/-! ## Frames -/

/-- What a run leaves alone: the local and global variables but for some, and the arrays with a
property. -/
structure Assigns (vars : List (VariableKind × String)) (arrays : Nat → Prop) (t t' : Trail) :
    Prop where
  locals : ∀ n, (.ofScope, n) ∉ vars → t'.local? n = t.local? n
  globals : ∀ n, (.ofProgram, n) ∉ vars → t'.global? n = t.global? n
  heap : t.heap.Keeps arrays (fun _ => True) t'.heap

namespace Assigns

variable {vars vars' : List (VariableKind × String)} {arrays arrays' : Nat → Prop}
  {t t' t'' : Trail}

/-- Doing nothing leaves everything alone. -/
theorem refl (t : Trail) : Assigns vars arrays t t := ⟨fun _ _ => rfl, fun _ _ => rfl, .refl _⟩

/-- Two runs one after the other leave alone what each of them does. -/
theorem trans (a : Assigns vars arrays t t') (b : Assigns vars arrays' t' t'')
    (harrays : ∀ i < t.heap.arrays.size, arrays i → arrays' i) : Assigns vars arrays t t'' where
  locals n hn := (b.locals n hn).trans (a.locals n hn)
  globals n hn := (b.globals n hn).trans (a.globals n hn)
  heap := a.heap.comp b.heap harrays fun _ _ h => h

/-- A run leaves all the more alone if more variables and fewer arrays are named. -/
theorem mono (a : Assigns vars arrays t t') (hvars : ∀ v ∈ vars, v ∈ vars')
    (harrays : ∀ i < t.heap.arrays.size, arrays' i → arrays i) : Assigns vars' arrays' t t' where
  locals n hn := a.locals n fun h => hn (hvars _ h)
  globals n hn := a.globals n fun h => hn (hvars _ h)
  heap := a.heap.mono harrays fun _ _ h => h

/-- A run that changes no variable and no array leaves everything alone. -/
theorem of_quiet (h : Quiet t t') : Assigns vars arrays t t' where
  locals n _ := h.local?_eq n
  globals n _ := congrArg (Entries.get? n) h.globals
  heap := h.heap.keeps

/-- Taking an item from an array leaves all other arrays alone. -/
theorem taken (side : Side) (q : Nat) : Assigns vars (· ≠ q) t (t.taken side q) :=
  ⟨fun _ _ => rfl, fun _ _ => rfl,
    (Heap.keeps_setArray ..).mono (fun _ _ h => h) fun _ _ _ => trivial⟩

/-- A new array leaves everything alone that there was. -/
theorem opened (items : List Value) : Assigns vars arrays t (t.opened items) :=
  ⟨fun _ _ => rfl, fun _ _ => rfl, (Heap.grows_newArray ..).keeps⟩

/-- Setting a local variable leaves all else alone. -/
theorem setLocal {name : String} {v : Value} {u : Unit}
    (h : Act.setLocal name v false t = .ok u t') : Assigns [(.ofScope, name)] arrays t t' := by
  rw [Act.setLocal_ok h]
  refine ⟨fun n hn => ?_, fun n _ => ?_, ?_⟩
  · exact (t.toEnv.local?_setLocal name v false n).trans
      (if_neg fun he => hn (List.mem_singleton.2 (by rw [he])))
  · exact congrArg (Entries.get? n) (t.toEnv.globals_setLocal name v false)
  · rw [Env.heap_setLocal]
    exact .refl _

/-- Setting an instance variable leaves the local and global variables and the arrays alone. -/
theorem setInstance {name : String} {v : Value} {u : Unit}
    (h : Act.setInstance name v t = .ok u t') : Assigns vars arrays t t' := by
  unfold Act.setInstance at h
  split at h <;> cases h
  exact ⟨fun _ _ => rfl, fun _ _ => rfl, (Heap.grows_setVariable ..).keeps⟩

/-- Setting a global variable leaves all else alone. -/
theorem setGlobal {name : String} {v : Value} {u : Unit}
    (h : Act.setGlobal name v t = .ok u t') : Assigns [(.ofProgram, name)] arrays t t' := by
  cases h
  refine ⟨fun _ _ => rfl, fun n hn => ?_, .refl _⟩
  exact (Entries.get?_insert name n v t.globals).trans
    (if_neg fun he => hn (List.mem_singleton.2 (by rw [he])))

/-- Assigning a variable leaves the other variables and the arrays alone. -/
theorem assign {kind : VariableKind} {name : String} {v : Value} {u : Unit}
    (h : Act.assign kind name v t = .ok u t') : Assigns [(kind, name)] arrays t t' := by
  cases kind with
  | ofScope => exact setLocal h
  | ofInstance => exact setInstance h
  | ofProgram => exact setGlobal h

end Assigns

/-- A target assigns its variables and leaves the arrays alone that there are. -/
def Target.Frames (x : Target) : Prop :=
  ∀ ⦃v t t'⦄, x.receive v t = .ok () t' → Assigns x.vars (fun _ => True) t t'

/-- What the steps of a level of targets leave alone. -/
theorem targetSteps_assign {steps : List (LevelState × Target)} {q k k' : Nat} {t t' : Trail}
    (hx : ∀ step ∈ steps, step.2.Frames)
    (h : Act.steps q (targetTasks steps) k t = .ok k' t') :
    Assigns (Target.allVars (steps.map Prod.snd)) (· ≠ q) t t' := by
  induction steps generalizing k t with
  | nil =>
    cases h
    exact .refl _
  | cons step steps ih =>
    obtain ⟨s, x⟩ := step
    obtain ⟨k₁, t₁, hfirst, hrest⟩ := targetSteps_cons_ok h
    have hframes : x.Frames := hx _ List.mem_cons_self
    have hstep : Assigns x.vars (· ≠ q) t t₁ := by
      rcases (Target.task_ok hfirst).2 with ⟨-, hr⟩ | ⟨-, hr⟩
      · exact (Assigns.taken s.side q).trans (hframes hr) fun _ _ _ => trivial
      · exact (hframes hr).mono (fun _ h => h) fun _ _ _ => trivial
    have hlater := ih (fun step hmem => hx step (List.mem_cons_of_mem _ hmem)) hrest
    rw [List.map_cons, Target.allVars]
    exact (hstep.mono (fun _ h => List.mem_append_left _ h) fun _ _ h => h).trans
      (hlater.mono (fun _ h => List.mem_append_right _ h) fun _ _ h => h) fun _ _ h => h

/-- What a level of targets leaves alone. -/
theorem targetLevel_assign {ts : List Target} {q : Nat} {u : Unit} {t t' : Trail}
    (hx : ∀ x ∈ ts, x.Frames) (h : levelAct (Target.tasks ts) q t = .ok u t') :
    Assigns (Target.allVars ts) (· ≠ q) t t' := by
  obtain ⟨k, h⟩ := targetLevel_ok h
  have hmem : ∀ step ∈ (Plan.ofList Target.part ts).steps, step.2 ∈ ts :=
    fun step hstep => Plan.mem_of_mem_ofList hstep
  refine (targetSteps_assign (fun step hstep => hx _ (hmem step hstep)) h).mono
    (fun v hv => ?_) fun _ _ h => h
  rw [Target.allVars_eq, List.mem_flatMap] at hv ⊢
  obtain ⟨x, hx, hv⟩ := hv
  obtain ⟨step, hstep, rfl⟩ := List.mem_map.1 hx
  exact ⟨_, hmem step hstep, hv⟩

/-- What a target leaves alone. -/
theorem Target.receive_assigns (x : Target) : x.Frames := by
  induction x with
  | var kind name span => exact fun _ _ _ h => .assign h
  | nested children span ih =>
    intro v t t' h
    obtain ⟨items, -, hlevel⟩ := takeApart_ok h
    exact (Assigns.opened items).trans (targetLevel_assign ih hlevel) fun i hlt _ =>
      Nat.ne_of_lt hlt
  | rest target span =>
    intro v t t' h
    cases target with
    | none =>
      cases h
      exact .refl t
    | some target =>
      cases target with
      | var kind name span => exact .assign h
      | attr receiver writer span => exact .of_quiet (Act.writeAttr_ok h)
      | nested | rest =>
        cases h
        exact .refl t
  | attr receiver writer span => exact fun _ _ _ h => .of_quiet (Act.writeAttr_ok h)

end Formals
