import Formals.Proofs.Definedness

/-!
# Runs with nothing to give

Where binding finds only `nil`, every default is evaluated. So if all defaults are `nil` or a local
variable, then the run of a level fails only with an undefined variable, and if it goes well then
every variable that a default reads was defined (`Param.Exposes`).
-/

namespace Formals

open Machine

/-! ## Steps and slots by their places -/

/-- The run of steps in two parts. -/
theorem steps_append_ok {localOnly : Bool} {a b : List (LevelState × Param)} {q k k' : Nat}
    {t t' : Trail} (h : Act.steps q (stepTasks localOnly (a ++ b)) k t = .ok k' t') :
    ∃ k₁ t₁, Act.steps q (stepTasks localOnly a) k t = .ok k₁ t₁ ∧
      Act.steps q (stepTasks localOnly b) k₁ t₁ = .ok k' t' := by
  induction a generalizing k t with
  | nil => exact ⟨k, t, rfl, h⟩
  | cons step a ih =>
    obtain ⟨k₁, t₁, hfirst, hrest⟩ := steps_cons_ok h
    obtain ⟨k₂, t₂, ha, hb⟩ := ih hrest
    exact ⟨k₂, t₂, bind_eq_ok.2 ⟨k₁, t₁, hfirst, ha⟩, hb⟩

/-- An item of a flattened list comes from an item of the list. -/
theorem flatMap_eq_append_cons {α β : Type} {f : α → List β} {xs : List α} {pre post : List β}
    {x : β} (h : xs.flatMap f = pre ++ x :: post) : ∃ front y back u v,
      xs = front ++ y :: back ∧ f y = u ++ x :: v ∧ pre = front.flatMap f ++ u := by
  induction xs generalizing pre with
  | nil => simp at h
  | cons z xs ih =>
    rw [List.flatMap_cons] at h
    rcases Shape.split_cases h with ⟨v, hz, -⟩ | ⟨c, rfl, hrest⟩
    · exact ⟨[], z, xs, pre, v, rfl, hz, rfl⟩
    · obtain ⟨front, y, back, u, v, rfl, hy, rfl⟩ := ih hrest
      exact ⟨z :: front, y, back, u, v, rfl, hy, by rw [List.flatMap_cons, List.append_assoc]⟩

/-- The slots before one of a level. -/
theorem Param.levelSlots_split {earlier : List String} {ps : List Param} {pre post : List Slot}
    {x : Slot} (h : Param.levelSlots earlier ps = pre ++ x :: post) : ∃ front step back u v,
      Param.placedSteps earlier ps = front ++ step :: back ∧ Param.stepSlots step = u ++ x :: v ∧
        pre = front.flatMap Param.stepSlots ++ u := by
  rw [Param.levelSlots_eq] at h
  exact flatMap_eq_append_cons h

/-! ## Simple defaults -/

/-- An expression that is `nil` or a local variable. -/
def Expr.Simple (e : Expr) : Prop := e = .nil ∨ ∃ name, e = .localVar name

mutual
/-- A parameter all of whose defaults are simple, and which has no attribute in it. -/
def Param.Simple : Param → Prop
  | .optional _ default _ | .keyword _ (some default) _ => default.Simple
  | .group children _ => Param.AllSimple children
  | .attr .. => False
  | _ => True

/-- All of some parameters are simple. -/
def Param.AllSimple : List Param → Prop
  | [] => True
  | p :: ps => p.Simple ∧ Param.AllSimple ps
end

/-- Some parameters are simple if each of them is. -/
theorem Param.allSimple_iff {ps : List Param} : Param.AllSimple ps ↔ ∀ p ∈ ps, p.Simple := by
  induction ps with
  | nil => simp [Param.AllSimple]
  | cons p ps ih => simp [Param.AllSimple, ih]

/-- A simple expression fails only with an undefined variable. -/
theorem Expr.Simple.error {e : Expr} (he : e.Simple) {t t' : Trail} {err : RuntimeError}
    (h : e.eval t = .error err t') : ∃ name, err = .undefinedVariable name := by
  rcases he with rfl | ⟨name, rfl⟩
  · cases h
  · rw [Expr.eval] at h
    have := Act.read_error h
    split at this
    · cases this
    · cases this
      exact ⟨name, rfl⟩

/-- A local variable that is evaluated is defined. -/
theorem Trail.Defines.mem_of_evalDefault {t t' : Trail} {before : List String}
    (ht : t.Defines before) {x name : String} {v : Value}
    (h : Act.evalDefault x (.localVar name) t = .ok v t') : name ∈ before := by
  obtain ⟨w, t₁, hw, -⟩ := bind_eq_ok.1 h
  rw [Expr.eval] at hw
  refine (ht name).1 ?_
  unfold Act.getLocal Act.read at hw
  cases hl : t.local? name with
  | some v => rfl
  | none =>
    simp only [hl] at hw
    cases hw

/-! ## Groups -/

/-- A parameter finds only `nil`, and an optional one nothing, when it has its turn. -/
def Param.Meets (side : Side) (items : List Value) (p : Param) : Prop :=
  (p.part = .positional → side.next items = .nil) ∧ (p.part = .optional → items = [])

/-- Where there are no values, a parameter finds none. -/
theorem Param.meets_nil (side : Side) (p : Param) : p.Meets side [] :=
  ⟨fun _ => by cases side <;> rfl, fun _ => rfl⟩

/-- The local variables that are defaults of some slots are defined in front of them. -/
def Slot.Bound (before : List String) (slots : List Slot) : Prop :=
  ∀ pre x post name, slots = pre ++ x :: post → x.param.default? = some (.localVar name) →
    name ∈ before ++ names pre

/-- Where a parameter finds nothing, its task fails only with an undefined variable, and if it goes
well then all variables that the defaults read are defined. -/
structure Param.Exposes (earlier : List String) (p : Param) : Prop where
  fails : ∀ ⦃s q k t e⦄, (∀ e t', Act.unstage s k t ≠ .error e t') →
    p.Meets s.side (t.heap.arrayAt q) → p.Fails s q k t e → ∃ name, e = .undefinedVariable name
  runs : ∀ ⦃localOnly s q k t k' t' before⦄, t.Defines before →
    p.Meets s.side (t.heap.arrayAt q) → p.Runs localOnly s q k t k' t' →
    Slot.Bound before (p.slots earlier)

/-- A heap without cells is sound. -/
theorem Heap.sound_empty : Heap.Sound {} := ⟨by simp, by simp⟩

/-- Every heap grows from the one without cells. -/
theorem Heap.grows_empty (h : Heap) : Heap.Grows {} h :=
  ⟨Nat.zero_le _, Nat.zero_le _, fun _ hlt => absurd hlt (Nat.not_lt_zero _),
    fun _ hlt => absurd hlt (Nat.not_lt_zero _)⟩

/-- A parameter that is accepted in a group takes no keyword. -/
theorem Param.isKeyword_of_accepted {p : Param} (h : p.Accepted true) : p.isKeyword = false := by
  cases p <;> first | rfl | cases h

/-- A level in a group stages no keyword hash. -/
theorem Param.AllAccepted.unstaged {ps : List Param} (h : Param.AllAccepted true ps) :
    (∀ step ∈ (Plan.ofList Param.part ps).steps, step.1.keywordsStaged = false) ∧
      (Plan.ofList Param.part ps).final.keywordsStaged = false :=
  Plan.unstaged_ofList fun p hp => Param.isKeyword_of_accepted (Param.allAccepted_iff.1 h p hp)

section

variable {ps : List Param} {q k k₁ : Nat} {t t₁ t' : Trail} {before earlier : List String}
  {e : RuntimeError} (hacc : Phase.leading.Accepts (ps.map Param.part))
  (hall : Param.AllAccepted true ps)
  (hp : ∀ p ∈ ps, ∀ earlier, p.Exposes earlier)
  (hq : q < t.heap.arrays.size) (hnil : t.heap.arrayAt q = [])

include hacc hall hq hnil

/-- A level without values still has none after some steps. -/
theorem arrayAt_of_bare {front back : List (LevelState × List String × Param)}
    {step : LevelState × List String × Param}
    (hsplit : Param.placedSteps earlier ps = front ++ step :: back)
    (hfront : Act.steps q (stepTasks true (front.map Param.unplaced)) 0 t = .ok k₁ t₁) :
    t₁.heap.arrayAt q = [] ∧ ∀ e t', Act.unstage step.1 k₁ t₁ ≠ .error e t' := by
  obtain ⟨shape⟩ := exists_shape hacc
  have hrunning : Running {} t.heap.hashes.size q (Plan.ofList Param.part ps).steps {} 0
      ⟨[], none⟩ t :=
    shape.running hq hnil (fun _ => ⟨Heap.sound_empty, nofun⟩) (Heap.grows_empty _) (Nat.zero_le _)
  have hstep := hall.unstaged.1 (Param.unplaced step) (by
    rw [Param.steps_eq earlier, hsplit]
    simp)
  rw [Param.steps_eq earlier, hsplit, List.map_append] at hrunning
  obtain ⟨s₁, hr₁, -⟩ := hrunning.run hfront
  refine ⟨hr₁.holds.sequence_eq.trans (List.eq_nil_iff_forall_not_mem.2 fun v hv => ?_),
    fun _ _ => Act.unstage_of_unstaged hstep⟩
  exact List.not_mem_nil (Hand.items_finish_subset v hv)

include hp

/-- A level without values fails only with an undefined variable. -/
theorem levelAct_bare_error (h : levelAct (Param.tasks true ps) q t = .error e t') :
    ∃ name, e = .undefinedVariable name := by
  rcases levelAct_error h with hsteps | ⟨_, _, -, hu⟩
  · rw [Param.steps_eq []] at hsteps
    obtain ⟨front, step, back, k₁, t₁, hplaced, hfront, hfails⟩ := Param.placedSteps_error hsteps
    obtain ⟨hitems, hunstage⟩ := arrayAt_of_bare hacc hall hq hnil hplaced hfront
    have hmem : step ∈ Param.placedSteps [] ps := by
      rw [hplaced]
      simp
    exact (hp _ (Param.mem_of_mem_placedSteps hmem) step.2.1).fails hunstage
      (hitems ▸ Param.meets_nil _ _) hfails
  · exact absurd hu (Act.unstage_of_unstaged hall.unstaged.2)

/-- If a level without values goes well, then all variables that the defaults read are defined. -/
theorem levelAct_bare_ok {u : Unit} (ht : t.Defines before)
    (h : levelAct (Param.tasks true ps) q t = .ok u t') :
    Slot.Bound before (Param.levelSlots earlier ps) := by
  intro pre x post name hslots hd
  obtain ⟨front, step, back, u, v, hplaced, hstep, rfl⟩ := Param.levelSlots_split hslots
  obtain ⟨k, hsteps⟩ := levelAct_ok h
  rw [Param.steps_eq earlier, hplaced, List.map_append] at hsteps
  obtain ⟨k₁, t₁, hfront, hrest⟩ := steps_append_ok hsteps
  obtain ⟨k₂, t₂, hrun, -⟩ := steps_cons_ok hrest
  obtain ⟨hitems, -⟩ := arrayAt_of_bare hacc hall hq hnil hplaced hfront
  have hmem : ∀ y ∈ front ++ step :: back, y.2.2 ∈ ps := fun y hy =>
    Param.mem_of_mem_placedSteps (hplaced ▸ hy)
  have hdefines := Param.placedSteps_define (fun y hy =>
    Param.allAccepted_iff.1 hall _ (hmem y (List.mem_append_left _ hy))) ht hfront
  have hbound := (hp _ (hmem step (by simp)) step.2.1).runs hdefines
    (hitems ▸ Param.meets_nil _ _) (Param.task_ok hrun) u x v name hstep hd
  rwa [Slot.names_append, ← List.append_assoc]

end

namespace Param

/-- A parameter that takes no keyword may stand in a group. -/
theorem Accepted.inGroup {p : Param} {inGroup : Bool} (h : p.Accepted inGroup)
    (hk : p.isKeyword = false) : p.Accepted true := by
  cases p with
  | keyword | keywordRest => cases hk
  | _ => exact h

/-- A default alone exposes the variable that it reads. -/
theorem bound_singleton {p : Param} {earlier before : List String} {default : Expr}
    (hd : p.default? = some default)
    (h : ∀ name, default = .localVar name → name ∈ before) : Slot.Bound before [⟨p, earlier⟩] := by
  intro pre x post name hslots hx
  cases pre with
  | nil =>
    obtain ⟨rfl, -⟩ := List.cons_eq_cons.1 hslots
    exact List.mem_append_left _ (h name (Option.some.inj (hd.symm.trans hx)))
  | cons y pre => simp at hslots

/-- A parameter without a default exposes nothing. -/
theorem bound_of_default?_eq_none {p : Param} {earlier before : List String}
    (hd : p.default? = none) : Slot.Bound before [⟨p, earlier⟩] := by
  intro pre x post name hslots hx
  have hin : x ∈ [Slot.mk p earlier] := by
    rw [hslots]
    simp
  rw [List.mem_singleton.1 hin] at hx
  rw [show (Slot.mk p earlier).param.default? = none from hd] at hx
  cases hx

/-- Every parameter whose defaults are simple exposes them where it finds nothing. -/
theorem exposes {p : Param} (earlier : List String) (hacc : p.Accepted true) (hsimple : p.Simple) :
    p.Exposes earlier := by
  induction p generalizing earlier with
  | required | rest =>
    refine ⟨fun s q k t e hu _ h => ?_, fun _ _ _ _ _ _ _ _ _ _ _ => bound_of_default?_eq_none rfl⟩
    cases h with
    | leftOver _ he => exact absurd he (hu _ _)
  | optional name default span =>
    refine ⟨fun s q k t e hu _ h => ?_, fun _ s q k t k' t' before ht hmeets h => ?_⟩
    · cases h with
      | leftOver _ he => exact absurd he (hu _ _)
      | optional _ he => exact hsimple.error he
    · cases h with
      | given hne _ => exact absurd (hmeets.2 rfl) hne
      | absent _ hv _ =>
        refine bound_singleton rfl fun name hname => ?_
        rw [hname] at hv
        exact ht.mem_of_evalDefault hv
  | group children span ih =>
    have hchildren : ∀ p ∈ children, ∀ earlier, p.Exposes earlier := fun p hp earlier =>
      ih p hp earlier (allAccepted_iff.1 hacc.2 p hp) (allSimple_iff.1 hsimple p hp)
    refine ⟨fun s q k t e hu hmeets h => ?_, fun _ s q k t k' t' before ht hmeets h => ?_⟩
    · cases h with
      | leftOver _ he => exact absurd he (hu _ _)
      | elements he =>
        rw [hmeets.1 rfl] at he
        cases he
      | @group _ _ items _ hitems hlevel =>
        rw [hmeets.1 rfl] at hitems
        cases hitems
        obtain ⟨hlt, hat⟩ := t.opened_taken s.side q []
        exact levelAct_bare_error hacc.1 hacc.2 hchildren hlt hat hlevel
    · cases h with
      | @group _ _ items _ hitems hlevel =>
        rw [hmeets.1 rfl] at hitems
        cases hitems
        obtain ⟨hlt, hat⟩ := t.opened_taken s.side q []
        exact levelAct_bare_ok hacc.1 hacc.2 hchildren hlt hat
          ((ht.taken s.side q).opened []) hlevel
  | keyword | keywordRest => cases hacc
  | attr => exact hsimple.elim

end Param

end Formals
