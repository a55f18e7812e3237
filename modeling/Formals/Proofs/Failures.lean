import Formals.Proofs.Law

/-!
# How binding fails

Most of what a task does never fails (`Act.NeverFails`), so that it fails where the rest does.
`Param.Fails` lists why the task of a parameter can fail, and `Param.task_error` says that there is
no other reason. A level fails at one of its steps, after the steps before it went well, or at the
end if keywords are left over (`levelAct_error`).
-/

namespace Formals

open Machine

/-! ## The primitives -/

namespace Act

variable {α β : Type} {t t' : Trail} {e : RuntimeError}

/-- Looking at the environment fails where the view does. -/
theorem read_error {f : Env → Except RuntimeError α} (h : read f t = .error e t') :
    f t.toEnv = .error e := by
  unfold read at h
  split at h
  · cases h
  · rename_i he
    cases h
    exact he

/-- Dropping the keyword hash fails with the keywords that are left over in it. -/
theorem unstage_error {s : LevelState} {k : Nat} (h : unstage s k t = .error e t') :
    (s.keywordsStaged = true ∧ s.keywordRestSeen = false) ∧ t.heap.hashAt k ≠ [] ∧
      e = .unknownKeywords ((t.heap.hashAt k).keys.map keyName) := by
  unfold unstage at h
  split at h
  · rename_i hs
    unfold checkKeywords at h
    have hx := read_error h
    simp only at hx
    split at hx
    · cases hx
    · rename_i hempty
      cases hx
      exact ⟨⟨hs.1, Bool.not_eq_true _ ▸ hs.2⟩, fun hnil => hempty (List.isEmpty_iff.2 hnil), rfl⟩
  · cases h

/-- Dropping the keyword hash does not fail with an undefined variable. -/
theorem unstage_ne_undefined {s : LevelState} {k : Nat} {name : String} :
    unstage s k t ≠ .error (.undefinedVariable name) t' := fun h => by
  obtain ⟨-, -, he⟩ := unstage_error h
  cases he

/-- An action that does not fail, whatever the environment. -/
def NeverFails (act : Act α) : Prop := ∀ t e t', act t ≠ .error e t'

/-- Doing nothing never fails. -/
theorem neverFails_pure (a : α) : NeverFails (pure a) := fun _ _ _ h => by cases h

section

variable {act : Act α} {next : α → Act β}

/-- Behind an action that never fails it is the next one that fails. -/
theorem NeverFails.error_behind (hact : NeverFails act) (h : (act >>= next) t = .error e t') :
    ∃ a t₁, act t = .ok a t₁ ∧ next a t₁ = .error e t' :=
  (bind_eq_error.1 h).resolve_left (hact t e t')

/-- In front of actions that never fail it is the first one that fails. -/
theorem error_before (hnext : ∀ a, NeverFails (next a)) (h : (act >>= next) t = .error e t') :
    act t = .error e t' := by
  rcases bind_eq_error.1 h with h | ⟨a, t₁, -, h⟩
  · exact h
  · exact absurd h (hnext a t₁ e t')

/-- What an action returns does not make it fail. -/
theorem NeverFails.returning (hact : NeverFails act) (b : β) :
    NeverFails (act >>= fun _ => pure b) :=
  fun t e t' h => hact t e t' (error_before (fun _ => neverFails_pure b) h)

end

/-- Taking a value never fails: it is `nil` if there is none. -/
theorem neverFails_take (side : Side) (q : Nat) : NeverFails (take side q) :=
  fun _ _ _ => nofun

/-- Whether an array is empty is always found. -/
theorem neverFails_isEmpty (q : Nat) : NeverFails (isEmpty q) :=
  fun _ _ _ => nofun

/-- Whether a hash has a keyword is always found. -/
theorem neverFails_hasKeyword (k : Nat) (name : String) : NeverFails (hasKeyword k name) :=
  fun _ _ _ => nofun

/-- A local variable can always be set. -/
theorem neverFails_setLocal (name : String) (v : Value) (localOnly : Bool) :
    NeverFails (setLocal name v localOnly) :=
  fun _ _ _ => nofun

/-- A share can always be bound. -/
theorem neverFails_share (name : Option String) (v : Value) (localOnly : Bool) :
    NeverFails (share name v localOnly) := by
  cases name <;> exact fun _ _ _ => nofun

/-- The keyword hash can always be taken out: it is empty if there is none. -/
theorem neverFails_ensureStaged (s : LevelState) (q k : Nat) :
    NeverFails (ensureStaged s q k) := by
  unfold ensureStaged
  split <;> exact fun _ _ _ => nofun

/-- Taking a keyword fails only if it is missing. -/
theorem takeKeyword_error {k : Nat} {name : String} (h : takeKeyword k name t = .error e t') :
    (t.heap.hashAt k).get? (.sym name) = none ∧ e = .missingKeyword name := by
  unfold takeKeyword at h
  split at h
  · cases h
  · rename_i hnone
    cases h
    exact ⟨hnone, rfl⟩

/-- Evaluating a default fails as the default does. -/
theorem evalDefault_error {name : String} {default : Expr}
    (h : evalDefault name default t = .error e t') : default.eval t = .error e t' := by
  rcases bind_eq_error.1 h with h | ⟨v, t₁, -, h⟩
  · exact h
  · rcases bind_eq_error.1 h with h | ⟨_, t₂, -, h⟩ <;> cases h

/-- Looking up the elements of a value fails only if it has none. -/
theorem elements_error {v : Value} (h : elements v t = .error e t') :
    v.elements t.heap = .error e := by
  unfold elements inspect read at h
  split at h
  · cases h
  · rename_i he
    cases h
    exact he

end Act

/-! ## Tasks -/

/-- Why the task of a parameter fails: keywords are left over, a keyword is missing, a default
fails, or what is done with the next value. -/
inductive Param.Fails (s : LevelState) (q k : Nat) (t : Trail) (e : RuntimeError) : Param → Prop
  | leftOver {p : Param} {t' : Trail} : p.isKeyword = false → Act.unstage s k t = .error e t' →
      Fails s q k t e p
  | missing {name : String} {span : Span} {k₁ : Nat} {t₁ : Trail} :
      Act.ensureStaged s q k t = .ok k₁ t₁ → (t₁.heap.hashAt k₁).get? (.sym name) = none →
      e = .missingKeyword name → Fails s q k t e (.keyword name none span)
  | optional {name : String} {default : Expr} {span : Span} {t' : Trail} :
      t.heap.arrayAt q = [] → default.eval t = .error e t' →
      Fails s q k t e (.optional name default span)
  | keyword {name : String} {default : Expr} {span : Span} {k₁ : Nat} {t₁ t' : Trail} :
      Act.ensureStaged s q k t = .ok k₁ t₁ → (t₁.heap.hashAt k₁).contains (.sym name) = false →
      default.eval t₁ = .error e t' → Fails s q k t e (.keyword name (some default) span)
  | elements {children : List Param} {span : Span} :
      (s.side.next (t.heap.arrayAt q)).elements (t.taken s.side q).heap = .error e →
      Fails s q k t e (.group children span)
  | group {children : List Param} {span : Span} {items : List Value} {t' : Trail} :
      (s.side.next (t.heap.arrayAt q)).elements (t.taken s.side q).heap = .ok items →
      levelAct (Param.tasks true children) t.heap.arrays.size ((t.taken s.side q).opened items) =
        .error e t' →
      Fails s q k t e (.group children span)
  | attr {receiver : Expr} {writer : String} {span : Span} {t' : Trail} :
      Act.writeAttr receiver writer (s.side.next (t.heap.arrayAt q)) (t.taken s.side q) =
        .error e t' → Fails s q k t e (.attr receiver writer span)

section

variable {s : LevelState} {q k : Nat} {t t' : Trail} {e : RuntimeError}

/-- A task that takes a value fails at the keywords that are left over, or at what it does with the
value. -/
theorem Task.positional_error {bind : Value → Act Unit}
    (h : (Task.positional bind).run s q k t = .error e t') : Act.unstage s k t = .error e t' ∨
      bind (s.side.next (t.heap.arrayAt q)) (t.taken s.side q) = .error e t' := by
  rcases bind_eq_error.1 h with hu | ⟨_, t₁, hu, h⟩
  · exact .inl hu
  rw [Act.unstage_ok hu] at h
  obtain ⟨v, t₂, hv, h⟩ := (Act.neverFails_take s.side q).error_behind h
  obtain ⟨rfl, rfl⟩ := Act.take_ok hv
  exact .inr (Act.error_before (fun _ => Act.neverFails_pure k) h)

/-- **Failures.** The task of a parameter fails for one of the reasons that are listed. -/
theorem Param.task_error {localOnly : Bool} {p : Param}
    (h : (p.task localOnly).run s q k t = .error e t') : p.Fails s q k t e := by
  have hset : ∀ name v (k : Nat),
      Act.NeverFails (Act.setLocal name v localOnly >>= fun _ => pure k) :=
    fun name v => (Act.neverFails_setLocal name v localOnly).returning
  have hshare : ∀ name v (k : Nat),
      Act.NeverFails (Act.share name v localOnly >>= fun _ => pure k) :=
    fun name v => (Act.neverFails_share name v localOnly).returning
  cases p with
  | required name span =>
    rcases Task.positional_error h with hu | hb
    · exact .leftOver rfl hu
    · exact absurd hb (Act.neverFails_setLocal name _ localOnly _ e t')
  | attr receiver writer span =>
    rcases Task.positional_error h with hu | hb
    · exact .leftOver rfl hu
    · exact .attr hb
  | group children span =>
    rcases Task.positional_error h with hu | hb
    · exact .leftOver rfl hu
    rcases bind_eq_error.1 hb with he | ⟨items, t₁, he, hb⟩
    · exact .elements (Act.elements_error he)
    obtain ⟨hitems, rfl⟩ := Act.elements_ok he
    rcases bind_eq_error.1 hb with hq | ⟨inner, t₂, hq, hb⟩
    · cases hq
    · cases hq
      have hlevel : levelAct (Param.tasks true children) t.heap.arrays.size
          ((t.taken s.side q).opened items) = .error e t' := t.size_taken s.side q ▸ hb
      exact .group hitems hlevel
  | optional name default span =>
    rcases bind_eq_error.1 h with hu | ⟨_, t₁, hu, h⟩
    · exact .leftOver rfl hu
    rw [Act.unstage_ok hu] at h
    obtain ⟨b, t₂, hb, h⟩ := (Act.neverFails_isEmpty q).error_behind h
    obtain ⟨rfl, rfl⟩ := Act.isEmpty_ok hb
    have hv := Act.error_before (fun v => hset name v k) h
    cases hc : (t₂.heap.arrayAt q).isEmpty with
    | true =>
      rw [hc] at hv
      exact .optional (List.isEmpty_iff.1 hc) (Act.evalDefault_error hv)
    | false =>
      rw [hc] at hv
      exact absurd hv (Act.neverFails_take .left q t₂ e t')
  | rest name span =>
    exact .leftOver rfl (Act.error_before (fun _ => hshare name _ k) h)
  | keyword name default span =>
    cases default with
    | none =>
      obtain ⟨k₁, t₁, he, h⟩ := (Act.neverFails_ensureStaged s q k).error_behind h
      obtain ⟨hnone, rfl⟩ := Act.takeKeyword_error (Act.error_before (fun v => hset name v k₁) h)
      exact .missing he hnone rfl
    | some default =>
      obtain ⟨k₁, t₁, he, h⟩ := (Act.neverFails_ensureStaged s q k).error_behind h
      obtain ⟨b, t₂, hb, h⟩ := (Act.neverFails_hasKeyword k₁ name).error_behind h
      obtain ⟨rfl, rfl⟩ := Act.hasKeyword_ok hb
      have hv := Act.error_before (fun v => hset name v k₁) h
      cases hc : (t₂.heap.hashAt k₁).contains (.sym name) with
      | true =>
        -- the keyword is there, so taking it does not fail
        rw [hc] at hv
        obtain ⟨hnone, -⟩ := Act.takeKeyword_error hv
        rw [Entries.contains, hnone] at hc
        cases hc
      | false =>
        rw [hc] at hv
        exact .keyword he hc (Act.evalDefault_error hv)
  | keywordRest name span =>
    obtain ⟨k₁, t₁, -, h⟩ := (Act.neverFails_ensureStaged s q k).error_behind h
    exact absurd h (hshare name _ k₁ t₁ e t')

/-! ## Levels -/

/-- Steps fail at one of them, after those before it went well. -/
theorem steps_error {localOnly : Bool} {steps : List (LevelState × Param)}
    (h : Act.steps q (stepTasks localOnly steps) k t = .error e t') : ∃ before s p after k₁ t₁,
      steps = before ++ (s, p) :: after ∧
      Act.steps q (stepTasks localOnly before) k t = .ok k₁ t₁ ∧ p.Fails s q k₁ t₁ e := by
  induction steps generalizing k t with
  | nil => cases h
  | cons step steps ih =>
    obtain ⟨s, p⟩ := step
    rcases bind_eq_error.1 h with hfirst | ⟨k₁, t₁, hfirst, hrest⟩
    · exact ⟨[], s, p, steps, k, t, rfl, rfl, Param.task_error hfirst⟩
    · obtain ⟨before, s', p', after, k₂, t₂, rfl, hbefore, hfails⟩ := ih hrest
      exact ⟨(s, p) :: before, s', p', after, k₂, t₂, rfl,
        bind_eq_ok.2 ⟨k₁, t₁, hfirst, hbefore⟩, hfails⟩

/-- Steps fail if some of them in front do. -/
theorem steps_append_error {localOnly : Bool} {a : List (LevelState × Param)}
    (b : List (LevelState × Param)) (h : Act.steps q (stepTasks localOnly a) k t = .error e t') :
    Act.steps q (stepTasks localOnly (a ++ b)) k t = .error e t' := by
  induction a generalizing k t with
  | nil => cases h
  | cons step a ih =>
    rcases bind_eq_error.1 h with hfirst | ⟨k₁, t₁, hfirst, hrest⟩
    · exact bind_eq_error.2 (.inl hfirst)
    · exact bind_eq_error.2 (.inr ⟨k₁, t₁, hfirst, ih hrest⟩)

/-- The run of a level fails in its steps, or at the keywords that are left over at the end. -/
theorem levelAct_error {localOnly : Bool} {ps : List Param}
    (h : levelAct (Param.tasks localOnly ps) q t = .error e t') :
    Act.steps q (stepTasks localOnly (Plan.ofList Param.part ps).steps) 0 t = .error e t' ∨
      ∃ k₁ t₁, Act.steps q (stepTasks localOnly (Plan.ofList Param.part ps).steps) 0 t = .ok k₁ t₁ ∧
        Act.unstage (Plan.ofList Param.part ps).final k₁ t₁ = .error e t' := by
  rw [levelAct_eq] at h
  exact bind_eq_error.1 h

/-- The run of a level fails if its steps do. -/
theorem levelAct_of_steps_error {localOnly : Bool} {ps : List Param}
    (h : Act.steps q (stepTasks localOnly (Plan.ofList Param.part ps).steps) 0 t = .error e t') :
    levelAct (Param.tasks localOnly ps) q t = .error e t' := by
  rw [levelAct_eq]
  exact bind_eq_error.2 (.inl h)

end

/-- A level on which nothing takes from the keyword hash never stages it. -/
theorem Plan.unstaged_ofList {ps : List Param} (h : ∀ p ∈ ps, p.isKeyword = false) :
    (∀ step ∈ (ofList Param.part ps).steps, step.1.keywordsStaged = false) ∧
      (ofList Param.part ps).final.keywordsStaged = false :=
  (linked_ofList Param.part ps).staged rfl fun step hstep => h step.2 (mem_of_mem_ofList hstep)

/-- The keyword hash is not checked while it is not staged. -/
theorem Act.unstage_of_unstaged {s : LevelState} (hs : s.keywordsStaged = false) {k : Nat}
    {t t' : Trail} {e : RuntimeError} : Act.unstage s k t ≠ .error e t' := fun h => by
  have := (Act.unstage_error h).1.1
  rw [hs] at this
  cases this

end Formals
