import Formals.Proofs.Definedness

/-!
# Runs that evaluate nothing

The operations of expressions (`Op.evaluates`) stand in the code for parameters only where a default
is evaluated, or the receiver of an attribute. So a run of the code for a list without attributes
that records no default executes none of them (`Param.Sparing`, `levelCode_sparing`): where a value
is found, the code for the default is jumped over.
-/

namespace Formals

open Machine

/-! ## The operations of expressions -/

/-- Whether an operation is one of those that expressions are made of. -/
def Op.evaluates : Op → Bool
  | .pushNil | .pushTrue | .pushFalse | .pushInt _ | .pushString _ | .pushSymbol _ | .pushSelf
  | .createArray _ | .createHash _ | .localGet _ | .instanceGet _ | .globalGet _ | .setArgc _
  | .send .. => true
  | _ => false

namespace Expr

mutual
/-- Expressions are made of operations that evaluate. -/
theorem lower_evaluates {span : Span} : ∀ {e : Expr} {code : Stream}, e.lower span = .ok code →
    ∀ i ∈ code, i.op.evaluates = true
  | nil, _, h | bool true, _, h | bool false, _, h | int _, _, h | str _, _, h | sym _, _, h
  | self, _, h | localVar _, _, h | instanceVar _, _, h | globalVar _, _, h => by
    rw [lower] at h
    cases h
    exact List.forall_mem_singleton.2 rfl
  | array elements, _, h => by
    obtain ⟨parts, count, hp, -, rfl⟩ := lower_array_ok h
    exact List.forall_mem_append.2 ⟨lowerList_evaluates hp, List.forall_mem_singleton.2 rfl⟩
  | hash pairs, _, h => by
    obtain ⟨parts, count, hp, -, rfl⟩ := lower_hash_ok h
    exact List.forall_mem_append.2 ⟨lowerPairs_evaluates hp, List.forall_mem_singleton.2 rfl⟩
  | call none method arguments, _, h => by
    obtain ⟨parts, count, hp, -, rfl⟩ := lower_callSelf_ok h
    exact List.forall_mem_append.2 ⟨lowerList_evaluates hp, List.forall_mem_cons.2 ⟨rfl,
      List.forall_mem_cons.2 ⟨rfl, List.forall_mem_singleton.2 rfl⟩⟩⟩
  | call (some receiver) method arguments, _, h => by
    obtain ⟨parts, target, count, hp, ht, -, rfl⟩ := lower_call_ok h
    exact List.forall_mem_append.2 ⟨lowerList_evaluates hp, List.forall_mem_append.2
      ⟨lower_evaluates ht, List.forall_mem_cons.2 ⟨rfl, List.forall_mem_singleton.2 rfl⟩⟩⟩

/-- The code for a list of expressions only evaluates. -/
theorem lowerList_evaluates {span : Span} : ∀ {es : List Expr} {code : Stream},
    lowerList span es = .ok code → ∀ i ∈ code, i.op.evaluates = true
  | [], _, h => by
    rw [lowerList] at h
    cases h
    exact List.forall_mem_nil _
  | e :: rest, _, h => by
    obtain ⟨first, more, hf, hm, rfl⟩ := lowerList_cons_ok h
    exact List.forall_mem_append.2 ⟨lower_evaluates hf, lowerList_evaluates hm⟩

/-- The code for a list of pairs of expressions only evaluates. -/
theorem lowerPairs_evaluates {span : Span} : ∀ {ps : List (Expr × Expr)} {code : Stream},
    lowerPairs span ps = .ok code → ∀ i ∈ code, i.op.evaluates = true
  | [], _, h => by
    rw [lowerPairs] at h
    cases h
    exact List.forall_mem_nil _
  | (key, value) :: rest, _, h => by
    obtain ⟨first, second, more, hf, hs, hm, rfl⟩ := lowerPairs_cons_ok h
    exact List.forall_mem_append.2
      ⟨lower_evaluates hf, List.forall_mem_append.2 ⟨lower_evaluates hs, lowerPairs_evaluates hm⟩⟩
end

end Expr

/-- The run of a stream on a machine executes no instruction of the code for an expression. -/
def EvaluatesNothing (pc : Nat) (code : Stream) (m : Machine) : Prop :=
  ∀ j n, Executes pc code m j n → ∀ (e : Expr) (span : Span) (body : Stream),
    e.lower span = .ok body → j.2 ∉ body

/-! ## Code without expressions -/

variable {pc : Nat} {code code' : Stream} {t t' : Trail} {stack : List Value} {argc : UInt32}
  {j : Nat × Instruction} {n : Machine}

/-- No instruction of a stream belongs to the code for an expression. -/
def Stream.Inert (code : Stream) : Prop := ∀ i ∈ code, i.op.evaluates = false

/-- Inert streams one behind the other are inert. -/
theorem Stream.Inert.append (h : Stream.Inert code) (h' : Stream.Inert code') :
    Stream.Inert (code ++ code') := List.forall_mem_append.2 ⟨h, h'⟩

/-- Behind inert code that realizes an action, what stands there is executed on what the action
leaves. -/
theorem Realizes.executes_append {α : Type} {before : List Value} {act : Act α}
    {after : α → List Value} (h : Realizes code before act after) (hinert : code.Inert)
    (hb : Balanced code')
    (hv : Executes pc (code ++ code') (t.machine (before ++ stack) argc) j n) :
    j.2.op.evaluates = false ∨ ∃ a t' pc' argc', act t = .ok a t' ∧
      Executes pc' code' (t'.machine (after a ++ stack) argc') j n := by
  rcases (h.balanced.executes_append hb).1 hv with hv | ⟨_, m, hx, hv⟩
  · exact .inl (hinert _ (mem_of_visits hv))
  · obtain ⟨a, t', argc', ha, rfl⟩ := h.act_ok hx
    exact .inr ⟨a, t', _, argc', ha, hv⟩

/-- In a block only the part that is chosen is executed. -/
theorem evaluates_of_block {yes no last : Stream} {s mid e : Span} {c : Value} (hy : Balanced yes)
    (hn : Balanced no) (hb : Balanced last)
    (hchosen : Stream.Inert (if c.isTruthy then yes else no))
    (hlast : last.Inert)
    (hv : Executes pc (⟨.ifTrue, s⟩ :: (yes ++ ⟨.orElse, mid⟩ :: (no ++ [⟨.endIf, e⟩])) ++ last)
      (t.machine (c :: stack) argc) j n) : j.2.op.evaluates = false := by
  rcases ((Balanced.ifElse hy hn .nil).executes_append hb).1 hv with hv | ⟨_, _, -, hv⟩
  · rcases (Realizes.executes_block hy hn).1 hv with ⟨rfl, -⟩ | hv
    · rfl
    by_cases hc : c.isTruthy
    all_goals
      simp only [hc, if_true, if_false, Bool.false_eq_true] at hv hchosen
      rcases hv with hv | ⟨_, _, -, ⟨rfl, -⟩ | hf⟩
      · exact hchosen _ (mem_of_visits hv)
      · rfl
      · exact hf.elim
  · exact hlast _ (mem_of_visits hv)

namespace LevelState

variable (s : LevelState) (span : Span)

/-- Taking an item from the window of a level evaluates nothing. -/
theorem inert_takeValue : Stream.Inert [s.takeValue span] := by
  refine List.forall_mem_singleton.2 ?_
  unfold takeValue
  cases s.side <;> rfl

/-- Staging the keyword hash of a level evaluates nothing. -/
theorem inert_stageCode : Stream.Inert (s.stageCode span) := by
  unfold stageCode
  split
  · exact List.forall_mem_nil _
  · exact List.forall_mem_singleton.2 rfl

/-- Dropping or checking a staged keyword hash evaluates nothing. -/
theorem inert_unstageCode : Stream.Inert (s.unstageCode span) := by
  unfold unstageCode
  split
  · refine .append ?_ (List.forall_mem_singleton.2 rfl)
    split
    · exact List.forall_mem_nil _
    · exact List.forall_mem_singleton.2 rfl
  · exact List.forall_mem_nil _

end LevelState

/-- Giving a value to a name, or dropping it, evaluates nothing. -/
theorem inert_shareWith (name : Option String) (localOnly : Bool) (span : Span) :
    Stream.Inert (shareWith name localOnly span) := by
  cases name with
  | none => exact List.forall_mem_nil _
  | some name => exact List.forall_mem_cons.2 ⟨rfl, List.forall_mem_singleton.2 rfl⟩

/-! ## Parameters -/

/-- A run of the code for a parameter that records no default evaluates nothing. -/
def Param.Sparing (localOnly : Bool) (p : Param) : Prop :=
  ∀ ⦃s code q k k' t t' pc stack argc j n⦄, (p.piece localOnly).code s = .ok code →
    (p.task localOnly).run s q k t = .ok k' t' → t'.defaults = [] →
    Executes pc code (t.machine (s.layout q k ++ stack) argc) j n → j.2.op.evaluates = false

section

variable {localOnly : Bool} {q k k' : Nat}

/-- Steps that record no default begin where none is recorded. -/
theorem steps_defaults {steps : List (LevelState × Param)}
    (h : Act.steps q (stepTasks localOnly steps) k t = .ok k' t') (hnil : t'.defaults = []) :
    t.defaults = [] := by
  induction steps generalizing k t with
  | nil =>
    cases h
    exact hnil
  | cons step steps ih =>
    obtain ⟨k₁, t₁, hfirst, hrest⟩ := steps_cons_ok h
    refine List.eq_nil_iff_forall_not_mem.2 fun e he => ?_
    have hmem := (Param.task_frames localOnly step.2 hfirst).1.defaults e he
    rw [ih hrest] at hmem
    cases hmem

/-- The code for the steps of a level does the steps. -/
theorem paramSteps_realize {steps : List (LevelState × Param)} {s final : LevelState}
    {codes : List Stream} (hl : Plan.Linked Param.part s steps final)
    (hcodes : steps.mapM (fun step => (step.2.piece localOnly).code step.1) = .ok codes) :
    Realizes codes.flatten (s.layout q k) (Act.steps q (stepTasks localOnly steps) k)
      (final.layout q) :=
  steps_realize (Param.task_part localOnly) q k
    (fun step _ => Param.piece_matches localOnly step.2) (fun _ _ => trivial) hl hcodes

/-- Steps that record no default evaluate nothing, and neither does what stands behind them. -/
theorem steps_sparing {steps : List (LevelState × Param)} {s final : LevelState}
    {codes : List Stream} {last : Stream} (hp : ∀ step ∈ steps, step.2.Sparing localOnly)
    (hl : Plan.Linked Param.part s steps final)
    (hcodes : steps.mapM (fun step => (step.2.piece localOnly).code step.1) = .ok codes)
    (hlast : last.Inert) (hb : Balanced last)
    (h : Act.steps q (stepTasks localOnly steps) k t = .ok k' t') (hnil : t'.defaults = [])
    (hv : Executes pc (codes.flatten ++ last) (t.machine (s.layout q k ++ stack) argc) j n) :
    j.2.op.evaluates = false := by
  induction steps generalizing s k t pc argc codes with
  | nil =>
    cases hcodes
    exact hlast _ (mem_of_visits hv)
  | cons step steps ih =>
    obtain ⟨s', p⟩ := step
    obtain ⟨⟨side, hside⟩, hl⟩ := hl
    rw [List.mapM_cons] at hcodes
    obtain ⟨code, hcode, hcodes⟩ := ok_of_bind hcodes
    obtain ⟨others, hothers, hcodes⟩ := ok_of_bind hcodes
    cases hcodes
    obtain ⟨k₁, t₁, hfirst, hrest⟩ := steps_cons_ok h
    have hlayout : s.layout q k = s'.layout q k := by
      rw [hside]
      rfl
    rw [hlayout, List.flatten_cons, List.append_assoc] at hv
    have hmatch := Param.piece_matches localOnly p s' code trivial hcode q k
    rw [Param.task_part] at hmatch
    have hbehind : Balanced (others.flatten ++ last) :=
      (paramSteps_realize (q := q) (k := k₁) hl hothers).balanced.append hb
    rcases (hmatch.balanced.executes_append hbehind).1 hv with hv | ⟨_, m, hx, hv⟩
    · exact hp _ List.mem_cons_self hcode hfirst (steps_defaults hrest hnil) hv
    · obtain ⟨k₂, t₂, argc', ha, rfl⟩ := hmatch.act_ok hx
      obtain ⟨rfl, rfl⟩ := EStateM.Result.ok.inj (ha.symm.trans hfirst)
      exact ih (fun step hmem => hp step (List.mem_cons_of_mem _ hmem)) hl hothers hrest hv

/-- **Levels.** A run of the code for a level that records no default evaluates nothing. -/
theorem levelCode_sparing {ps : List Param} {u : Unit} (hp : ∀ p ∈ ps, p.Sparing localOnly)
    (hcode : levelCode (Param.pieces localOnly ps) = .ok code)
    (h : levelAct (Param.tasks localOnly ps) q t = .ok u t') (hnil : t'.defaults = [])
    (hv : Executes pc code (t.machine ([.array q] ++ stack) argc) j n) :
    j.2.op.evaluates = false := by
  rw [Param.pieces_eq] at hcode
  obtain ⟨codes, span, hcodes, rfl⟩ := levelCode_ok (Param.piece_part localOnly) hcode
  rw [levelAct_eq] at h
  obtain ⟨k, t₁, hsteps, hu⟩ := bind_eq_ok.1 h
  rw [Act.unstage_ok hu] at hnil
  refine steps_sparing (s := {}) (k := 0)
    (fun step hstep => hp _ (Plan.mem_of_mem_ofList hstep))
    (Plan.linked_ofList Param.part ps) hcodes
    ?_ (Realizes.dropLevel _ span q k).balanced hsteps hnil hv
  exact (LevelState.inert_unstageCode _ span).append (List.forall_mem_singleton.2 rfl)

end

namespace Param

variable {localOnly : Bool}

/-- A parameter whose code is inert. -/
theorem Sparing.of_inert {p : Param}
    (h : ∀ {s code}, (p.piece localOnly).code s = .ok code → Stream.Inert code) :
    p.Sparing localOnly :=
  fun _ _ _ _ _ _ _ _ _ _ _ _ hcode _ _ hv => h hcode _ (mem_of_visits hv)

/-- Setting a local variable evaluates nothing. -/
theorem inert_localSet (name : String) (localOnly : Bool) (span : Span) :
    Stream.Inert [⟨.localSet name localOnly, span⟩] := List.forall_mem_singleton.2 rfl

/-- An optional parameter that finds a value jumps over its default. -/
theorem sparing_optional (name : String) (default : Expr) (span : Span) :
    (Param.optional name default span).Sparing localOnly := by
  intro s code q k k' t t' pc stack argc j n hcode h hnil hv
  obtain ⟨absent, ha, rfl⟩ := optional_code hcode
  have hbody := ((Expr.lower_realizes ha).frame [.array q]).balanced
  have hshift := (Realizes.arrayShift span q).balanced
  have hset := (Realizes.localSet name localOnly span .nil).balanced
  have hblock := (Balanced.ifElse (s := span) (m := span) (e := span) hbody hshift .nil).append hset
  rcases (Realizes.unstageCode s span q k).executes_append (s.inert_unstageCode span)
    ((Realizes.arrayIsEmpty span q).balanced.append hblock) hv with hv | ⟨_, t₁, _, _, hu, hv⟩
  · exact hv
  rw [Act.unstage_ok hu] at hv
  rcases (Realizes.arrayIsEmpty span q).executes_append (List.forall_mem_singleton.2 rfl) hblock hv
    with hv | ⟨b, t₂, _, _, hb, hv⟩
  · exact hv
  obtain ⟨rfl, rfl⟩ := Act.isEmpty_ok hb
  cases task_ok h with
  | absent _ hd hl =>
    obtain ⟨t₃, -, rfl⟩ := Act.evalDefault_ok hd
    rw [Act.setLocal_ok hl] at hnil
    cases hnil
  | given hne _ =>
    refine evaluates_of_block hbody hshift hset ?_ (inert_localSet name localOnly span) hv
    rw [List.isEmpty_eq_false_iff.2 hne]
    exact List.forall_mem_singleton.2 rfl

/-- A keyword parameter that finds its keyword jumps over its default. -/
theorem sparing_keyword (name : String) (default : Expr) (span : Span) :
    (Param.keyword name (some default) span).Sparing localOnly := by
  intro s code q k k' t t' pc stack argc j n hcode h hnil hv
  obtain ⟨absent, ha, rfl⟩ := keyword_code hcode
  have hbody := ((Expr.lower_realizes ha).frame []).balanced
  have htake := (Realizes.takeKeyword span k name).balanced
  have hset := (Realizes.localSet name localOnly span .nil).balanced
  have hblock := (Balanced.ifElse (s := span) (m := span) (e := span) htake hbody .nil).append hset
  rcases (Realizes.stageCode s span q k).executes_append (s.inert_stageCode span)
    ((Realizes.hasKeyword span k name).balanced.append hblock) hv with hv | ⟨k₁, t₁, _, _, he, hv⟩
  · exact hv
  rcases ((Realizes.hasKeyword span k₁ name).frame [.array q]).executes_append
    (List.forall_mem_singleton.2 rfl) hblock hv with hv | ⟨b, t₂, _, _, hb, hv⟩
  · exact hv
  obtain ⟨rfl, rfl⟩ := Act.hasKeyword_ok hb
  cases task_ok h with
  | keywordAbsent _ _ hd hl =>
    obtain ⟨t₃, -, rfl⟩ := Act.evalDefault_ok hd
    rw [Act.setLocal_ok hl] at hnil
    cases hnil
  | keywordGiven he' hv' _ =>
    obtain ⟨rfl, rfl⟩ := EStateM.Result.ok.inj (he'.symm.trans he)
    refine evaluates_of_block htake hbody hset ?_ (inert_localSet name localOnly span) hv
    rw [Entries.contains, (Act.takeKeyword_ok hv').1]
    exact List.forall_mem_singleton.2 rfl

/-- A group evaluates nothing if its level does not. -/
theorem sparing_group {children : List Param} (hp : ∀ p ∈ children, p.Sparing true) (span : Span) :
    (Param.group children span).Sparing localOnly := by
  intro s code q k k' t t' pc stack argc j n hcode h hnil hv
  obtain ⟨inner, hi, rfl⟩ := group_code hcode
  cases task_ok h with
  | @group _ _ items _ hitems hlevel =>
    have hpop := (Realizes.pop span .nil).balanced
    have hinner := (levelCode_params (fun p _ => p.piece_matches true) hi 0).balanced
    have hopen := (Realizes.toArray span .nil).balanced.append (hinner.append hpop)
    have hdup := (Realizes.dup span .nil).balanced.append hopen
    have htake := (Realizes.takeValue s span q).balanced.append hdup
    have hinert : ∀ op : Op, op.evaluates = false → Stream.Inert [⟨op, span⟩] := fun _ h =>
      List.forall_mem_singleton.2 h
    rcases (Realizes.unstageCode s span q k).executes_append
      (s.inert_unstageCode span) htake hv with
      hv | ⟨_, t₁, _, _, hu, hv⟩
    · exact hv
    rw [Act.unstage_ok hu] at hv
    rcases (Realizes.takeValue s span q).executes_append (s.inert_takeValue span) hdup hv with
      hv | ⟨v, t₂, _, _, hv', hv⟩
    · exact hv
    obtain ⟨rfl, rfl⟩ := Act.take_ok hv'
    rcases ((Realizes.dup span _).frame [.array q]).executes_append (hinert .dup rfl) hopen hv with
      hv | ⟨_, t₃, _, _, hd, hv⟩
    · exact hv
    cases hd
    rcases ((Realizes.toArray span _).frame [_, .array q]).executes_append (hinert .toArray rfl)
      (hinner.append hpop) hv with hv | ⟨inside, t₄, _, _, ha, hv⟩
    · exact hv
    obtain ⟨items', t₅, he, hq⟩ := bind_eq_ok.1 ha
    obtain ⟨hitems', rfl⟩ := Act.elements_ok he
    obtain rfl : items' = items := Except.ok.inj (hitems'.symm.trans hitems)
    obtain ⟨rfl, rfl⟩ := EStateM.Result.ok.inj hq
    rw [← t.size_taken s.side q] at hlevel
    rcases (hinner.executes_append hpop).1 hv with hv | ⟨_, _, -, hv⟩
    · exact levelCode_sparing hp hi hlevel hnil hv
    · exact hinert .pop rfl _ (mem_of_visits hv)

/-- **Parameters.** A run of the code for a parameter that is no attribute and has none in it
evaluates nothing if it records no default. -/
theorem task_sparing (localOnly : Bool) (p : Param) (hattr : p.NoAttr) : p.Sparing localOnly := by
  induction p generalizing localOnly with
  | required name span =>
    refine .of_inert fun {s code} h => ?_
    cases h
    exact (s.inert_unstageCode span).append
      ((s.inert_takeValue span).append (inert_localSet name localOnly span))
  | rest name span =>
    refine .of_inert fun {s code} h => ?_
    cases h
    exact (s.inert_unstageCode span).append (inert_shareWith name localOnly span)
  | keyword name default span =>
    cases default with
    | none =>
      refine .of_inert fun {s code} h => ?_
      cases h
      exact (s.inert_stageCode span).append
        (List.forall_mem_cons.2 ⟨rfl, inert_localSet name localOnly span⟩)
    | some default => exact sparing_keyword name default span
  | keywordRest name span =>
    refine .of_inert fun {s code} h => ?_
    cases h
    exact (s.inert_stageCode span).append (inert_shareWith name localOnly span)
  | optional name default span => exact sparing_optional name default span
  | group children span ih =>
    exact sparing_group (fun p hp => ih p hp true (allNoAttr_iff.1 hattr p hp)) span
  | attr => exact hattr.elim

end Param

/-- **Calls.** If binding records no default, then the call of a compiled stream for a list without
attributes evaluates nothing. -/
theorem call_evaluatesNothing {list : Option ParamList} {localOnly : Bool} {code : Stream}
    {ps : List Param} {arguments : List Value} {m : Machine} {t : Trail} {u : Unit}
    (hc : ParamList.compile? list localOnly = .ok code) (hps : ParamList.check? list = .ok ps)
    (hattr : Param.AllNoAttr ps)
    (h : levelAct (Param.tasks localOnly ps) m.heap.arrays.size
      (m.toEnv.entered fun _ => arguments) = .ok u t) (hnil : t.defaults = []) :
    EvaluatesNothing 0 code (entered (fun _ => arguments) m) := by
  obtain ⟨ps', hps', hcode⟩ := ok_of_bind hc
  obtain rfl : ps' = ps := Except.ok.inj (hps'.symm.trans hps)
  intro j n hv e span body hbody hmem
  rw [entered_eq] at hv
  have hp : ∀ p ∈ ps', p.Sparing localOnly := fun p hp =>
    Param.task_sparing localOnly p (Param.allNoAttr_iff.1 hattr p hp)
  have hinert := levelCode_sparing hp hcode h hnil hv
  rw [Expr.lower_evaluates hbody _ hmem] at hinert
  cases hinert

end Formals
