import Mathlib
import Formals.Proofs.Interleaving

/-!
# Compiling side by side

A program `Ensures` something of compiling if every fair schedule ends, and what is given and left
at the end of a schedule is so in all cases. Compiling one body after the other follows one of the
schedules (`Program.Ensures.compile`).

Every schedule ends with what the bodies give alone, if the records of the store are right
(`Program.compiled_alone`). And whatever the store holds, compiling repairs it: it is then found as
it was left (`Program.compiled_again`).
-/

namespace Formals

open Cache (Hashing Store)

/-! ## Fair schedules -/

/-- How many steps a job may still have to make. -/
def Progress.remaining : Progress → Nat
  | ready => 4
  | evicting _ => 3
  | unbound _ => 2
  | bound .. => 1
  | done _ => 0

/-- Each step brings a job forward, until it is done. -/
theorem Progress.remaining_advance (h : Hashing) (j : Job) (shared : Shared) (progress : Progress) :
    (progress.advance h j shared).1.remaining ≤ progress.remaining - 1 := by
  cases progress with
  | ready =>
    rw [advance]
    split <;> simp [remaining]
  | unbound warnings =>
    rw [advance]
    split <;> simp [remaining]
  | evicting fault | bound warnings code | done result => simp [advance, remaining]

namespace Session

variable {h : Hashing} {session : Session} {i : Nat} {j : Job} {progress : Progress}

/-- The turn of a number brings its job forward and leaves the others where they are. -/
theorem remaining_turn (number : Nat) (htask : session.tasks[i]? = some (j, progress)) :
    ∃ next, (session.turn h number).tasks[i]? = some (j, next) ∧
      next.remaining ≤ progress.remaining - if number = i then 1 else 0 := by
  rw [turn]
  by_cases hi : number = i
  · subst hi
    rw [htask, if_pos rfl]
    exact ⟨_, List.getElem?_set_self (List.getElem?_eq_some_iff.1 htask).1,
      progress.remaining_advance h j session.shared⟩
  · rw [if_neg hi]
    cases hother : session.tasks[number]? with
    | none => exact ⟨progress, htask, Nat.le_refl _⟩
    | some task => exact ⟨progress, (List.getElem?_set_ne hi).trans htask, Nat.le_refl _⟩

/-- A schedule brings each job forward as often as it is the job's turn. -/
theorem remaining_follow (schedule : List Nat) (htask : session.tasks[i]? = some (j, progress)) :
    ∃ next, (session.follow h schedule).tasks[i]? = some (j, next) ∧
      next.remaining ≤ progress.remaining - schedule.count i := by
  induction schedule generalizing session progress with
  | nil => exact ⟨progress, htask, Nat.le_refl _⟩
  | cons number schedule ih =>
    obtain ⟨middle, hmiddle, hfirst⟩ := remaining_turn (h := h) number htask
    obtain ⟨next, hnext, hrest⟩ := ih hmiddle
    refine ⟨next, hnext, ?_⟩
    rw [List.count_cons]
    simp only [beq_iff_eq]
    omega

/-- No schedule adds a task to a session or takes one away. -/
theorem length_follow (schedule : List Nat) :
    (session.follow h schedule).tasks.length = session.tasks.length := by
  induction schedule generalizing session with
  | nil => rfl
  | cons number schedule ih =>
    refine ih.trans ?_
    rw [turn]
    split
    · rfl
    · exact List.length_set

/-- A session in which no job has to make a step has its results. -/
theorem isSome_results? (hdone : ∀ task ∈ session.tasks, task.2.remaining = 0) :
    session.results?.isSome := by
  have hall : ∀ tasks : List (Job × Progress), (∀ task ∈ tasks, task.2.remaining = 0) →
      (tasks.mapM fun task : Job × Progress => task.2.result?).isSome := by
    intro tasks htasks
    induction tasks with
    | nil => rfl
    | cons task tasks ih =>
      obtain ⟨hfirst, hrest⟩ := List.forall_mem_cons.1 htasks
      obtain ⟨results, hresults⟩ := Option.isSome_iff_exists.1 (ih hrest)
      obtain ⟨j, progress⟩ := task
      cases progress with
      | done result =>
        rw [List.mapM_cons, hresults]
        rfl
      | _ => cases hfirst
  exact hall session.tasks hdone

end Session

namespace Program

variable {h : Hashing} {p : Program} {shared : Shared} {post : Output → Shared → Prop}

/-- Each job has as many turns as it can make steps. -/
def Fair (p : Program) (schedule : List Nat) : Prop := ∀ i < p.jobs.length, 4 ≤ schedule.count i

instance {p : Program} {schedule : List Nat} : Decidable (p.Fair schedule) :=
  inferInstanceAs (Decidable (∀ i < p.jobs.length, 4 ≤ schedule.count i))

/-- Compiling ends, whatever fair schedule it follows, and whatever schedule it ends with, what it
gives and leaves is as it should be. -/
def Ensures (h : Hashing) (p : Program) (shared : Shared) (post : Output → Shared → Prop) : Prop :=
  ∀ schedule, (p.Fair schedule → (p.compileAlong h schedule shared).isSome) ∧
    ∀ output left, p.compileAlong h schedule shared = some (output, left) → post output left

/-- Fair schedules end. -/
theorem isSome_compileAlong {schedule : List Nat} (hfair : p.Fair schedule) :
    (p.compileAlong h schedule shared).isSome := by
  rw [compileAlong, Option.isSome_map]
  refine Session.isSome_results? fun task htask => ?_
  obtain ⟨i, hi⟩ := List.mem_iff_getElem?.1 htask
  have hlt : i < p.jobs.length := by
    obtain ⟨hlt, -⟩ := List.getElem?_eq_some_iff.1 hi
    simpa [Session.length_follow, session] using hlt
  have hready : (p.session shared).tasks[i]? = some (p.jobs[i], .ready) := by
    simp [session, hlt]
  obtain ⟨next, hnext, hremaining⟩ := Session.remaining_follow (h := h) schedule hready
  obtain rfl := Option.some.inj (hi.symm.trans hnext)
  have hturns := hfair i hlt
  rw [show Progress.ready.remaining = 4 from rfl] at hremaining
  change next.remaining = 0
  omega

/-- What a program ensures can be read off the results of a session that is sound. -/
theorem ensures_of_sound (hkeys : ∀ i ∈ p.jobs, ∀ j ∈ p.jobs, i.key h = j.key h → i = j)
    (hstore : shared.store.InMemory) (ht : shared.interner.Distinct)
    (hpost : ∀ (session : Session) results, session.Sound h shared.store p.jobs →
      session.results? = some results → post (p.collect results) session.shared) :
    p.Ensures h shared post := by
  refine fun schedule => ⟨isSome_compileAlong, fun output left hend => ?_⟩
  obtain ⟨results, hresults, hpair⟩ := Option.map_eq_some_iff.1 hend
  cases hpair
  exact hpost _ results ((Session.Sound.start hstore ht).follow hkeys schedule) hresults

end Program

/-! ## One after the other -/

namespace Session

variable {h : Hashing}

/-- The turn of the job behind some others. -/
theorem turn_at {before after : List (Job × Progress)} {j : Job} {progress : Progress}
    {shared : Shared} : turn h ⟨before ++ (j, progress) :: after, shared⟩ before.length =
      ⟨before ++ (j, (progress.advance h j shared).1) :: after,
        (progress.advance h j shared).2⟩ := by
  simp [turn]

/-- Four turns run a job. -/
theorem follow_four (before after : List (Job × Progress)) (j : Job) (s : Store) {t : Interner}
    (ht : t.Distinct) : ∃ s' t',
    follow h ⟨before ++ (j, .ready) :: after, ⟨s, t⟩⟩ (List.replicate 4 before.length) =
        ⟨before ++ (j, .done (j.run h (some s)).1) :: after, ⟨s', t'⟩⟩ ∧
      (j.run h (some s)).2 = some s' ∧ t'.Distinct := by
  obtain ⟨hbind, -, hdistinct⟩ := j.body.bindIn_eq ht j.localOnly
  change _ = j.compile at hbind
  have hend : ∀ warnings s, ∃ s' t',
      turn h (turn h ⟨before ++ (j, .unbound warnings) :: after, ⟨s, t⟩⟩ before.length)
          before.length =
        ⟨before ++ (j, .done (j.compileInto h warnings (some s)).1) :: after, ⟨s', t'⟩⟩ ∧
      (j.compileInto h warnings (some s)).2 = some s' ∧ t'.Distinct := by
    intro warnings s
    rw [turn_at, turn_at, Progress.advance, Job.compileInto]
    generalize j.body.bindIn j.localOnly t = outcome at hbind hdistinct ⊢
    obtain ⟨_ | _, t'⟩ := outcome <;> rw [← hbind] <;> exact ⟨_, t', rfl, rfl, hdistinct⟩
  have hdone : ∀ result shared, turn h ⟨before ++ (j, .done result) :: after, shared⟩
      before.length = ⟨before ++ (j, .done result) :: after, shared⟩ := fun _ _ => turn_at
  change ∃ s' t', turn h (turn h (turn h (turn h _ _) _) _) _ = _ ∧ _
  rw [turn_at, Progress.advance, Job.run]
  rcases s.get h (j.key h) with ⟨fault | code | code, s'⟩
  · obtain ⟨s'', t', hturns, hrest⟩ := hend [j.discarded fault] (s'.evict h (j.key h))
    exact ⟨s'', t', by rw [turn_at]; exact hturns, hrest⟩
  · obtain ⟨s'', t', hturns, hrest⟩ := hend [] s'
    exact ⟨s'', t', by rw [hturns, hdone], hrest⟩
  · exact ⟨s', t, by rw [hdone, hdone, hdone], rfl, ht⟩

/-- Four turns for each job in order run the jobs one after the other. -/
theorem follow_runAll (jobs : List Job) : ∀ (before : List (Job × Progress)) (s : Store)
    {t : Interner}, t.Distinct → ∃ tasks s' t',
      follow h ⟨before ++ jobs.map (·, .ready), ⟨s, t⟩⟩
          ((List.range' before.length jobs.length).flatMap (List.replicate 4)) =
        ⟨before ++ tasks, ⟨s', t'⟩⟩ ∧
      tasks.mapM (·.2.result?) = some (Job.runAll h jobs (some s)).1 ∧
      (Job.runAll h jobs (some s)).2 = some s' := by
  induction jobs with
  | nil => exact fun _ _ _ _ => ⟨[], _, _, rfl, rfl, rfl⟩
  | cons j jobs ih =>
    intro before s t ht
    obtain ⟨s₁, t₁, hfirst, hs₁, ht₁⟩ :=
      follow_four (h := h) before (jobs.map (·, .ready)) j s ht
    obtain ⟨tasks, s', t', hrest, hresults, hs'⟩ :=
      ih (before ++ [(j, .done (j.run h (some s)).1)]) s₁ ht₁
    rw [List.length_append, List.length_singleton, List.append_assoc, List.append_assoc] at hrest
    refine ⟨(j, .done (j.run h (some s)).1) :: tasks, s', t', ?_, ?_, ?_⟩
    · rw [List.length_cons, List.range'_succ, List.flatMap_cons, follow, List.foldl_append]
      rw [follow] at hfirst
      rw [List.map_cons, hfirst]
      exact hrest
    · simp only [Job.runAll, hs₁]
      rw [List.mapM_cons, hresults]
      rfl
    · simp only [Job.runAll, hs₁]
      exact hs'

end Session

/-- What compiling side by side ensures holds of compiling one body after the other. -/
theorem Program.Ensures.compile {h : Hashing} {p : Program} {s : Store} {t : Interner}
    {post : Output → Shared → Prop} (ht : t.Distinct) (hp : p.Ensures h ⟨s, t⟩ post) :
    ∃ s' t', (p.compile h (some s)).2 = some s' ∧ post (p.compile h (some s)).1 ⟨s', t'⟩ := by
  obtain ⟨tasks, s', t', hfollow, hresults, hs'⟩ := Session.follow_runAll (h := h) p.jobs [] s ht
  refine ⟨s', t', hs',
    (hp ((List.range' 0 p.jobs.length).flatMap (List.replicate 4))).2 _ _ ?_⟩
  have hsession : (p.session ⟨s, t⟩).follow h
      ((List.range' 0 p.jobs.length).flatMap (List.replicate 4)) = ⟨tasks, ⟨s', t'⟩⟩ := hfollow
  rw [compileAlong, hsession, Session.results?, hresults]
  rfl

/-! ## What the bodies give alone -/

/-- No two bodies of a program have the same fingerprint. -/
def Program.TellsApart (h : Hashing) (p : Program) : Prop := ∀ i ∈ p.jobs, ∀ j ∈ p.jobs,
  (i.key h).fingerprint = (j.key h).fingerprint → i.body = j.body

/-- The jobs of a program have different keys if the fingerprints tell its bodies apart. -/
theorem Program.TellsApart.eq_of_key {h : Hashing} {p : Program} (hp : p.TellsApart h) :
    ∀ i ∈ p.jobs, ∀ j ∈ p.jobs, i.key h = j.key h → i = j := by
  have hlocal : ∀ j ∈ p.jobs, j.localOnly = p.options.namesLocal j.body := by
    intro j hj
    obtain ⟨unit, -, hj⟩ := List.mem_flatMap.1 hj
    obtain ⟨body, -, rfl⟩ := List.mem_map.1 hj
    rfl
  intro i hi j hj hkey
  have hfile : i.file = j.file := congrArg Cache.Key.file hkey
  have hbody := hp i hi j hj (congrArg Cache.Key.fingerprint hkey)
  have hoption := hlocal i hi
  rw [hbody, ← hlocal j hj] at hoption
  cases i
  cases j
  simp_all

namespace Job

/-- What the body of a job is bound to alone, with an interner of its own and no cache. -/
def alone (j : Job) : Except BindError Stream := (j.body.bindIn j.localOnly {}).1

/-- What a job answers alone. -/
def answerAlone (j : Job) : Option CompiledBody × List Diagnostic :=
  match j.alone with
  | .ok code => (some (j.withCode code false), [])
  | .error e => (none, [j.failure e])

/-- What a body compiles to alone is what it compiles to among the jobs. -/
theorem alone_eq (j : Job) : j.alone = j.compile := (j.body.bindIn_eq List.nodup_nil j.localOnly).1

/-- A job that compiles alone answers with its stream. -/
theorem answerAlone_of_ok {j : Job} {code : Stream} (hcode : j.compile = .ok code) :
    j.answerAlone = (some (j.withCode code false), []) := by
  rw [answerAlone, alone_eq, hcode]

/-- A job that does not compile alone answers with its failure. -/
theorem answerAlone_of_error {j : Job} {e : BindError} (he : j.compile = .error e) :
    j.answerAlone = (none, [j.failure e]) := by
  rw [answerAlone, alone_eq, he]

variable {h : Hashing} {s : Store} {j : Job} {result : Result}

/-- What is warned of is no error. -/
theorem Warns.filter_isError {warnings : List Diagnostic} (hw : j.Warns h s warnings) :
    warnings.filter Diagnostic.isError = [] := by
  rcases hw with rfl | ⟨⟨fault, rfl⟩, -⟩ <;> rfl

/-- A job answers what it answers alone if what it can find in the store is that. -/
theorem Ends.answer (hend : j.Ends h s result)
    (hright : ∀ code, s.code? (j.key h) = some code → j.alone = .ok code) :
    result.answer = j.answerAlone := by
  cases hend with
  | @found code hcode =>
    rw [answerAlone_of_ok (j.alone_eq ▸ hright code hcode)]
    rfl
  | compiled hfresh hcompile hwarns =>
    rw [answerAlone_of_ok hcompile]
    exact Prod.ext rfl hwarns.filter_isError
  | failed hfresh hcompile hwarns =>
    rw [answerAlone_of_error hcompile]
    simp [Result.answer, hwarns.filter_isError, isError_failure]

end Job

/-- Results that are determined one by one. -/
theorem map_eq_of_forall₂ {α β γ : Type} {R : α → β → Prop} {f : α → γ} {g : β → γ} {xs : List α}
    {ys : List β} (hall : List.Forall₂ R xs ys) (hfg : ∀ x ∈ xs, ∀ y, R x y → g y = f x) :
    ys.map g = xs.map f := by
  induction hall with
  | nil => rfl
  | @cons x y xs ys hxy _ ih =>
    rw [List.map_cons, List.map_cons, hfg x List.mem_cons_self y hxy,
      ih fun x hx => hfg x (List.mem_cons_of_mem _ hx)]

/-- **Side by side.** From a store in memory whose records, as far as they are of use, hold what
their bodies are bound to, and in the order of whatever schedule, a program gives for every body
what it gives alone: its code, in the order of the source, or one error. The fingerprints of the
bodies tell them apart. -/
theorem Program.compiled_alone (h : Hashing) (p : Program) (shared : Shared)
    (hbodies : p.TellsApart h) (hstore : shared.store.InMemory) (ht : shared.interner.Distinct)
    (hrecords : ∀ j ∈ p.jobs, ∀ code, shared.store.code? (j.key h) = some code →
      j.alone = .ok code) :
    p.Ensures h shared fun output _ => output.answer =
      ((p.jobs.map Job.answerAlone).filterMap (·.1),
        Diagnostic.sort (p.loadDiagnostics.filter Diagnostic.isError ++
          (p.jobs.map Job.answerAlone).flatMap (·.2))) := by
  refine ensures_of_sound hbodies.eq_of_key hstore ht fun session results hs hresults => ?_
  rw [p.answer_eq, map_eq_of_forall₂ (hs.results hresults).1 fun j hj result hend =>
    hend.answer (hrecords j hj)]

/-- A method with one name, or with that name twice. -/
def nameMethod (twice : Bool) : Body :=
  .callable .method "m" (some ⟨.marker "x" :: (if twice then [.marker "x"] else []), {}⟩) {}

/-- A method two times, and between them one that does not compile. -/
def racingProgram : Program :=
  { units := [⟨"a", [nameMethod false, nameMethod true, nameMethod false]⟩] }

/-- Fingerprints of the two methods. -/
def methodHashing : Hashing :=
  ⟨fun text _ => if text = (nameMethod false).toJson.text then 1 else 2, fun _ => "r"⟩

/-- A store that has something else under the key of the method. -/
def litteredStore : Store := ⟨[(⟨"a", "m", 1⟩, [0])], none⟩

/-- The jobs of the program have the two methods for their bodies. -/
theorem body_racing : ∀ j ∈ racingProgram.jobs,
    j = ⟨"a", nameMethod false, true⟩ ∨ j = ⟨"a", nameMethod true, true⟩ := by
  simp [racingProgram, Program.jobs, nameMethod, Options.namesLocal]

/-- The two methods are written as different texts. -/
theorem text_nameMethod : (nameMethod true).toJson.text ≠ (nameMethod false).toJson.text := by
  decide +kernel

/-- The fingerprints tell the two methods apart. -/
theorem tellsApart_racing : racingProgram.TellsApart methodHashing := by
  intro i hi j hj heq
  change (if i.body.toJson.text = _ then 1 else 2) =
    (if j.body.toJson.text = _ then 1 else 2) at heq
  rcases body_racing i hi with rfl | rfl <;> rcases body_racing j hj with rfl | rfl <;>
    simp [text_nameMethod] at heq ⊢

/-- The key of the method with one name. -/
theorem key_once : (⟨"a", nameMethod false, true⟩ : Job).key methodHashing = ⟨"a", "m", 1⟩ := by
  simp [Job.key, Cache.Key.ofBody, methodHashing, nameMethod, Body.name]

/-- The key of the method with a name twice. -/
theorem key_twice : (⟨"a", nameMethod true, true⟩ : Job).key methodHashing = ⟨"a", "m", 2⟩ := by
  have htext := text_nameMethod
  simp_all [Job.key, Cache.Key.ofBody, methodHashing, nameMethod, Body.name]

/-- The store with something else in it fits into memory. -/
theorem inMemory_littered : litteredStore.InMemory := ⟨rfl, List.nodup_singleton _⟩

/-- The method with one name takes its argument from the front and binds the name to it. -/
theorem compile_once : (⟨"a", nameMethod false, true⟩ : Job).compile =
    .ok [⟨.arrayShift, {}⟩, ⟨.localSet "x" true, {}⟩, ⟨.pop, {}⟩] := by
  cbv

/-- The method with a name twice does not compile. -/
theorem compile_twice : (⟨"a", nameMethod true, true⟩ : Job).compile =
    .error (.duplicate "x" {}) := by
  cbv

/-- The second time the method evicts the record that it wrote the first time. -/
theorem racing_alone : ∃ output left,
    racingProgram.compileAlong methodHashing [0, 2, 0, 0, 0, 2, 2, 2, 1, 1, 1, 1]
      ⟨litteredStore, {}⟩ = some (output, left) ∧
    output.answer =
      ([⟨"a", "m", [⟨.arrayShift, {}⟩, ⟨.localSet "x" true, {}⟩, ⟨.pop, {}⟩], false⟩,
        ⟨"a", "m", [⟨.arrayShift, {}⟩, ⟨.localSet "x" true, {}⟩, ⟨.pop, {}⟩], false⟩],
        [(⟨"a", nameMethod true, true⟩ : Job).failure (.duplicate "x" {})]) := by
  have hrecords : ∀ j ∈ racingProgram.jobs, ∀ code,
      litteredStore.code? (j.key methodHashing) = some code → j.alone = .ok code := by
    intro j hj code hcode
    rcases body_racing j hj with rfl | rfl
    · rw [key_once] at hcode
      cases hcode
    · rw [key_twice] at hcode
      cases hcode
  have hensures := Program.compiled_alone methodHashing racingProgram ⟨litteredStore, {}⟩
    tellsApart_racing inMemory_littered List.nodup_nil hrecords
  obtain ⟨hends, hanswer⟩ := hensures [0, 2, 0, 0, 0, 2, 2, 2, 1, 1, 1, 1]
  obtain ⟨⟨output, left⟩, hend⟩ := Option.isSome_iff_exists.1 (hends (by decide +kernel))
  refine ⟨output, left, hend, (hanswer output left hend).trans ?_⟩
  have hone := Job.answerAlone_of_ok compile_once
  have hanswers : racingProgram.jobs.map Job.answerAlone = _ :=
    congrArg₂ List.cons hone (congrArg₂ List.cons (Job.answerAlone_of_error compile_twice)
      (congrArg₂ List.cons hone rfl))
  rw [hanswers]
  exact Prod.ext rfl (List.mergeSort_singleton _)

/-! ## Compiling again -/

namespace Job

/-- What a job gives that finds its code in the store if it compiles. -/
def again (h : Hashing) (s : Store) (j : Job) : Result :=
  match s.code? (j.key h), j.compile with
  | some code, _ => ⟨some (j.withCode code true), []⟩
  | none, .ok _ => {}
  | none, .error e => ⟨none, [j.failure e]⟩

/-- The store has code for a job, or no record, if the body does not compile. -/
def Mended (h : Hashing) (s : Store) (j : Job) : Prop :=
  (s.code? (j.key h)).isSome ∨ s.raw? (j.key h) = none ∧ j.record? h = none

variable {h : Hashing} {s left : Store} {j : Job} {result : Result}

/-- The record that a job writes is of use. -/
theorem code?_of_record? {code : Stream} (hcompile : j.compile = .ok code)
    (hfits : Cache.Record.Fits (j.key h) code) (hraw : s.raw? (j.key h) = j.record? h) :
    s.code? (j.key h) = some code := by
  have hdecode := (Cache.Record.records_prefix_free hfits).2.2.2 (j.key h)
  rw [if_pos rfl] at hdecode
  rw [Store.code?, hraw, record?_of_ok hcompile, Option.bind_some, hdecode]
  rfl

/-- A job that finds a mended store gives what it gives again, and nothing else. -/
theorem Ends.eq_again (hend : j.Ends h s result) (hmended : j.Mended h s) :
    result = j.again h s := by
  rw [again]
  cases hend with
  | found hcode => rw [hcode]
  | compiled hfresh hcompile hwarns =>
    rcases hmended with hsome | ⟨-, hrecord⟩
    · rw [hfresh] at hsome
      cases hsome
    · rw [record?_of_ok hcompile] at hrecord
      cases hrecord
  | failed hfresh hcompile hwarns =>
    rw [hfresh, hcompile]
    rcases hmended with hsome | ⟨hraw, hrecord⟩
    · rw [hfresh] at hsome
      cases hsome
    · rcases hwarns with rfl | ⟨-, hwarned⟩
      · rfl
      · exact absurd hraw (hwarned hrecord)

end Job

namespace Session.Sound

variable {h : Hashing} {s : Store} {jobs : List Job} {session : Session}

/-- A session leaves the records that are of use. -/
theorem code?_left (hs : session.Sound h s jobs) {j : Job} (hj : j ∈ jobs) {code : Stream}
    (hcode : s.code? (j.key h) = some code) :
    session.shared.store.code? (j.key h) = some code := by
  rcases hs.kept j hj with hsame | ⟨hfresh, -⟩
  · exact (Job.code?_congr hsame).trans hcode
  · rw [hcode] at hfresh
    cases hfresh

section

variable (hs : session.Sound h s jobs)
  (hdone : ∀ task ∈ session.tasks, ∃ result, task.2 = .done result) {j : Job} (hj : j ∈ jobs)
  (hfits : ∀ code, j.compile = .ok code → Cache.Record.Fits (j.key h) code)

include hs hdone hj hfits

/-- What a session leaves is mended. -/
theorem mended : j.Mended h session.shared.store := by
  cases hcode : s.code? (j.key h) with
  | some code => exact .inl (by rw [hs.code?_left hj hcode]; rfl)
  | none =>
    have hraw := hs.repaired hdone hj hcode
    cases hcompile : j.compile with
    | ok code =>
      exact .inl (by rw [Job.code?_of_record? hcompile (hfits code hcompile) hraw]; rfl)
    | error e =>
      have hrecord : j.record? h = none := Job.record?_of_error hcompile
      exact .inr ⟨hraw.trans hrecord, hrecord⟩

/-- What a job answered in a session, it answers again. -/
theorem answer_again {result : Job.Result} (hend : j.Ends h s result) :
    result.answer = (j.again h session.shared.store).answer := by
  rw [Job.again]
  cases hend with
  | found hcode => rw [hs.code?_left hj hcode]
  | @compiled code cached warnings hfresh hcompile hwarns =>
    rw [Job.code?_of_record? hcompile (hfits code hcompile) (hs.repaired hdone hj hfresh)]
    exact Prod.ext rfl hwarns.filter_isError
  | failed hfresh hcompile hwarns =>
    have hraw := (hs.repaired hdone hj hfresh).trans (Job.record?_of_error hcompile)
    rw [Job.code?_of_raw? hraw, hcompile]
    simp [Job.Result.answer, hwarns.filter_isError]

end

end Session.Sound

/-- What jobs give again: what the records hold, and otherwise errors. -/
theorem Program.collect_again (h : Hashing) (s : Store) (p : Program) :
    (p.collect (p.jobs.map (·.again h s))).bodies =
        p.jobs.filterMap (fun j => (s.code? (j.key h)).map (j.withCode · true)) ∧
      (p.collect (p.jobs.map (·.again h s))).diagnostics.filter (!·.isError) =
        Diagnostic.sort (p.loadDiagnostics.filter (!·.isError)) := by
  have hbody : ∀ j : Job, (j.again h s).compiled =
      (s.code? (j.key h)).map (j.withCode · true) := by
    intro j
    rw [Job.again]
    cases s.code? (j.key h) <;> cases j.compile <;> rfl
  have herrors : ∀ j : Job, (j.again h s).diagnostics.filter (!·.isError) = [] := by
    intro j
    rw [Job.again]
    cases s.code? (j.key h) <;> cases j.compile <;> simp [Job.isError_failure]
  constructor
  · simp [collect, List.filterMap_map, hbody]
  · have hnone : (p.jobs.flatMap fun j => (j.again h s).diagnostics.filter (!·.isError)) = [] :=
      List.flatMap_eq_nil_iff.2 fun j _ => herrors j
    simp [collect, Diagnostic.filter_sort, List.filter_flatMap, List.flatMap_map, hnone]

/-- **Again.** Whatever stands in the memory of a store, after compiling, in the order of whatever
schedule, the records of the bodies hold what was given for them, in the order of the source, and
there is none of use for a body that gave nothing. Compiling again, in the order of whatever
schedule, takes all code from there, gives the same errors, and warns of nothing but what loading
warned of. The fingerprints of the bodies tell them apart, and records can hold what they compile
to. -/
theorem Program.compiled_again (h : Hashing) (p : Program) (shared : Shared)
    (hbodies : p.TellsApart h) (hstore : shared.store.InMemory) (ht : shared.interner.Distinct)
    (hfits : ∀ j ∈ p.jobs, ∀ code, j.compile = .ok code → Cache.Record.Fits (j.key h) code) :
    p.Ensures h shared fun first left =>
      first.bodies.map .anyhow =
        p.jobs.filterMap (fun j => (left.store.code? (j.key h)).map (j.withCode · false)) ∧
      p.Ensures h left fun second _ =>
        second.bodies = first.bodies.map (fun compiled => { compiled with cached := true }) ∧
        second.diagnostics.filter Diagnostic.isError =
          first.diagnostics.filter Diagnostic.isError ∧
        second.diagnostics.filter (!·.isError) =
          Diagnostic.sort (p.loadDiagnostics.filter (!·.isError)) := by
  have hkeys := hbodies.eq_of_key
  refine ensures_of_sound hkeys hstore ht fun session results hs hresults => ?_
  obtain ⟨hends, hdone⟩ := hs.results hresults
  obtain ⟨hagain, hwarnings⟩ := p.collect_again h session.shared.store
  -- the first time gives what compiling again gives, but for what comes from the store
  have hanswer : (p.collect results).answer =
      (p.collect (p.jobs.map (·.again h session.shared.store))).answer := by
    refine p.answer_collect ?_
    rw [List.map_map]
    exact map_eq_of_forall₂ hends fun j hj result hend =>
      hs.answer_again hdone hj (hfits j hj) hend
  have hfirst : (p.collect results).bodies.map .anyhow = p.jobs.filterMap (fun j =>
      (session.shared.store.code? (j.key h)).map (j.withCode · false)) := by
    refine (congrArg Prod.fst hanswer).trans ?_
    rw [Output.answer, hagain, List.map_filterMap]
    simp [Function.comp_def, CompiledBody.anyhow, Job.withCode]
  refine ⟨hfirst, ensures_of_sound hkeys hs.store hs.interner ?_⟩
  intro again results' hs' hresults'
  have hsecond : results' = p.jobs.map (·.again h session.shared.store) := by
    have hmap := map_eq_of_forall₂ (g := id) (hs'.results hresults').1 fun j hj result hend =>
      hend.eq_again (hs.mended hdone hj (hfits j hj))
    rwa [List.map_id] at hmap
  rw [hsecond]
  refine ⟨?_, congrArg Prod.snd hanswer.symm, hwarnings⟩
  calc (p.collect (p.jobs.map (·.again h session.shared.store))).bodies
    _ = (p.jobs.filterMap (fun j => (session.shared.store.code? (j.key h)).map
          (j.withCode · false))).map (fun compiled => { compiled with cached := true }) := by
        rw [hagain, List.map_filterMap]
        simp [Function.comp_def, Job.withCode]
    _ = ((p.collect results).bodies.map CompiledBody.anyhow).map
          (fun compiled => { compiled with cached := true }) := by rw [hfirst]
    _ = (p.collect results).bodies.map (fun compiled => { compiled with cached := true }) := by
        rw [List.map_map]
        rfl

/-- The record that the method evicted and wrote again is found the second time. -/
theorem racing_again : ∃ first left second last,
    racingProgram.compileAlong methodHashing [0, 2, 0, 0, 0, 2, 2, 2, 1, 1, 1, 1]
      ⟨litteredStore, {}⟩ = some (first, left) ∧
    racingProgram.compileAlong methodHashing [1, 1, 1, 1, 2, 0, 2, 0, 2, 0, 2, 0] left =
      some (second, last) ∧
    second.bodies = first.bodies.map (fun compiled => { compiled with cached := true }) ∧
    second.diagnostics.filter Diagnostic.isError = first.diagnostics.filter Diagnostic.isError ∧
    second.diagnostics.filter (!·.isError) = [] := by
  have hfits : ∀ j ∈ racingProgram.jobs, ∀ code, j.compile = .ok code →
      Cache.Record.Fits (j.key methodHashing) code := by
    intro j hj code hcode
    rcases body_racing j hj with rfl | rfl
    · obtain rfl := Except.ok.inj (compile_once.symm.trans hcode)
      rw [key_once]
      refine ⟨⟨by decide, by decide⟩, by decide, fun i hi text htext => ?_⟩
      simp only [List.mem_cons, List.not_mem_nil, or_false] at hi
      rcases hi with rfl | rfl | rfl
      · cases htext
      · obtain rfl := List.mem_singleton.1 htext
        decide
      · cases htext
    · rw [compile_twice] at hcode
      cases hcode
  have hensures := Program.compiled_again methodHashing racingProgram ⟨litteredStore, {}⟩
    tellsApart_racing inMemory_littered List.nodup_nil hfits
  obtain ⟨hends, hfirst⟩ := hensures [0, 2, 0, 0, 0, 2, 2, 2, 1, 1, 1, 1]
  obtain ⟨⟨first, left⟩, hend⟩ := Option.isSome_iff_exists.1 (hends (by decide +kernel))
  obtain ⟨-, hagain⟩ := hfirst first left hend
  obtain ⟨hends', hsecond⟩ := hagain [1, 1, 1, 1, 2, 0, 2, 0, 2, 0, 2, 0]
  obtain ⟨⟨second, last⟩, hend'⟩ := Option.isSome_iff_exists.1 (hends' (by decide +kernel))
  obtain ⟨hbodies, herrors, hwarnings⟩ := hsecond second last hend'
  exact ⟨first, left, second, last, hend, hend', hbodies, herrors,
    hwarnings.trans List.mergeSort_nil⟩

end Formals
