import Formals.CommandLine.Command
import Formals.Proofs.SideBySide

/-!
# Bodies by name

A name is looked up twice when a body is run: among the compiled bodies, for the code, and among the
bodies of the program, for what to do with the code. Compiled bodies are listed in the order of the
source. Without errors none of them is left out (`Program.CompilesTo.aligned`), so that the first
compiled body with a name is the first body with that name, compiled (`Program.CompilesTo.found`).
-/

namespace Formals

open Cache (Hashing Store)

/-! ## Outputs without errors -/

/-- What compiling a program can give: without a cache, with one that has a history, or with its
jobs side by side, each of which finds some store with a history. -/
inductive Program.CompilesTo (h : Hashing) (involved : Job → Prop) (p : Program) : Output → Prop
  | uncached : p.CompilesTo h involved (p.compile h none).1
  | cached {s : Store} : Cache.History h involved s →
    p.CompilesTo h involved (p.compile h (some s)).1
  | sideBySide {runs : List (Job × Store)} : runs.map Prod.fst = p.jobs →
    (∀ run ∈ runs, Cache.History h involved run.2) →
    p.CompilesTo h involved (p.collect (runs.map fun run => (run.1.run h (some run.2)).1))

namespace Job

variable {h : Hashing} {j : Job}

/-- A compiled body is what a job compiles to. -/
structure CompiledAs (j : Job) (compiled : CompiledBody) : Prop where
  name : compiled.name = j.body.name
  compile : j.compile = .ok compiled.code

/-- The answer of a job has no error exactly if the job compiles. -/
theorem answer_clean_iff : (j.run h none).1.answer.2 = [] ↔ ∃ code, j.compile = .ok code := by
  cases hcode : j.compile with
  | error e => simp [answer_uncached_of_error hcode]
  | ok code => simp [answer_uncached_of_ok hcode]

/-- Jobs that compile give the compiled bodies in their answers, one after the other. -/
theorem compiledAs_of_answers {jobs : List Job} : ∀ {bodies : List CompiledBody},
    (∀ j ∈ jobs, ∃ code, j.compile = .ok code) →
    bodies.map .anyhow = jobs.filterMap (fun j => (j.run h none).1.answer.1) →
    List.Forall₂ CompiledAs jobs bodies := by
  induction jobs with
  | nil =>
    intro bodies _ hbodies
    rw [List.map_eq_nil_iff.1 hbodies]
    exact .nil
  | cons j jobs ih =>
    intro bodies hall hbodies
    obtain ⟨⟨code, hcode⟩, hjobs⟩ := List.forall_mem_cons.1 hall
    rw [List.filterMap_cons, answer_uncached_of_ok hcode] at hbodies
    obtain ⟨compiled, others, rfl, hcompiled, hothers⟩ := List.map_eq_cons_iff.1 hbodies
    have hname := congrArg CompiledBody.name hcompiled
    have hsame := congrArg CompiledBody.code hcompiled
    exact .cons ⟨hname, hcode.trans (congrArg Except.ok hsame.symm)⟩ (ih hjobs hothers)

end Job

namespace Program

variable {h : Hashing} {involved : Job → Prop} {p : Program} {output : Output}

section

variable (hapart : Cache.TellsApart h involved) (hjobs : ∀ j ∈ p.jobs, involved j)
  (hcompiles : p.CompilesTo h involved output)

include hapart hjobs hcompiles

/-- Whatever compiling can give, it is put together from what the jobs answer without a cache. -/
theorem CompilesTo.answer : output.answer =
    (p.jobs.filterMap (fun j => (j.run h none).1.answer.1),
      Diagnostic.sort (p.loadDiagnostics.filter Diagnostic.isError ++
        p.jobs.flatMap fun j => (j.run h none).1.answer.2)) := by
  have hsincere : ∀ s, Cache.History h involved s → s.Sincere h involved := fun s hs =>
    hs.sincere hapart
  have hcollect : ∀ results : List Job.Result,
      results.map Job.Result.answer = p.jobs.map (fun j => (j.run h none).1.answer) →
      (p.collect results).answer = (p.jobs.filterMap (fun j => (j.run h none).1.answer.1),
        Diagnostic.sort (p.loadDiagnostics.filter Diagnostic.isError ++
          p.jobs.flatMap fun j => (j.run h none).1.answer.2)) := by
    intro results hresults
    rw [p.answer_eq, hresults, List.filterMap_map, List.flatMap_map]
    rfl
  cases hcompiles with
  | uncached =>
    refine hcollect _ ?_
    rw [Cache.runAll_none, List.map_map]
    rfl
  | cached hs => exact hcollect _ (hs.runAll hsincere hjobs).1
  | sideBySide hruns hstores =>
    refine hcollect _ ?_
    rw [← hruns, List.map_map, List.map_map]
    refine List.map_congr_left fun run hrun => ?_
    have hj : involved run.1 := hjobs _ (hruns ▸ List.mem_map_of_mem hrun)
    exact (hsincere run.2 (hstores run hrun)).answer_run hj

/-- There are no errors exactly if the units were loaded without any and all bodies compile. -/
theorem CompilesTo.clean_iff : Diagnostic.errorCount output.diagnostics = 0 ↔
    p.loadDiagnostics.filter Diagnostic.isError = [] ∧
      ∀ j ∈ p.jobs, ∃ code, j.compile = .ok code := by
  have herrors : output.diagnostics.filter Diagnostic.isError = _ :=
    congrArg Prod.snd (hcompiles.answer hapart hjobs)
  rw [Diagnostic.errorCount, List.countP_eq_length_filter, herrors, Diagnostic.sort,
    List.length_mergeSort, List.length_eq_zero_iff, List.append_eq_nil_iff,
    List.flatMap_eq_nil_iff]
  simp only [Job.answer_clean_iff]

/-- Without errors there is one compiled body for each job, and they are in one order. -/
theorem CompilesTo.aligned (hclean : Diagnostic.errorCount output.diagnostics = 0) :
    List.Forall₂ Job.CompiledAs p.jobs output.bodies :=
  Job.compiledAs_of_answers ((hcompiles.clean_iff hapart hjobs).1 hclean).2
    (congrArg Prod.fst (hcompiles.answer hapart hjobs))

end

/-! ## Finding a body -/

/-- What a name finds in two lists that go together goes together. -/
theorem find?_of_compiledAs {jobs : List Job} {bodies : List CompiledBody}
    (hcompiled : List.Forall₂ Job.CompiledAs jobs bodies) (name : String) :
    (jobs.find? (·.body.name = name) = none ∧ bodies.find? (·.name = name) = none) ∨
      ∃ j compiled, jobs.find? (·.body.name = name) = some j ∧
        bodies.find? (·.name = name) = some compiled ∧ j.CompiledAs compiled := by
  induction hcompiled with
  | nil => exact .inl ⟨rfl, rfl⟩
  | @cons j compiled jobs bodies hfirst _ ih =>
    rw [List.find?_cons, List.find?_cons, hfirst.name]
    split
    · exact .inr ⟨j, compiled, rfl, rfl, hfirst⟩
    · exact ih

/-- A program has a job for each of its bodies, in their order. -/
theorem bodies_eq (p : Program) : p.bodies = p.jobs.map Job.body := by
  simp [bodies, jobs, List.map_flatMap, Function.comp_def]

/-- A job is compiled under the options of its program. -/
theorem localOnly_of_mem_jobs {j : Job} (hj : j ∈ p.jobs) :
    j.localOnly = p.options.namesLocal j.body := by
  simp only [jobs, List.mem_flatMap, List.mem_map] at hj
  obtain ⟨unit, -, body, -, rfl⟩ := hj
  rfl

/-- A name finds a compiled body exactly if it finds a body, and then it is that body, compiled. -/
theorem CompilesTo.found (hapart : Cache.TellsApart h involved)
    (hjobs : ∀ j ∈ p.jobs, involved j) (hcompiles : p.CompilesTo h involved output)
    (hclean : Diagnostic.errorCount output.diagnostics = 0) (name : String) :
    (p.findBody? name = none ∧ output.body? name = none) ∨
      ∃ body compiled, p.findBody? name = some body ∧ output.body? name = some compiled ∧
        body.compile (p.options.namesLocal body) = .ok compiled.code := by
  have hjob : p.findBody? name = (p.jobs.find? (·.body.name = name)).map Job.body := by
    rw [findBody?, bodies_eq, List.find?_map]
    rfl
  rw [hjob]
  rcases find?_of_compiledAs (hcompiles.aligned hapart hjobs hclean) name with
    ⟨hnone, hbody⟩ | ⟨j, compiled, hsome, hbody, hcompiled⟩
  · exact .inl ⟨by rw [hnone]; rfl, hbody⟩
  · refine .inr ⟨j.body, compiled, by rw [hsome]; rfl, hbody, ?_⟩
    rw [← localOnly_of_mem_jobs (List.mem_of_find?_eq_some hsome)]
    exact hcompiled.compile

end Program

/-! ## Running what was found -/

namespace CommandLine

/-- How code is run for a body on a value: for an assignment the value is the right-hand side, and
for any other body it is the array of the arguments. -/
def invocation? (body : Body) (code : Stream) (h : Heap) (v : Value) : Option (Exec Unit) :=
  match body with
  | .assignment .. => some (Machine.assign code v)
  | .callable .. => (v.items? h).map (Machine.bindArguments code)

/-- What running code for a body on the text of a value tells. -/
def runFor (body : Body) (code : Stream) (name args : String) : Except Failure String := do
  let (value, heap) ← valueOfText args
  match invocation? body code heap value with
  | none => throw (.argsNotArray name)
  | some exec =>
    match exec (Machine.fresh heap) with
    | .ok _ machine => return bindingsText machine
    | .error e _ => throw (.callFailed name e)

variable {p : Program} {output : Output} {name : String}

/-- A name under which nothing was compiled cannot be run, whatever the arguments. -/
theorem runBody_of_none (hnone : output.body? name = none) (args : String) :
    runBody p output name args = .error (.noBody name) := by
  rw [runBody, hnone]
  rfl

/-- A name that finds a body and its code has that code run for that body. -/
theorem runBody_of_some {body : Body} {compiled : CompiledBody}
    (hbody : p.findBody? name = some body) (hcompiled : output.body? name = some compiled)
    (args : String) : runBody p output name args = runFor body compiled.code name args := by
  rw [runBody, runFor, hcompiled, hbody]
  refine bind_congr fun ⟨value, heap⟩ => ?_
  cases body with
  | assignment => rfl
  | callable =>
    simp only [invocation?]
    cases value.items? heap <;> rfl

/-- **Bodies by name.** If compiling gives no errors, then a name finds a compiled body exactly if
it finds a body of the program. The code that is run under the name is what that body compiles to
under the options of the program, and it is run for that body: as an assignment if it is one, and
otherwise as a call. Names may be repeated, in one unit or in several.

The fingerprints tell the bodies and options involved apart. -/
theorem named_body_runs (h : Hashing) (involved : Job → Prop)
    (hapart : Cache.TellsApart h involved) (p : Program) (hjobs : ∀ j ∈ p.jobs, involved j)
    (output : Output) (hcompiles : p.CompilesTo h involved output)
    (hclean : Diagnostic.errorCount output.diagnostics = 0) (name : String) :
    ((output.body? name).isSome ↔ (p.findBody? name).isSome) ∧
    (p.findBody? name = none → ∀ args, runBody p output name args = .error (.noBody name)) ∧
    ∀ body compiled, p.findBody? name = some body → output.body? name = some compiled →
      body.compile (p.options.namesLocal body) = .ok compiled.code ∧
      ∀ args, runBody p output name args = runFor body compiled.code name args := by
  rcases hcompiles.found hapart hjobs hclean name with
    ⟨hbody, hcompiled⟩ | ⟨body, compiled, hbody, hcompiled, hcode⟩
  · rw [hbody, hcompiled]
    exact ⟨Iff.rfl, fun _ => runBody_of_none hcompiled, nofun⟩
  · rw [hbody, hcompiled]
    refine ⟨by simp, nofun, ?_⟩
    rintro _ _ ⟨⟩ ⟨⟩
    exact ⟨hcode, runBody_of_some hbody hcompiled⟩

/-- An assignment under the name of the method. -/
def namesake : Body := .assignment "m" ⟨[.var .ofScope "y" {}], {}⟩ {}

/-- The method in one unit, and the assignment in another one. -/
def twiceNamed : Program := { units := [⟨"a", [nameMethod false]⟩, ⟨"b", [namesake]⟩] }

/-- The assignment takes one value of the right-hand side and binds it. -/
theorem compile_namesake : (⟨"b", namesake, true⟩ : Job).compile =
    .ok [⟨.arrayShift, {}⟩, ⟨.localSet "y" false, {}⟩, ⟨.pop, {}⟩] := by
  cbv

/-- Under the name the method is run, although the cache has something else for both bodies. -/
theorem method_runs_first : ∃ compiled : CompiledBody,
    (nameMethod false).compile true = .ok compiled.code ∧
    ∀ args, runBody twiceNamed
        (twiceNamed.compile methodHashing (some ⟨[], some [("r", .file [0])]⟩)).1 "m" args =
      runFor (nameMethod false) compiled.code "m" args := by
  have hbody : ∀ j ∈ twiceNamed.jobs, j = ⟨"a", nameMethod false, true⟩ ∨
      j = ⟨"b", namesake, true⟩ := by
    simp [twiceNamed, namesake, Program.jobs, nameMethod, Options.namesLocal]
  have htext : namesake.toJson.text ≠ (nameMethod false).toJson.text := by
    decide +kernel
  have hapart : Cache.TellsApart methodHashing (· ∈ twiceNamed.jobs) := by
    intro i j hi hj heq
    change (if i.body.toJson.text = _ then 1 else 2) =
      (if j.body.toJson.text = _ then 1 else 2) at heq
    rcases hbody i hi with rfl | rfl <;> rcases hbody j hj with rfl | rfl <;>
      simp [htext] at heq ⊢
  have hfile : Cache.Directory.Sincere methodHashing (· ∈ twiceNamed.jobs)
      [("r", .file [0])] := by
    intro name bytes hfile
    obtain ⟨-, rfl⟩ : name = "r" ∧ bytes = [0] := by simpa using hfile
    intro key code hdecode
    cases (show Except.error _ = Except.ok _ from hdecode)
  have hcompiles : twiceNamed.CompilesTo methodHashing (· ∈ twiceNamed.jobs) _ :=
    .cached (.opened hfile)
  have hclean : Diagnostic.errorCount (twiceNamed.compile methodHashing
      (some ⟨[], some [("r", .file [0])]⟩)).1.diagnostics = 0 := by
    refine (hcompiles.clean_iff hapart fun _ => id).2 ⟨rfl, fun j hj => ?_⟩
    rcases hbody j hj with rfl | rfl
    · exact ⟨_, compile_once⟩
    · exact ⟨_, compile_namesake⟩
  obtain ⟨hsome, -, hruns⟩ := named_body_runs methodHashing (· ∈ twiceNamed.jobs) hapart
    twiceNamed (fun _ => id) _ hcompiles hclean "m"
  obtain ⟨compiled, hcompiled⟩ := Option.isSome_iff_exists.1 (hsome.2 rfl)
  exact ⟨compiled, hruns _ compiled rfl hcompiled⟩

/-! ## Bodies with one fingerprint -/

/-- The node of a parameter with a name that is as good as any. -/
def firstTwin : ParamNode := .marker "aaaaaaaRwbuMTcIF1qnd2w1"

/-- The node of another parameter, whose method has the same fingerprint. -/
def secondTwin : ParamNode := .marker "aaaaaaaIiiPmpUB11zBK74D"

/-- **Collisions.** Fingerprints do not tell all bodies apart. If a method is compiled into the
cache that has the fingerprint of another method, then under the name of that one the code of the
first is run, and nothing is told of it. -/
theorem twin_runs_instead :
    let first := Cache.programOf firstTwin
    let second := Cache.programOf secondTwin
    let output := (second.compile .standard (first.compile .standard (some {})).2).1
    Diagnostic.errorCount output.diagnostics = 0 ∧
      ∃ body compiled, second.findBody? "m" = some body ∧ output.body? "m" = some compiled ∧
        body.compile (second.options.namesLocal body) ≠ .ok compiled.code := by
  intro first second output
  have hkey : (Cache.methodOf firstTwin).key .standard = ⟨"u", "m", 6606408143065350640⟩ := by
    decide +kernel
  have hkey' : (Cache.methodOf secondTwin).key .standard = ⟨"u", "m", 6606408143065350640⟩ := by
    decide +kernel
  have hcode : (Cache.methodOf firstTwin).compile =
      .ok (Cache.bindingOf "aaaaaaaRwbuMTcIF1qnd2w1") := Cache.compile_methodOf rfl
  have hcode' : (Cache.methodOf secondTwin).compile =
      .ok (Cache.bindingOf "aaaaaaaIiiPmpUB11zBK74D") := Cache.compile_methodOf rfl
  have hfits : Cache.Record.Fits ((Cache.methodOf firstTwin).key .standard)
      (Cache.bindingOf "aaaaaaaRwbuMTcIF1qnd2w1") := by
    rw [hkey]
    exact ⟨⟨by decide, by decide⟩, by decide, by unfold Instruction.InMemory; decide⟩
  have hanswer : output.answer = ([(Cache.methodOf secondTwin).withCode
      (Cache.bindingOf "aaaaaaaRwbuMTcIF1qnd2w1") false], []) :=
    Cache.answer_confused (hkey'.trans hkey.symm) hcode hfits
  obtain ⟨compiled, hbodies, hcompiled⟩ := List.map_eq_singleton_iff.1 (congrArg Prod.fst hanswer)
  have herrors : output.diagnostics.filter Diagnostic.isError = [] := congrArg Prod.snd hanswer
  refine ⟨?_, _, compiled, rfl, ?_, fun hright => ?_⟩
  · rw [Diagnostic.errorCount, List.countP_eq_length_filter, herrors, List.length_nil]
  · have hname : compiled.name = "m" := congrArg CompiledBody.name hcompiled
    rw [Output.body?, hbodies, List.find?_cons_of_pos (by simpa using hname)]
  · have hsame : compiled.code = Cache.bindingOf "aaaaaaaRwbuMTcIF1qnd2w1" :=
      congrArg CompiledBody.code hcompiled
    have heq : Cache.bindingOf "aaaaaaaIiiPmpUB11zBK74D" = compiled.code :=
      Except.ok.inj (hcode'.symm.trans hright)
    exact absurd (heq.trans hsame) (by decide)

end CommandLine

end Formals
