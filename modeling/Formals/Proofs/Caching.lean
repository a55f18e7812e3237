import Formals.Project.Program
import Formals.Proofs.Frames
import Formals.Proofs.Records
import Formals.Proofs.RoundTrip
import Formals.Proofs.Sorting

/-!
# The cache changes nothing

`History` is every store that compiles and whatever else happens to a cache can lead to. The bytes
in it may be anything but a record that is read with the wrong code for the key it names
(`Sincere`), and each step keeps it so (`History.sincere`). So what a job takes from the cache is
what it compiles to (`Store.Sincere.compile_of_get`), and a program that is compiled with a cache
gives the code and the errors that it gives without (`compile_eq_uncached`).

The fingerprints have to tell the bodies apart (`TellsApart`). What is hashed is the text of a body,
and bodies that are read have different texts if they are different, so for them it is enough that
different texts have different fingerprints (`Separates.tellsApart`). It is not for bodies that
are put together otherwise: two of them can have one text (`twins_confused`).
-/

namespace Formals

/-! ## Answers -/

/-- A compiled body, wherever its code comes from. -/
def CompiledBody.anyhow (compiled : CompiledBody) : CompiledBody :=
  { compiled with cached := false }

/-- What a job answers: the compiled body and the errors. -/
def Job.Result.answer (r : Job.Result) : Option CompiledBody × List Diagnostic :=
  (r.compiled.map .anyhow, r.diagnostics.filter Diagnostic.isError)

/-- What compiling answers: the compiled bodies and the errors. -/
def Output.answer (o : Output) : List CompiledBody × List Diagnostic :=
  (o.bodies.map .anyhow, o.diagnostics.filter Diagnostic.isError)

/-- The answer of a program is put together from the answers of its jobs. -/
theorem Program.answer_eq (p : Program) (results : List Job.Result) : (p.collect results).answer =
    ((results.map Job.Result.answer).filterMap (·.1),
      Diagnostic.sort (p.loadDiagnostics.filter Diagnostic.isError ++
        (results.map Job.Result.answer).flatMap (·.2))) := by
  simp [Output.answer, collect, Diagnostic.filter_sort, List.filter_flatMap, List.flatMap_map,
    List.map_filterMap, List.filterMap_map, Job.Result.answer, Function.comp_def]

/-- Of the results of the jobs it counts only what they answer. -/
theorem Program.answer_collect (p : Program) {results results' : List Job.Result}
    (h : results.map Job.Result.answer = results'.map Job.Result.answer) :
    (p.collect results).answer = (p.collect results').answer := by
  rw [p.answer_eq, p.answer_eq, h]

namespace Job

variable {h : Cache.Hashing} {j : Job}

/-- The diagnostic of a body that does not compile is an error. -/
theorem isError_failure (j : Job) (e : BindError) : (j.failure e).isError = true := by
  cases e <;> rfl

/-- Without a cache a job that compiles answers its code. -/
theorem answer_uncached_of_ok {code : Stream} (hcode : j.compile = .ok code) :
    (j.run h none).1.answer = (some (j.withCode code false), []) := by
  rw [run, compileInto, hcode]
  rfl

/-- Without a cache a job that does not compile answers why. -/
theorem answer_uncached_of_error {e : BindError} (he : j.compile = .error e) :
    (j.run h none).1.answer = (none, [j.failure e]) := by
  rw [run, compileInto, he]
  simp [Result.answer, isError_failure]

end Job

/-! ## Histories of a cache -/

namespace Cache

section

variable (h : Hashing) (involved : Job → Prop)

/-- Texts and options of the jobs involved are told apart by their fingerprints. -/
def Separates : Prop := ∀ i j, involved i → involved j →
  (i.key h).fingerprint = (j.key h).fingerprint →
  i.body.toJson.text = j.body.toJson.text ∧ i.localOnly = j.localOnly

/-- Bodies and options of the jobs involved are told apart by their fingerprints. -/
def TellsApart : Prop := ∀ i j, involved i → involved j →
  (i.key h).fingerprint = (j.key h).fingerprint → i.body = j.body ∧ i.localOnly = j.localOnly

/-- Some bytes are no record, or one whose code is what the job compiles to that its key names. -/
def Sincere (bytes : List UInt8) : Prop := ∀ key code, Record.decode bytes = .ok (key, code) →
  ∀ j, involved j → j.key h = key → j.compile = .ok code

/-- The files of a directory are sincere. -/
def Directory.Sincere (directory : Directory) : Prop :=
  ∀ name bytes, (name, Slot.file bytes) ∈ directory → Cache.Sincere h involved bytes

/-- The stores that a cache can come to. -/
inductive History : Store → Prop
  | inMemory : History {}
  /-- A program begins with whatever files there are. -/
  | opened {directory : Directory} : directory.Sincere h involved → History ⟨[], some directory⟩
  /-- Another program goes on with the files. -/
  | reopened {s : Store} : History s → History { s with memory := [] }
  | looked {s : Store} {key : Key} : History s → History (s.get h key).2
  | evicted {s : Store} {key : Key} : History s → History (s.evict h key)
  /-- A job keeps its code, as far as the file can be written. -/
  | kept {s : Store} {j : Job} {code : Stream} : involved j → j.compile = .ok code → History s →
    History (s.insert h (j.key h) code).2
  /-- A record in memory is replaced. -/
  | replaced {s : Store} {key : Key} {bytes : List UInt8} : Sincere h involved bytes → History s →
    History (s.insertRaw key bytes)
  /-- Files are replaced or removed, or cannot be read and written from now on. -/
  | changed {s : Store} {before after : Directory} : s.directory = some before →
    after.Sincere h involved → History s → History { s with directory := some after }

end

end Cache

/-! ## What is in a store -/

namespace Cache

variable {h : Hashing} {involved : Job → Prop}

/-- All bytes in a store are sincere. -/
structure Store.Sincere (h : Hashing) (involved : Job → Prop) (s : Store) : Prop where
  memory : ∀ entry ∈ s.memory, Cache.Sincere h involved entry.2
  directory : ∀ directory ∈ s.directory, directory.Sincere h involved

namespace Store.Sincere

variable {s : Store} {key : Key} {bytes : List UInt8}

/-- A record in memory may be replaced by sincere bytes. -/
theorem insertRaw (hbytes : Cache.Sincere h involved bytes) (hs : s.Sincere h involved) :
    (s.insertRaw key bytes).Sincere h involved where
  memory entry hentry := by
    rcases Entries.mem_insert hentry with rfl | hentry
    · exact hbytes
    · exact hs.memory entry hentry
  directory := hs.directory

/-- Looking into a store leaves it sincere: at most a file is copied into memory. -/
theorem get (hs : s.Sincere h involved) : (s.get h key).2.Sincere h involved := by
  simp only [Store.get]
  split
  · exact hs
  · split
    · exact hs
    · exact hs
    · rename_i bytes hslot
      split
      · obtain ⟨directory, hdirectory, hfile⟩ := Option.bind_eq_some_iff.1 hslot
        exact hs.insertRaw (hs.directory directory hdirectory _ _ (Entries.mem_of_get? hfile))
      · exact hs

/-- A file may be removed. -/
theorem removeFile (hs : s.Sincere h involved) (name : String) :
    (s.removeFile name).Sincere h involved := by
  rw [Store.removeFile]
  split
  · exact hs
  · rename_i directory hdirectory
    split
    · exact hs
    · refine ⟨hs.memory, fun _ hd => ?_⟩
      cases hd
      exact fun name bytes hfile =>
        hs.directory directory hdirectory name bytes (Entries.mem_of_mem_erase hfile)

/-- A record may be evicted, from memory and from the files. -/
theorem evict (hs : s.Sincere h involved) : (s.evict h key).Sincere h involved := by
  have hmemory : { s with memory := s.memory.erase key }.Sincere h involved :=
    ⟨fun entry hentry => hs.memory entry (Entries.mem_of_mem_erase hentry), hs.directory⟩
  exact hmemory.removeFile _

/-- A file may be written with sincere bytes. -/
theorem writeFile {s' : Store} {name : String} (hbytes : Cache.Sincere h involved bytes)
    (hs : s.Sincere h involved) (hwrite : s.writeFile name bytes = some s') :
    s'.Sincere h involved := by
  rw [Store.writeFile] at hwrite
  split at hwrite
  · cases hwrite
    exact hs
  · rename_i directory hdirectory
    split at hwrite
    · cases hwrite
    · cases hwrite
      refine ⟨hs.memory, fun _ hd => ?_⟩
      cases hd
      intro name bytes' hfile
      rcases Entries.mem_insert hfile with hnew | hold
      · cases hnew
        exact hbytes
      · exact hs.directory directory hdirectory name bytes' hold

/-- A record that is sincere may be kept. If its file cannot be written it is not kept in memory
either. -/
theorem insert {code : Stream} (hcode : Cache.Sincere h involved (Record.encode key code))
    (hs : s.Sincere h involved) : (s.insert h key code).2.Sincere h involved := by
  simp only [Store.insert]
  split
  · rename_i s' hwrite
    exact (hs.writeFile hcode hwrite).insertRaw hcode
  · exact hs

end Store.Sincere

section

variable (hapart : TellsApart h involved)

include hapart

/-- The record that a job keeps is sincere. -/
theorem sincere_encode {j : Job} {code : Stream} (hj : involved j) (hcode : j.compile = .ok code) :
    Sincere h involved (Record.encode (j.key h) code) := by
  intro key code' hdecode i hi hkey
  obtain ⟨rfl, rfl⟩ := Prod.mk.inj (Record.decode_encode hdecode)
  obtain ⟨hbody, hlocal⟩ := hapart i j hi hj (congrArg Key.fingerprint hkey)
  rw [Job.compile, hbody, hlocal]
  exact hcode

/-- **The invariant.** Whatever happens to a cache, the bytes in it are sincere. -/
theorem History.sincere {s : Store} (hs : History h involved s) : s.Sincere h involved := by
  induction hs with
  | inMemory => exact ⟨nofun, nofun⟩
  | opened hdirectory => exact ⟨nofun, fun _ hd => Option.some.inj hd ▸ hdirectory⟩
  | reopened _ ih => exact ⟨nofun, ih.directory⟩
  | looked _ ih => exact ih.get
  | evicted _ ih => exact ih.evict
  | kept hj hcode _ ih => exact ih.insert (sincere_encode hapart hj hcode)
  | replaced hbytes _ ih => exact ih.insertRaw hbytes
  | changed _ hdirectory _ ih => exact ⟨ih.memory, fun _ hd => Option.some.inj hd ▸ hdirectory⟩

end

/-! ## Bodies that are read -/

/-- A program whose units were all read from texts, in files or not. -/
inductive Loaded : Program → Prop
  | empty (options : Options) : Loaded { options }
  | source {p : Program} (name text : String) : Loaded p → Loaded (p.addSource name text)
  | file {p : Program} (name : String) (read : Except String String) : Loaded p →
    Loaded (p.addFile name read)

/-- Adding a text keeps it that the bodies of a program are read from texts. -/
theorem fromJson_addSource {p : Program} {name text : String}
    (hp : ∀ unit ∈ p.units, ∀ body ∈ unit.bodies, body.FromJson) :
    ∀ unit ∈ (p.addSource name text).units, ∀ body ∈ unit.bodies, body.FromJson := by
  intro unit hunit body hbody
  rw [Program.addSource] at hunit
  split at hunit
  case h_1 read hread =>
    rcases List.mem_append.1 hunit with hunit | hunit
    · exact hp unit hunit body hbody
    · rw [List.mem_singleton.1 hunit] at hbody
      refine .text hread ?_
      split at hbody <;> exact hbody
  case h_2 => exact hp unit hunit body hbody

/-- All bodies of a program that is loaded from texts are read from documents. -/
theorem Loaded.fromJson {p : Program} (hp : Loaded p) :
    ∀ unit ∈ p.units, ∀ body ∈ unit.bodies, body.FromJson := by
  induction hp with
  | empty options => exact nofun
  | source name text _ ih => exact fromJson_addSource ih
  | file name read _ ih =>
    cases read with
    | ok text => exact fromJson_addSource ih
    | error reason => exact ih

/-- If all jobs involved are those of programs that were read from texts, then it is enough that
different texts have different fingerprints. -/
theorem Separates.tellsApart (hseparates : Separates h involved)
    (hloaded : ∀ j, involved j → ∃ p, Loaded p ∧ j ∈ p.jobs) : TellsApart h involved := by
  have hread : ∀ j, involved j → j.body.FromJson := by
    intro j hj
    obtain ⟨p, hp, hjob⟩ := hloaded j hj
    obtain ⟨unit, hunit, hjob⟩ := List.mem_flatMap.1 hjob
    obtain ⟨body, hbody, rfl⟩ := List.mem_map.1 hjob
    exact hp.fromJson unit hunit body hbody
  intro i j hi hj heq
  obtain ⟨htext, hlocal⟩ := hseparates i j hi hj heq
  exact ⟨(hread j hj).eq_of_text (hread i hi) htext, hlocal⟩

/-! ## Jobs and programs -/

/-- A record that is read for a key has that key. -/
theorem decode_of_decodeFor {key : Key} {bytes : List UInt8} {code : Stream}
    (hdecode : Record.decodeFor key bytes = .ok code) :
    Record.decode bytes = .ok (key, code) := by
  obtain ⟨⟨found, code'⟩, hfound, hcode⟩ := ok_of_bind hdecode
  dsimp only at hcode
  split at hcode
  · rename_i hkey
    cases hcode
    rw [hfound, hkey]
  · cases hcode

variable {j : Job} {s : Store}

/-- What a job finds in a store is what it compiles to. -/
theorem Store.Sincere.compile_of_get {code : Stream} (hs : s.Sincere h involved) (hj : involved j)
    (hget : (s.get h (j.key h)).1 = .ok (some code)) : j.compile = .ok code := by
  have hfound : ∀ bytes, Cache.Sincere h involved bytes →
      Record.decodeFor (j.key h) bytes = .ok code → j.compile = .ok code :=
    fun bytes hbytes hdecode => hbytes _ _ (decode_of_decodeFor hdecode) j hj rfl
  simp only [Store.get] at hget
  split at hget
  · rename_i bytes hmemory
    cases hdecode : Record.decodeFor (j.key h) bytes with
    | error e =>
      rw [hdecode] at hget
      cases hget
    | ok found =>
      rw [hdecode] at hget
      cases hget
      exact hfound bytes (hs.memory _ (Entries.mem_of_get? hmemory)) hdecode
  · split at hget
    · cases hget
    · cases hget
    · rename_i bytes hslot
      split at hget
      · rename_i found hdecode
        cases hget
        obtain ⟨directory, hdirectory, hfile⟩ := Option.bind_eq_some_iff.1 hslot
        exact hfound bytes (hs.directory directory hdirectory _ _
          (Entries.mem_of_get? hfile)) hdecode
      · cases hget

/-- A job that compiles answers what it answers without a cache, whatever it warns of. -/
theorem answer_compileInto {warnings : List Diagnostic} (cache : Option Store)
    (hwarnings : warnings.filter Diagnostic.isError = []) :
    (j.compileInto h warnings cache).1.answer = (j.run h none).1.answer := by
  simp only [Job.run, Job.compileInto]
  cases j.compile with
  | error e => simp [Job.Result.answer, hwarnings]
  | ok code => simp [Job.Result.answer, hwarnings]

/-- **Jobs.** A job answers what it answers without a cache. -/
theorem Store.Sincere.answer_run (hs : s.Sincere h involved) (hj : involved j) :
    (j.run h (some s)).1.answer = (j.run h none).1.answer := by
  simp only [Job.run]
  split
  · rename_i code s' hfound
    rw [Job.compileInto, hs.compile_of_get hj (congrArg Prod.fst hfound)]
    rfl
  · exact answer_compileInto _ rfl
  · exact answer_compileInto _ rfl

/-- Running a job is a part of a history. -/
theorem History.run (hs : History h involved s) (hj : involved j) :
    ∃ s', (j.run h (some s)).2 = some s' ∧ History h involved s' := by
  have hcompile : ∀ (warnings : List Diagnostic) {s : Store}, History h involved s →
      ∃ s', (j.compileInto h warnings (some s)).2 = some s' ∧ History h involved s' := by
    intro warnings s hs
    rw [Job.compileInto]
    cases hcode : j.compile with
    | error e => exact ⟨s, rfl, hs⟩
    | ok code => exact ⟨_, rfl, .kept hj hcode hs⟩
  have hlooked : History h involved (s.get h (j.key h)).2 := .looked hs
  simp only [Job.run]
  split <;> rename_i s' hfound <;> rw [hfound] at hlooked
  · exact ⟨s', rfl, hlooked⟩
  · exact hcompile _ hlooked
  · exact hcompile _ (.evicted hlooked)

/-- Running jobs one after the other is a part of a history, and each of them answers what it
answers without a cache. -/
theorem History.runAll (hsincere : ∀ s, History h involved s → s.Sincere h involved)
    (hs : History h involved s) {jobs : List Job} (hjobs : ∀ j ∈ jobs, involved j) :
    (Job.runAll h jobs (some s)).1.map Job.Result.answer =
        jobs.map (fun j => (j.run h none).1.answer) ∧
      ∃ s', (Job.runAll h jobs (some s)).2 = some s' ∧ History h involved s' := by
  induction jobs generalizing s with
  | nil => exact ⟨rfl, s, rfl, hs⟩
  | cons j jobs ih =>
    have hj := hjobs j List.mem_cons_self
    obtain ⟨s₁, hs₁, hrun⟩ := hs.run hj
    obtain ⟨hanswers, s', hs', hhistory⟩ := ih hrun fun i hi => hjobs i (List.mem_cons_of_mem _ hi)
    simp only [Job.runAll, hs₁, List.map_cons, (hsincere s hs).answer_run hj, hanswers]
    exact ⟨trivial, s', hs', hhistory⟩

/-- Without a cache jobs are run independently. -/
theorem runAll_none (jobs : List Job) :
    (Job.runAll h jobs none).1 = jobs.map fun j => (j.run h none).1 := by
  induction jobs with
  | nil => rfl
  | cons j jobs ih =>
    have hnone : (j.run h none).2 = none := by
      simp only [Job.run, Job.compileInto]
      cases j.compile <;> rfl
    simp only [Job.runAll, hnone, ih, List.map_cons]

/-- **Transparency.** Whatever happened to a cache, a program that is compiled with it answers what
it answers without one: the same code for every body that compiles, and the same errors. That holds
also if every job finds another one of the stores that the cache can come to, as jobs do that run
side by side. And what compiling leaves is again a store that the cache can come to.

The fingerprints tell the bodies and options involved apart. -/
theorem compile_eq_uncached (h : Hashing) (involved : Job → Prop) (hapart : TellsApart h involved)
    (p : Program) (hjobs : ∀ j ∈ p.jobs, involved j) :
    (∀ s, History h involved s →
      (p.compile h (some s)).1.answer = (p.compile h none).1.answer ∧
        ∃ s', (p.compile h (some s)).2 = some s' ∧ History h involved s') ∧
    ∀ runs : List (Job × Store), runs.map Prod.fst = p.jobs →
      (∀ run ∈ runs, History h involved run.2) →
        (p.collect (runs.map fun run => (run.1.run h (some run.2)).1)).answer =
          (p.compile h none).1.answer := by
  have hsincere : ∀ s, History h involved s → s.Sincere h involved := fun s hs => hs.sincere hapart
  have hnone : (p.compile h none).1 = p.collect (p.jobs.map fun j => (j.run h none).1) :=
    congrArg p.collect (runAll_none p.jobs)
  constructor
  · intro s hs
    obtain ⟨hanswers, hstore⟩ := hs.runAll hsincere hjobs
    refine ⟨?_, hstore⟩
    rw [hnone]
    exact p.answer_collect (by rw [hanswers, List.map_map]; rfl)
  · intro runs hruns hstores
    rw [hnone]
    refine p.answer_collect ?_
    rw [← hruns, List.map_map, List.map_map, List.map_map]
    refine List.map_congr_left fun run hrun => ?_
    have hj : involved run.1 := hjobs _ (hruns ▸ List.mem_map_of_mem hrun)
    exact (hsincere run.2 (hstores run hrun)).answer_run hj

/-- Fingerprints of the option alone, and one file for all records. -/
def optionHashing : Hashing := ⟨fun _ localOnly => if localOnly then 1 else 0, fun _ => "r"⟩

/-- One `for` loop, whose variable belongs to the loop or not. -/
def loopProgram (localOnly : Bool) : Program :=
  ⟨{ forLoopLocalOnly := some localOnly },
    [⟨"a", [.callable .forLoop "loop" (some ⟨[.marker "x"], {}⟩) {}]⟩], []⟩

/-- Of a directory that holds some other file under the name of the record, first the loop with its
own variable is compiled, and then the loop without. -/
theorem loopProgram_uncached :
    ((loopProgram true).compile optionHashing (some ⟨[], some [("r", .file [0])]⟩)).1.answer =
        ((loopProgram true).compile optionHashing none).1.answer ∧
      ∃ s, ((loopProgram true).compile optionHashing (some ⟨[], some [("r", .file [0])]⟩)).2 =
          some s ∧
        ((loopProgram false).compile optionHashing (some s)).1.answer =
          ((loopProgram false).compile optionHashing none).1.answer := by
  let involved (j : Job) : Prop := ∃ o, j ∈ (loopProgram o).jobs
  have hbody : ∀ j, involved j →
      j.body = .callable .forLoop "loop" (some ⟨[.marker "x"], {}⟩) {} := by
    rintro j ⟨o, hj⟩
    rw [List.mem_singleton.1 hj]
  have hapart : TellsApart optionHashing involved := by
    intro i j hi hj heq
    rw [hbody i hi, hbody j hj]
    refine ⟨rfl, ?_⟩
    simp only [Job.key, Key.ofBody, optionHashing] at heq
    revert heq
    cases i.localOnly <;> cases j.localOnly <;> decide
  have hfile : Directory.Sincere optionHashing involved [("r", .file [0])] := by
    intro name bytes hfile
    obtain ⟨-, rfl⟩ : name = "r" ∧ bytes = [0] := by simpa using hfile
    intro key code hdecode
    have hdamaged : Record.decode [0] = .error (.damaged (.truncated 1)) := rfl
    cases hdamaged.symm.trans hdecode
  obtain ⟨hanswer, s, hs, hhistory⟩ := (compile_eq_uncached optionHashing involved hapart
    (loopProgram true) fun j hj => ⟨true, hj⟩).1 _ (.opened hfile)
  exact ⟨hanswer, s, hs, ((compile_eq_uncached optionHashing involved hapart
    (loopProgram false) fun j hj => ⟨false, hj⟩).1 s hhistory).1⟩

/-! ## Bodies that are confused -/

section

variable {key : Key} {code : Stream} (hkey : j.key h = key)

include hkey

/-- What stands in memory under the key of a job is found first. -/
theorem answer_insertRaw {bytes : List UInt8} (hdecode : Record.decodeFor key bytes = .ok code) :
    (j.run h (some (s.insertRaw key bytes))).1.answer = (some (j.withCode code false), []) := by
  subst hkey
  have hraw : (s.insertRaw (j.key h) bytes).memory.get? (j.key h) = some bytes := by
    rw [Store.insertRaw, Entries.get?_insert, if_pos rfl]
  simp only [Job.run, Store.get, hraw, hdecode]
  rfl

/-- A job takes its code from a record under its key, whoever wrote it. -/
theorem answer_written (hfits : Record.Fits key code) :
    (j.run h (some (s.insertRaw key (Record.encode key code)))).1.answer =
      (some (j.withCode code false), []) := by
  refine answer_insertRaw hkey ?_
  rw [Record.decodeFor, hfits.decode]
  exact if_pos rfl

end

/-- A method with one parameter. -/
def methodOf (node : ParamNode) : Job := ⟨"u", .callable .method "m" (some ⟨[node], {}⟩) {}, true⟩

/-- A program that has this method only. -/
def programOf (node : ParamNode) : Program := { units := [⟨"u", [(methodOf node).body]⟩] }

/-- The answer of the program is that of its method. -/
theorem answer_programOf {node : ParamNode} {cache : Option Store} {body : Option CompiledBody}
    {errors : List Diagnostic} (hrun : ((methodOf node).run h cache).1.answer = (body, errors)) :
    ((programOf node).compile h cache).1.answer = (body.toList, Diagnostic.sort errors) := by
  have hjobs : (programOf node).jobs = [methodOf node] := rfl
  rw [Program.compile, Program.answer_eq, hjobs]
  simp only [Job.runAll, List.map_cons, List.map_nil, hrun, List.flatMap_cons, List.flatMap_nil,
    List.append_nil]
  cases body <;> rfl

/-- **Confusion.** If the method compiles, then the program of any method with its key answers the
same code afterwards. -/
theorem answer_confused {node twin : ParamNode} {code : Stream}
    (hkey : (methodOf twin).key h = (methodOf node).key h)
    (hcode : (methodOf node).compile = .ok code)
    (hfits : Record.Fits ((methodOf node).key h) code) :
    ((programOf twin).compile h ((programOf node).compile h (some {})).2).1.answer =
      ([(methodOf twin).withCode code false], []) := by
  have hjobs : (programOf node).jobs = [methodOf node] := rfl
  have hget : ({} : Store).get h ((methodOf node).key h) = (.ok none, {}) := rfl
  have hstore : ((programOf node).compile h (some {})).2 =
      some (({} : Store).insertRaw ((methodOf node).key h)
        (Record.encode ((methodOf node).key h) code)) := by
    rw [Program.compile, hjobs]
    simp only [Job.runAll, Job.run, hget, Job.compileInto, hcode]
    rfl
  rw [hstore, answer_programOf (answer_written hkey hfits), Diagnostic.sort, List.mergeSort_nil]
  rfl

/-- The code that binds a parameter. -/
def bindingOf (name : String) : Stream := [⟨.arrayShift, {}⟩, ⟨.localSet name true, {}⟩, ⟨.pop, {}⟩]

/-- If the parameter is required, then that is the code of the method. -/
theorem compile_methodOf {node : ParamNode} {name : String}
    (hcheck : ParamList.check? (some ⟨[node], {}⟩) = .ok [.required name {}]) :
    (methodOf node).compile = .ok (bindingOf name) := by
  have hbind : bindParams [.required name {}] true = .ok (bindingOf name) := by cbv
  rw [Job.compile, methodOf, Body.compile, ParamList.compile?, hcheck]
  exact hbind

/-- The key of a method whose parameter is written as `"a"`, whatever the parameter is. -/
def keyA : Key := ⟨"u", "m", 18332283184403164727⟩

/-- A record of this key without code. The number of instructions has a byte too many. -/
def paddedRecord : List UInt8 :=
  [65, 82, 71, 66, 1, 1, 117, 1, 109, 129, 254, 180, 214, 205, 215, 193, 222, 220, 55, 128, 0]

/-- **Twins.** A malformed node that was put together by hand may be written as a marker is. Then
the code of the method with the one is taken from the cache for the method with the other, which
does not compile, although no two texts have one fingerprint. And a record need not be as it is
written to be taken from the cache: its numbers may have bytes that say nothing. -/
theorem twins_confused :
    (let involved (j : Job) : Prop :=
      j = methodOf (.marker "a") ∨ j = methodOf (.malformed (.str "a"))
    Separates .standard involved ∧ ∃ s, History .standard involved s ∧
      ((programOf (.malformed (.str "a"))).compile .standard (some s)).1.answer ≠
        ((programOf (.malformed (.str "a"))).compile .standard none).1.answer) ∧
    (∀ key code, Record.encode key code ≠ paddedRecord) ∧
      ((programOf (.marker "a")).compile .standard
          (some (({} : Store).insertRaw keyA paddedRecord))).1.answer ≠
        ((programOf (.marker "a")).compile .standard none).1.answer := by
  have hmarker : (methodOf (.marker "a")).key .standard = keyA := by decide +kernel
  have htwin : (methodOf (.malformed (.str "a"))).key .standard = keyA := by decide +kernel
  have hcode : (methodOf (.marker "a")).compile = .ok (bindingOf "a") := compile_methodOf rfl
  have hmalformed : (methodOf (.malformed (.str "a"))).compile =
      .error (.malformed (.unrecognized .parameter none) {}) := by cbv
  have hfits : Record.Fits ((methodOf (.marker "a")).key .standard) (bindingOf "a") := by
    rw [hmarker]
    exact ⟨⟨by decide, by decide⟩, by decide, by unfold Instruction.InMemory; decide⟩
  have hpadded : Record.decode paddedRecord = .ok (keyA, []) := rfl
  refine ⟨⟨fun i j hi hj _ => ?_, _, .kept (.inl rfl) hcode .inMemory, fun heq => ?_⟩,
    fun key code hwritten => ?_, fun heq => ?_⟩
  · rcases hi with rfl | rfl <;> rcases hj with rfl | rfl <;> exact ⟨rfl, rfl⟩
  · have hcached := answer_programOf (answer_written (s := {}) (htwin.trans hmarker.symm) hfits)
    have hnone := answer_programOf (Job.answer_uncached_of_error (h := .standard) hmalformed)
    cases hcached.symm.trans (heq.trans hnone)
  · rw [← hwritten] at hpadded
    obtain ⟨rfl, rfl⟩ := Prod.mk.inj (Record.decode_encode hpadded)
    exact absurd hwritten (by decide +kernel)
  · have hread : Record.decodeFor keyA paddedRecord = .ok [] := rfl
    have hcached := answer_programOf (answer_insertRaw (s := {}) hmarker hread)
    have hnone := answer_programOf (Job.answer_uncached_of_ok (h := .standard) hcode)
    cases hcached.symm.trans (heq.trans hnone)

end Cache

end Formals
