import Formals.Binding.Interned
import Formals.Project.Program

/-!
# Compiling side by side

The jobs of a program run side by side and share a store and an interner. A job goes in steps: it
looks its record up, evicts the record if that is of no use, binds the body and keeps the code. A
step is made as a whole, and between two steps of a job the others may make theirs: a schedule says
whose turn it is.
-/

namespace Formals

/-- How far a job is. -/
inductive Progress where
  /-- It has not looked its record up. -/
  | ready
  /-- It has found that its record is of no use. -/
  | evicting (fault : Cache.Fault)
  /-- It has no record to take code from. -/
  | unbound (warnings : List Diagnostic)
  /-- It has code that it has not kept. -/
  | bound (warnings : List Diagnostic) (code : Stream)
  | done (result : Job.Result)
  deriving Repr

/-- What jobs share. -/
structure Shared where
  store : Cache.Store
  interner : Interner := {}

/-- One step of a job. -/
def Progress.advance (h : Cache.Hashing) (j : Job) (shared : Shared) :
    Progress → Progress × Shared
  | ready =>
    match shared.store.get h (j.key h) with
    | (.ok (some code), store) => (.done ⟨some (j.withCode code true), []⟩, { shared with store })
    | (.ok none, store) => (.unbound [], { shared with store })
    | (.error fault, store) => (.evicting fault, { shared with store })
  | evicting fault =>
    (.unbound [j.discarded fault], { shared with store := shared.store.evict h (j.key h) })
  | unbound warnings =>
    match j.body.bindIn j.localOnly shared.interner with
    | (.ok code, interner) => (.bound warnings code, { shared with interner })
    | (.error e, interner) => (.done ⟨none, warnings ++ [j.failure e]⟩, { shared with interner })
  | bound warnings code =>
    (.done ⟨some (j.withCode code false), warnings⟩,
      { shared with store := (shared.store.insert h (j.key h) code).2 })
  | done result => (.done result, shared)

/-- The result of a job that is done. -/
def Progress.result? : Progress → Option Job.Result
  | done result => some result
  | _ => none

/-- Jobs that run side by side. -/
structure Session where
  tasks : List (Job × Progress)
  shared : Shared

namespace Session

/-- The job with a number makes a step. -/
def turn (h : Cache.Hashing) (session : Session) (number : Nat) : Session :=
  match session.tasks[number]? with
  | none => session
  | some (j, progress) =>
    let (next, shared) := progress.advance h j session.shared
    ⟨session.tasks.set number (j, next), shared⟩

/-- The jobs make steps as a schedule has it. -/
def follow (h : Cache.Hashing) (session : Session) (schedule : List Nat) : Session :=
  schedule.foldl (turn h) session

/-- The results, if all jobs are done. -/
def results? (session : Session) : Option (List Job.Result) :=
  session.tasks.mapM fun task => task.2.result?

end Session

/-- The jobs of a program before their first steps. -/
def Program.session (p : Program) (shared : Shared) : Session :=
  ⟨p.jobs.map fun j => (j, .ready), shared⟩

/-- What compiling side by side gives and leaves, if the schedule lets every job end. -/
def Program.compileAlong (h : Cache.Hashing) (p : Program) (schedule : List Nat) (shared : Shared) :
    Option (Output × Shared) :=
  let session := (p.session shared).follow h schedule
  session.results?.map fun results => (p.collect results, session.shared)

end Formals
