import Formals.Project.Interleaving
import Formals.Proofs.Caching
import Formals.Proofs.Frames
import Formals.Proofs.Interning
import Formals.Proofs.Shares

/-!
# Jobs side by side

Whatever the schedule, what the jobs of a program answer depends on the store that they begin with
only. `Session.Sound` is the invariant of their steps: the record of a job stays as it was, or it
was of no use and is gone or written by the job itself (`Job.Kept`), and how far each job is fits
that (`Progress.Sound`). So a job gives one of the results that it `Ends` with, and when all are
done, every job has its record if it compiles (`Session.Sound.repaired`).

Records are of use to one job only if keys tell jobs apart; this is what fingerprints are for.
-/

namespace Formals

/-! ## Stores in memory -/

/-- A key that gets a value stands in a table once. -/
theorem Entries.nodup_keys_insert {κ α : Type} [DecidableEq κ] {entries : Entries κ α} {key : κ}
    {value : α} (h : entries.keys.Nodup) : (entries.insert key value).keys.Nodup := by
  induction entries with
  | nil => exact List.nodup_singleton key
  | cons e rest ih =>
    obtain ⟨k, v⟩ := e
    obtain ⟨hk, hrest⟩ := List.nodup_cons.1 h
    rw [insert]
    split
    · exact h
    · rename_i hne
      refine List.nodup_cons.2 ⟨fun hmem => ?_, ih hrest⟩
      obtain ⟨entry, hentry, hkey⟩ := List.mem_map.1 hmem
      rcases mem_insert hentry with rfl | hold
      · exact hne hkey.symm
      · exact hk (List.mem_map.2 ⟨entry, hold, hkey⟩)

namespace Cache.Store

/-- The code in the record of a key in memory, if the record is of use. -/
def code? (key : Key) (s : Store) : Option Stream :=
  (s.raw? key).bind fun bytes => (Record.decodeFor key bytes).toOption

/-- A store without files, which has one record for a key. -/
structure InMemory (s : Store) : Prop where
  directory : s.directory = none
  nodup : s.memory.keys.Nodup

variable {h : Hashing} {s : Store} {key : Key} {code : Stream}

/-- Looking a record up leaves a store without files as it is. What is found is the code of a
record, that there is none, or what is wrong with it. -/
theorem InMemory.get (hs : s.InMemory) (h : Hashing) (key : Key) :
    (∃ code, s.code? key = some code ∧ s.get h key = (.ok (some code), s)) ∨
      s.raw? key = none ∧ s.get h key = (.ok none, s) ∨
      s.code? key = none ∧ s.raw? key ≠ none ∧ ∃ fault, s.get h key = (.error fault, s) := by
  rw [code?, Store.get, slot?, hs.directory, show s.memory.get? key = s.raw? key from rfl]
  cases s.raw? key with
  | none => exact .inr (.inl ⟨rfl, rfl⟩)
  | some bytes =>
    dsimp only [Option.bind_some]
    cases Record.decodeFor key bytes with
    | ok code => exact .inl ⟨code, rfl, rfl⟩
    | error fault => exact .inr (.inr ⟨rfl, Option.some_ne_none bytes, fault, rfl⟩)

/-- In a store without files a record is evicted from memory only. -/
theorem InMemory.evict_eq (hs : s.InMemory) :
    s.evict h key = { s with memory := s.memory.erase key } := by
  rw [evict, removeFile, hs.directory]

/-- In a store without files a record is kept in memory, and nothing can go wrong. -/
theorem InMemory.insert_eq (hs : s.InMemory) :
    (s.insert h key code).2 = s.insertRaw key (Record.encode key code) := by
  rw [insert, writeFile, hs.directory]

/-- A store without files has none after a record is evicted. -/
theorem InMemory.evict (hs : s.InMemory) (h : Hashing) (key : Key) : (s.evict h key).InMemory := by
  rw [hs.evict_eq]
  refine ⟨hs.directory, ?_⟩
  rw [Entries.erase_eq_filter hs.nodup]
  exact Entries.nodup_keys_filter hs.nodup _

/-- A store without files has none after a record is kept. -/
theorem InMemory.insert (hs : s.InMemory) (h : Hashing) (key : Key) (code : Stream) :
    (s.insert h key code).2.InMemory := by
  rw [hs.insert_eq]
  exact ⟨hs.directory, Entries.nodup_keys_insert hs.nodup⟩

/-- A record that is evicted is gone. -/
theorem InMemory.raw?_evict_self (hs : s.InMemory) : (s.evict h key).raw? key = none := by
  rw [hs.evict_eq]
  exact Entries.get?_erase_self hs.nodup

/-- The records of other keys stay when one is evicted. -/
theorem InMemory.raw?_evict (hs : s.InMemory) {other : Key} (hne : key ≠ other) :
    (s.evict h key).raw? other = s.raw? other := by
  rw [hs.evict_eq]
  exact Entries.get?_erase hne

/-- The records of other keys stay when one is kept. -/
theorem InMemory.raw?_insert (hs : s.InMemory) (other : Key) :
    (s.insert h key code).2.raw? other =
      if key = other then some (Record.encode key code) else s.raw? other := by
  rw [hs.insert_eq]
  exact Entries.get?_insert ..

end Cache.Store

/-! ## Steps of a job -/

open Cache (Hashing Store)

namespace Job

section

variable (h : Hashing) (s : Store) (j : Job)

/-- The record that a job writes, if it compiles. -/
def record? : Option (List UInt8) := j.compile.toOption.map (Cache.Record.encode (j.key h))

/-- What becomes of the record of a job: it stays as it was in the store that the job begins with,
or it was of no use, and is evicted or written. -/
def Kept (raw : Option (List UInt8)) : Prop :=
  raw = s.raw? (j.key h) ∨ s.code? (j.key h) = none ∧ (raw = none ∨ raw = j.record? h)

/-- The warnings of a job that binds its body. If the body does not bind, no job wrote the record
that the warning is about. -/
def Warns (warnings : List Diagnostic) : Prop :=
  warnings = [] ∨ (∃ fault, warnings = [j.discarded fault]) ∧
    (j.record? h = none → s.raw? (j.key h) ≠ none)

/-- The results of a job that begins with a store. -/
inductive Ends : Result → Prop
  | found {code : Stream} : s.code? (j.key h) = some code → Ends ⟨some (j.withCode code true), []⟩
  | compiled {code : Stream} {cached : Bool} {warnings : List Diagnostic} :
    s.code? (j.key h) = none → j.compile = .ok code → j.Warns h s warnings →
    Ends ⟨some (j.withCode code cached), warnings⟩
  | failed {e : BindError} {warnings : List Diagnostic} :
    s.code? (j.key h) = none → j.compile = .error e → j.Warns h s warnings →
    Ends ⟨none, warnings ++ [j.failure e]⟩

end

variable {h : Hashing} {s : Store} {j : Job} {code : Stream}

/-- A job that compiles writes the record of its code. -/
theorem record?_of_ok (hcode : j.compile = .ok code) :
    j.record? h = some (Cache.Record.encode (j.key h) code) := by
  rw [record?, hcode]
  rfl

/-- A job that does not compile writes no record. -/
theorem record?_of_error {e : BindError} (he : j.compile = .error e) : j.record? h = none := by
  rw [record?, he]
  rfl

/-- The code in the record that a job writes is what the job compiles to. -/
theorem compile_of_record? {cur : Store} (hraw : cur.raw? (j.key h) = j.record? h)
    (hcode : cur.code? (j.key h) = some code) : j.compile = .ok code := by
  rw [Store.code?, hraw] at hcode
  cases hcompile : j.compile with
  | error e =>
    rw [record?_of_error hcompile] at hcode
    cases hcode
  | ok found =>
    rw [record?_of_ok hcompile, Option.bind_some] at hcode
    cases hdecode : Cache.Record.decodeFor (j.key h) (Cache.Record.encode (j.key h) found) with
    | error fault =>
      rw [hdecode] at hcode
      cases hcode
    | ok code' =>
      rw [hdecode] at hcode
      cases hcode
      have hpair := Cache.Record.decode_encode (Cache.decode_of_decodeFor hdecode)
      rw [(Prod.mk.inj hpair).2]

/-- Stores that have the same record for a job have the same code for it. -/
theorem code?_congr {cur : Store} (hraw : cur.raw? (j.key h) = s.raw? (j.key h)) :
    cur.code? (j.key h) = s.code? (j.key h) := by
  rw [Store.code?, Store.code?, hraw]

/-- Where there is no record there is no code. -/
theorem code?_of_raw? (hraw : s.raw? (j.key h) = none) : s.code? (j.key h) = none := by
  rw [Store.code?, hraw]
  rfl

/-- A job that takes its code from a record takes the code that was there from the beginning, or the
code of a job with the same key. -/
theorem Kept.found {cur : Store} (hkept : j.Kept h s (cur.raw? (j.key h)))
    (hcode : cur.code? (j.key h) = some code) :
    s.code? (j.key h) = some code ∨
      s.code? (j.key h) = none ∧ cur.raw? (j.key h) = j.record? h ∧ j.compile = .ok code := by
  rcases hkept with hraw | ⟨hfresh, hraw | hraw⟩
  · exact .inl (code?_congr hraw ▸ hcode)
  · rw [code?_of_raw? hraw] at hcode
    cases hcode
  · exact .inr ⟨hfresh, hraw, compile_of_record? hraw hcode⟩

end Job

namespace Progress

/-- Whether a job has not yet seen that it has to bind its body. -/
def waits : Progress → Bool
  | ready | evicting _ => true
  | _ => false

/-- Whether a job is going to keep its code, if there is any. -/
def works : Progress → Bool
  | unbound _ | bound .. => true
  | _ => false

/-- How far a job may be that began with a store. -/
inductive Sound (h : Hashing) (s : Store) (j : Job) : Progress → Prop
  | ready : Sound h s j .ready
  | evicting {fault : Cache.Fault} : s.code? (j.key h) = none →
    (j.record? h = none → s.raw? (j.key h) ≠ none) → Sound h s j (.evicting fault)
  | unbound {warnings : List Diagnostic} : s.code? (j.key h) = none → j.Warns h s warnings →
    Sound h s j (.unbound warnings)
  | bound {warnings : List Diagnostic} {code : Stream} : s.code? (j.key h) = none →
    j.compile = .ok code → j.Warns h s warnings → Sound h s j (.bound warnings code)
  | done {result : Job.Result} : j.Ends h s result → Sound h s j (.done result)

/-- A step of a job, from what the jobs share to what they share then. If the job has to bind its
body, then it goes on to keep its code, or its record is as it should be, or it leaves the record
and does not begin or give up to work on it. -/
structure Advances (h : Hashing) (s : Store) (j : Job) (progress next : Progress)
    (cur shared : Shared) : Prop where
  sound : next.Sound h s j
  store : shared.store.InMemory
  interner : shared.interner.Distinct
  kept : j.Kept h s (shared.store.raw? (j.key h))
  others : ∀ key, j.key h ≠ key → shared.store.raw? key = cur.store.raw? key
  standing : s.code? (j.key h) = none →
    next.works = true ∧ j.record? h ≠ none ∨ shared.store.raw? (j.key h) = j.record? h ∨
      shared.store.raw? (j.key h) = cur.store.raw? (j.key h) ∧ next.waits = progress.waits ∧
        (progress.works = true → j.record? h = none)

variable {h : Hashing} {s : Store} {j : Job} {progress : Progress} {cur : Shared}

/-- A job without a record goes on to keep its code, or it needs no record. -/
theorem unbound_standing {warnings : List Diagnostic} {raw : Option (List UInt8)} {rest : Prop}
    (hraw : raw = none) : (unbound warnings).works = true ∧ j.record? h ≠ none ∨
      raw = j.record? h ∨ rest := by
  cases hrecord : j.record? h with
  | none => exact .inr (.inl hraw)
  | some bytes => exact .inl ⟨rfl, nofun⟩

/-- Looking the record up. -/
theorem advance_ready (hstore : cur.store.InMemory) (ht : cur.interner.Distinct)
    (hkept : j.Kept h s (cur.store.raw? (j.key h))) :
    Advances h s j .ready (advance h j cur .ready).1 cur (advance h j cur .ready).2 := by
  rw [advance]
  rcases hstore.get h (j.key h) with
    ⟨code, hcode, hget⟩ | ⟨hraw, hget⟩ | ⟨hcode, hraw, fault, hget⟩ <;> rw [hget]
  · have hends : j.Ends h s ⟨some (j.withCode code true), []⟩ := by
      rcases hkept.found hcode with hfound | ⟨hfresh, -, hcompile⟩
      · exact .found hfound
      · exact .compiled hfresh hcompile (.inl rfl)
    refine ⟨.done hends, hstore, ht, hkept, fun _ _ => rfl, fun hfresh => .inr (.inl ?_)⟩
    rcases hkept.found hcode with hfound | ⟨-, hraw, -⟩
    · rw [hfresh] at hfound
      cases hfound
    · exact hraw
  · have hfresh : s.code? (j.key h) = none := by
      rcases hkept with hsame | ⟨hfresh, -⟩
      · exact Job.code?_of_raw? (hsame.symm.trans hraw)
      · exact hfresh
    exact ⟨.unbound hfresh (.inl rfl), hstore, ht, hkept, fun _ _ => rfl,
      fun _ => unbound_standing hraw⟩
  · have hevicting : s.code? (j.key h) = none ∧ (j.record? h = none → s.raw? (j.key h) ≠ none) := by
      rcases hkept with hsame | ⟨hfresh, hnone | hrecord⟩
      · exact ⟨(Job.code?_congr hsame).symm.trans hcode, fun _ => hsame ▸ hraw⟩
      · exact absurd hnone hraw
      · exact ⟨hfresh, fun hnone => absurd (hrecord.trans hnone) hraw⟩
    exact ⟨.evicting hevicting.1 hevicting.2, hstore, ht, hkept, fun _ _ => rfl,
      fun _ => .inr (.inr ⟨rfl, rfl, nofun⟩)⟩

/-- Each step of a job is sound. -/
theorem Sound.advance (hp : progress.Sound h s j) (hstore : cur.store.InMemory)
    (ht : cur.interner.Distinct) (hkept : j.Kept h s (cur.store.raw? (j.key h))) :
    Advances h s j progress (progress.advance h j cur).1 cur (progress.advance h j cur).2 := by
  cases hp with
  | ready => exact advance_ready hstore ht hkept
  | @evicting fault hfresh hraw =>
    exact ⟨.unbound hfresh (.inr ⟨⟨fault, rfl⟩, hraw⟩), hstore.evict h _, ht,
      .inr ⟨hfresh, .inl hstore.raw?_evict_self⟩, fun key hne => hstore.raw?_evict hne,
      fun _ => unbound_standing hstore.raw?_evict_self⟩
  | @unbound warnings hfresh hwarns =>
    obtain ⟨hbind, -, hdistinct⟩ := j.body.bindIn_eq ht j.localOnly
    rw [Progress.advance]
    generalize j.body.bindIn j.localOnly cur.interner = outcome at hbind hdistinct ⊢
    obtain ⟨_ | _, interner⟩ := outcome
    · have hcompile : j.compile = .error _ := hbind.symm
      exact ⟨.done (.failed hfresh hcompile hwarns), hstore, hdistinct, hkept, fun _ _ => rfl,
        fun _ => .inr (.inr ⟨rfl, rfl, fun _ => Job.record?_of_error hcompile⟩)⟩
    · have hcompile : j.compile = .ok _ := hbind.symm
      refine ⟨.bound hfresh hcompile hwarns, hstore, hdistinct, hkept, fun _ _ => rfl,
        fun _ => .inl ⟨rfl, ?_⟩⟩
      rw [Job.record?_of_ok hcompile]
      exact nofun
  | @bound warnings code hfresh hcompile hwarns =>
    have hraw : (cur.store.insert h (j.key h) code).2.raw? (j.key h) = j.record? h := by
      rw [hstore.raw?_insert, if_pos rfl, Job.record?_of_ok hcompile]
    exact ⟨.done (.compiled hfresh hcompile hwarns), hstore.insert h _ _, ht,
      .inr ⟨hfresh, .inr hraw⟩, fun key hne => (hstore.raw?_insert key).trans (if_neg hne),
      fun _ => .inr (.inl hraw)⟩
  | done hends =>
    exact ⟨.done hends, hstore, ht, hkept, fun _ _ => rfl, fun _ => .inr (.inr ⟨rfl, rfl, nofun⟩)⟩

end Progress

/-! ## Steps of a session -/

namespace Session

variable {h : Hashing} {s : Store} {jobs : List Job} {session : Session}

/-- The record of a job is as it should be, or some job with its key is going to keep its code, or
none of them has seen yet that it has to. -/
def Standing (h : Hashing) (session : Session) (j : Job) : Prop :=
  session.shared.store.raw? (j.key h) = j.record? h ∨
    (j.record? h ≠ none ∧ ∃ progress, (j, progress) ∈ session.tasks ∧ progress.works = true) ∨
    ∀ progress, (j, progress) ∈ session.tasks → progress.waits = true

/-- What holds at all times of jobs that begin with a store. -/
structure Sound (h : Hashing) (s : Store) (jobs : List Job) (session : Session) : Prop where
  order : session.tasks.map (·.1) = jobs
  store : session.shared.store.InMemory
  interner : session.shared.interner.Distinct
  kept : ∀ j ∈ jobs, j.Kept h s (session.shared.store.raw? (j.key h))
  tasks : ∀ task ∈ session.tasks, task.2.Sound h s task.1
  standing : ∀ j ∈ jobs, s.code? (j.key h) = none → session.Standing h j

/-- A turn is a step of one job, unless there is no job with the number. -/
theorem turn_cases (h : Hashing) (session : Session) (number : Nat) :
    session.turn h number = session ∨ ∃ before j progress after,
      session.tasks = before ++ (j, progress) :: after ∧ session.turn h number =
        ⟨before ++ (j, (progress.advance h j session.shared).1) :: after,
          (progress.advance h j session.shared).2⟩ := by
  rw [turn]
  cases htask : session.tasks[number]? with
  | none => exact .inl rfl
  | some task =>
    obtain ⟨j, progress⟩ := task
    obtain ⟨hlt, hget⟩ := List.getElem?_eq_some_iff.1 htask
    refine .inr ⟨session.tasks.take number, j, progress, session.tasks.drop (number + 1), ?_, ?_⟩
    · rw [← hget, List.getElem_cons_drop, List.take_append_drop]
    · rw [← List.set_eq_take_cons_drop _ hlt]

section

variable {before after : List (Job × Progress)} {i j : Job} {progress next : Progress}
  {cur shared : Shared}

/-- Where the step of a job leaves another job. -/
theorem Standing.other (hi : Standing h ⟨before ++ (j, progress) :: after, cur⟩ i) (hne : i ≠ j)
    (hraw : shared.store.raw? (i.key h) = cur.store.raw? (i.key h)) :
    Standing h ⟨before ++ (j, next) :: after, shared⟩ i := by
  have hmem : ∀ p : Progress, (i, p) ∈ before ++ (j, next) :: after ↔
      (i, p) ∈ before ++ (j, progress) :: after := by simp [hne]
  simp only [Standing, hraw, hmem]
  exact hi

/-- Where the step of a job leaves it, and others with its key. -/
theorem Standing.step (hj : Standing h ⟨before ++ (j, progress) :: after, cur⟩ j)
    (hfresh : s.code? (j.key h) = none)
    (hstep : Progress.Advances h s j progress next cur shared) :
    Standing h ⟨before ++ (j, next) :: after, shared⟩ j := by
  have hself : ∀ p : Progress, (j, p) ∈ before ++ (j, p) :: after := fun p =>
    List.mem_append_right before List.mem_cons_self
  rcases hstep.standing hfresh with ⟨hworks, hrecord⟩ | hraw | ⟨hraw, hwaits, hnone⟩
  · exact .inr (.inl ⟨hrecord, next, hself next, hworks⟩)
  · exact .inl hraw
  · rcases hj with hraw' | ⟨hrecord, p, hp, hworks⟩ | hall
    · exact .inl (hraw.trans hraw')
    · refine .inr (.inl ⟨hrecord, p, ?_, hworks⟩)
      rcases List.mem_append.1 hp with hp | hp
      · exact List.mem_append_left _ hp
      · rcases List.mem_cons.1 hp with heq | hp
        · cases heq
          exact absurd (hnone hworks) hrecord
        · exact List.mem_append_right _ (List.mem_cons_of_mem _ hp)
    · refine .inr (.inr fun p hp => ?_)
      rcases List.mem_append.1 hp with hp | hp
      · exact hall p (List.mem_append_left _ hp)
      · rcases List.mem_cons.1 hp with heq | hp
        · cases heq
          exact hwaits.trans (hall progress (hself progress))
        · exact hall p (List.mem_append_right _ (List.mem_cons_of_mem _ hp))

/-- The step of one job of several. -/
theorem Sound.step (hkeys : ∀ i ∈ jobs, ∀ j ∈ jobs, i.key h = j.key h → i = j)
    (hs : Sound h s jobs ⟨before ++ (j, progress) :: after, cur⟩)
    (hstep : Progress.Advances h s j progress next cur shared) :
    Sound h s jobs ⟨before ++ (j, next) :: after, shared⟩ := by
  have hj : j ∈ jobs := by simp [← hs.order]
  have hothers : ∀ i ∈ jobs, i ≠ j → shared.store.raw? (i.key h) = cur.store.raw? (i.key h) :=
    fun i hi hne => hstep.others _ fun heq => hne (hkeys i hi j hj heq.symm)
  refine ⟨?_, hstep.store, hstep.interner, fun i hi => ?_, fun task htask => ?_,
    fun i hi hfresh => ?_⟩
  · simp [← hs.order]
  · by_cases hij : i = j
    · exact hij ▸ hstep.kept
    · exact hothers i hi hij ▸ hs.kept i hi
  · rcases List.mem_append.1 htask with hmem | hmem
    · exact hs.tasks task (List.mem_append_left _ hmem)
    · rcases List.mem_cons.1 hmem with rfl | hmem
      · exact hstep.sound
      · exact hs.tasks task (List.mem_append_right _ (List.mem_cons_of_mem _ hmem))
  · by_cases hij : i = j
    · subst hij
      exact (hs.standing i hi hfresh).step hfresh hstep
    · exact (hs.standing i hi hfresh).other hij (hothers i hi hij)

end

/-- A turn keeps what holds at all times. -/
theorem Sound.turn (hkeys : ∀ i ∈ jobs, ∀ j ∈ jobs, i.key h = j.key h → i = j)
    (hs : session.Sound h s jobs) (number : Nat) : (session.turn h number).Sound h s jobs := by
  rcases turn_cases h session number with hturn | ⟨before, j, progress, after, htasks, hturn⟩
  · rw [hturn]
    exact hs
  · obtain ⟨tasks, cur⟩ := session
    obtain rfl : tasks = before ++ (j, progress) :: after := htasks
    have hj : j ∈ jobs := by simp [← hs.order]
    have hsound : progress.Sound h s j := hs.tasks (j, progress) (by simp)
    rw [hturn]
    exact hs.step hkeys (hsound.advance hs.store hs.interner (hs.kept j hj))

/-- A session stays sound along a whole schedule. -/
theorem Sound.follow (hkeys : ∀ i ∈ jobs, ∀ j ∈ jobs, i.key h = j.key h → i = j)
    (hs : session.Sound h s jobs) (schedule : List Nat) :
    (session.follow h schedule).Sound h s jobs := by
  induction schedule generalizing session with
  | nil => exact hs
  | cons number schedule ih => exact ih (hs.turn hkeys number)

/-- A session is sound at the beginning, before any job has made a step. -/
theorem Sound.start {p : Program} {shared : Shared} (hstore : shared.store.InMemory)
    (ht : shared.interner.Distinct) : (p.session shared).Sound h shared.store p.jobs := by
  have htasks : ∀ task ∈ (p.session shared).tasks, task.2 = .ready := by
    intro task htask
    obtain ⟨j, -, rfl⟩ := List.mem_map.1 htask
    rfl
  refine ⟨?_, hstore, ht, fun _ _ => .inl rfl, fun task htask => ?_,
    fun j _ _ => .inr (.inr fun progress hp => ?_)⟩
  · rw [Program.session, List.map_map]
    exact List.map_id _
  · rw [htasks task htask]
    exact .ready
  · rw [show progress = .ready from htasks _ hp]
    rfl

/-! ## The end of a session -/

/-- The results of some jobs that stand at sound points are what these jobs end with. -/
theorem ends_of_results {tasks : List (Job × Progress)} {results : List Job.Result}
    (hsound : ∀ task ∈ tasks, task.2.Sound h s task.1)
    (hresults : tasks.mapM (fun task => task.2.result?) = some results) :
    List.Forall₂ (fun j result => j.Ends h s result) (tasks.map (·.1)) results ∧
      ∀ task ∈ tasks, ∃ result, task.2 = .done result := by
  induction tasks generalizing results with
  | nil =>
    cases hresults
    exact ⟨.nil, nofun⟩
  | cons task tasks ih =>
    obtain ⟨j, progress⟩ := task
    rw [List.mapM_cons] at hresults
    obtain ⟨result, hresult, hresults⟩ := Option.bind_eq_some_iff.1 hresults
    obtain ⟨others, hothers, hresults⟩ := Option.bind_eq_some_iff.1 hresults
    cases hresults
    obtain ⟨hends, hdone⟩ := ih (fun task hmem => hsound task (List.mem_cons_of_mem _ hmem)) hothers
    have hfirst := hsound (j, progress) List.mem_cons_self
    cases hfirst with
    | done hend =>
      cases hresult
      exact ⟨.cons hend hends, List.forall_mem_cons.2 ⟨⟨_, rfl⟩, hdone⟩⟩
    | _ => cases hresult

/-- The results of a session, one for each job in order. -/
theorem Sound.results (hs : session.Sound h s jobs) {results : List Job.Result}
    (hresults : session.results? = some results) :
    List.Forall₂ (fun j result => j.Ends h s result) jobs results ∧
      ∀ task ∈ session.tasks, ∃ result, task.2 = .done result :=
  hs.order ▸ ends_of_results hs.tasks hresults

/-- When all jobs are done, each that had no code of use in the store has its record in place. -/
theorem Sound.repaired (hs : session.Sound h s jobs)
    (hdone : ∀ task ∈ session.tasks, ∃ result, task.2 = .done result) {j : Job} (hj : j ∈ jobs)
    (hfresh : s.code? (j.key h) = none) :
    session.shared.store.raw? (j.key h) = j.record? h := by
  obtain ⟨task, htask, rfl⟩ := List.mem_map.1 (hs.order ▸ hj)
  rcases hs.standing _ hj hfresh with hraw | ⟨-, progress, hp, hworks⟩ | hall
  · exact hraw
  · obtain ⟨result, rfl⟩ := hdone _ hp
    cases hworks
  · obtain ⟨result, hresult⟩ := hdone _ htask
    have hwaits := hall task.2 htask
    rw [hresult] at hwaits
    cases hwaits

end Session

end Formals
