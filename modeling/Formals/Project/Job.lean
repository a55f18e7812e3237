import Formals.Binding.Emission
import Formals.Cache.Store
import Formals.Diagnostic
import Formals.Project.Options

/-!
# Jobs

Each body of a program is a job of its own: its code is taken from the cache, or else compiled and
put there. A record that is of no use is evicted and costs a warning; it never changes the code.
-/

namespace Formals

/-- The code that enters a body. -/
def Body.compile (localOnly : Bool) : Body → Except BindError Stream
  | callable _ _ params _ => ParamList.compile? params localOnly
  | assignment _ targets _ => targets.compile

/-- Whether the names of a body are bound in its own scope, whatever the scopes around it define.
Options change this for `for` loops only. -/
def Options.namesLocal (o : Options) : Body → Bool
  | .callable .forLoop .. => o.loopNamesLocal
  | _ => true

/-- A body with its code. -/
structure CompiledBody where
  file : String
  name : String
  code : Stream
  /-- Whether the code comes from the cache. -/
  cached : Bool
  deriving DecidableEq, Repr

/-- One body to be compiled. -/
structure Job where
  file : String
  body : Body
  localOnly : Bool
  deriving Inhabited

namespace Job

/-- What a job gives: the compiled body unless it has an error, and diagnostics. -/
structure Result where
  compiled : Option CompiledBody := none
  diagnostics : List Diagnostic := []
  deriving Repr

/-- The key of a job in the cache. -/
def key (h : Cache.Hashing) (j : Job) : Cache.Key := Cache.Key.ofBody h j.file j.body j.localOnly

/-- The compiled body of a job. -/
def withCode (j : Job) (code : Stream) (cached : Bool) : CompiledBody :=
  ⟨j.file, j.body.name, code, cached⟩

/-- The diagnostic for a body that does not compile. -/
def failure (j : Job) (e : BindError) : Diagnostic := (e.toDiagnostic j.file).inBody j.body.name

/-- The warning that the record of a body was of no use. -/
def discarded (j : Job) (fault : Cache.Fault) : Diagnostic :=
  ((Template.discardedRecord.instantiate [j.body.name, fault.message]).located j.file
    j.body.span).inBody j.body.name

/-- Compiles a body, whatever the cache holds. -/
def compile (j : Job) : Except BindError Stream := j.body.compile j.localOnly

/-- Compiles a body and puts its code into the cache, if there is one. A record that cannot be kept
is a loss of time only. -/
def compileInto (h : Cache.Hashing) (j : Job) (warnings : List Diagnostic)
    (cache : Option Cache.Store) : Result × Option Cache.Store :=
  match j.compile with
  | .error e => (⟨none, warnings ++ [j.failure e]⟩, cache)
  | .ok code =>
    (⟨some (j.withCode code false), warnings⟩, cache.map fun store =>
      (store.insert h (j.key h) code).2)

/-- Takes the code of a body from the cache, or else compiles it. -/
def run (h : Cache.Hashing) (j : Job) (cache : Option Cache.Store) : Result × Option Cache.Store :=
  match cache with
  | none => j.compileInto h [] none
  | some store =>
    match store.get h (j.key h) with
    | (.ok (some code), store) => (⟨some (j.withCode code true), []⟩, some store)
    | (.ok none, store) => j.compileInto h [] (some store)
    | (.error fault, store) => j.compileInto h [j.discarded fault] (some (store.evict h (j.key h)))

/-- Runs jobs one after the other. -/
def runAll (h : Cache.Hashing) :
    List Job → Option Cache.Store → List Result × Option Cache.Store
  | [], cache => ([], cache)
  | j :: others, cache =>
    let (first, cache) := j.run h cache
    let (rest, cache) := runAll h others cache
    (first :: rest, cache)

end Job

end Formals
