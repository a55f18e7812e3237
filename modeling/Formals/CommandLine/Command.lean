import Formals.Code.Listing
import Formals.CommandLine.Arguments
import Formals.Machine.FromJson
import Formals.Machine.Run
import Formals.Project.Files
import Formals.Project.Program
import Formals.Project.ProjectFile

/-!
# The command

`Command.run` does what the arguments ask for and tells the `Outcome`: it finds the units, compiles
them, and shows and runs compiled bodies. What ends it early is a `Failure`.
-/

namespace Formals.CommandLine

/-- What ends a command before it is done. -/
inductive Failure where
  | noInput
  | unreadableProject (location : String)
  | noBody (name : String)
  /-- The arguments for a body are no JSON. -/
  | argsNotJson
  /-- The arguments for a body cannot be values. -/
  | argsNotValues (e : RuntimeError)
  /-- A body with parameters takes an array. -/
  | argsNotArray (name : String)
  | callFailed (name : String) (e : RuntimeError)
  deriving DecidableEq, Repr

/-- The texts of a failure, the first of which says what failed and the others why. -/
def Failure.report : Failure → List String
  | noInput => ["No input files found."]
  | unreadableProject location => [s!"Failed to read project '{location}'"]
  | noBody name => [s!"No compiled body named '{name}'."]
  | argsNotJson => ["--args is not valid JSON"]
  | argsNotValues e => [e.message]
  | argsNotArray name => [s!"--args must be a JSON array for '{name}'."]
  | callFailed name e => [s!"Calling '{name}' failed", e.message]

/-- What a command leaves behind. -/
structure Outcome where
  /-- The exit code: 0, or 1 for errors and failures, or 2 for a misuse. -/
  code : Nat := 0
  /-- What is printed. -/
  output : String := ""
  diagnostics : List Diagnostic := []
  /-- The line that counts the errors among the diagnostics. -/
  summary : Option String := none
  failure : Option Failure := none
  misuse : Option Misuse := none

/-- The options that the arguments set. -/
def Arguments.overrides (a : Arguments) : Options where
  cacheDir := a.cacheDir
  noCache := if a.noCache then some true else none
  jobs := a.jobs

/-- The units to compile and the options for them. -/
structure Inputs where
  files : List String
  options : Options

namespace Command

variable {m : Type → Type} [Monad m] [Files m]

/-- The project file at a location. -/
def readProject (location : String) : m (Except Failure ProjectFile) := do
  match ← Files.readText location with
  | .error _ => return .error (.unreadableProject location)
  | .ok text =>
    match ProjectFile.ofText? text with
    | some project => return .ok project
    | none => return .error (.unreadableProject location)

/-- The inputs of a project, and more files. -/
def projectInputs (a : Arguments) (location : String) : m (Except Failure Inputs) := do
  match ← readProject location with
  | .error failure => return .error failure
  | .ok project =>
    return .ok ⟨project.resolvedFiles location ++ a.files,
      (project.options.getD {}).merge a.overrides⟩

/-- The inputs: the named project with the named files, or the files, or the project of the working
directory. -/
def inputs (a : Arguments) : m (Except Failure Inputs) := do
  match a.project with
  | some location => projectInputs a location
  | none =>
    if !a.files.isEmpty then return .ok ⟨a.files, a.overrides⟩
    else if (← Files.look ProjectFile.defaultName).isSome then
      projectInputs a ProjectFile.defaultName
    else return .ok ⟨[], a.overrides⟩

/-- The directory of the cache, if records are kept in one that can be made. -/
def cacheLocation (o : Options) : m (Option String) := do
  if !o.cacheEnabled then return none
  match o.cacheDir with
  | none => return none
  | some location => return if ← Files.makeDirectory location then some location else none

/-- Loads units from files. -/
def load (p : Program) : List String → m Program
  | [] => return p
  | location :: others => do
    let read ← Files.readText location
    load (p.addFile location read) others

/-- Compiles a program with the cache in a directory, or else with one that is forgotten. -/
def compile (p : Program) (location : Option String) : m Output := do
  let h := Cache.Hashing.standard
  match location with
  | none => return (p.compile h (if p.options.cacheEnabled then some {} else none)).1
  | some location =>
    let names := p.jobs.map fun job => h.recordName (job.key h)
    let directory ← Cache.Directory.load location names
    let (output, cache) := p.compile h (some { directory := some directory })
    if let some after := cache.bind (·.directory) then
      Cache.Directory.save location directory after
    return output

end Command

/-- The line for a compiled body in the list of files. -/
def summaryLine (body : CompiledBody) : String :=
  let message := Template.compiledBody.instantiate [body.name, toString body.code.length]
  s!"{body.file}: {message.text}\n"

/-- The code of a compiled body, with a heading. -/
def listingText (body : CompiledBody) : String :=
  s!"== {body.file}: {body.name} ==\n" ++ body.code.listing

/-- The line that counts errors. -/
def errorSummary (count : Nat) : String :=
  let ending := if count = 1 then "" else "s"
  s!"Found {count} error{ending}."

/-- What is printed of compiled bodies. -/
def shown (a : Arguments) (o : Options) (output : Output) : String :=
  (if o.listsFiles then String.join (output.bodies.map summaryLine) else "") ++
    (if a.listing then String.join (output.bodies.map listingText) else "")

/-- What a machine has bound: its local variables and the instance variables of `self`. -/
def bindings (m : Machine) : List (String × Value) :=
  m.scope ++ match m.selfValue with
    | .object handle => (m.heap.objectAt handle).ivars
    | _ => []

/-- A line for each variable that a machine has bound. A value that contains itself has no text. -/
def bindingsText (m : Machine) : String :=
  String.join ((bindings m).map fun (name, v) =>
    let text := (m.heap.inspect? v).getD "..."
    s!"{name} = {text}\n")

/-- The value that a text stands for, in a heap. -/
def valueOfText (text : String) : Except Failure (Value × Heap) :=
  match Json.parse text with
  | none => .error .argsNotJson
  | some j =>
    if j.readable Json.depthLimit then
      ((Value.ofJson j.normalize).run {}).mapError .argsNotValues
    else .error .argsNotJson

/-- Runs a compiled body on a new machine and tells what it has bound. -/
def runBody (p : Program) (output : Output) (name args : String) : Except Failure String := do
  let some compiled := output.body? name | throw (.noBody name)
  let (value, heap) ← valueOfText args
  let exec ← match p.findBody? name with
    | some (.assignment ..) => pure (Machine.assign compiled.code value)
    | _ =>
      match value.items? heap with
      | some arguments => pure (Machine.bindArguments compiled.code arguments)
      | none => throw (.argsNotArray name)
  match exec (Machine.fresh heap) with
  | .ok _ machine => return bindingsText machine
  | .error e _ => throw (.callFailed name e)

/-- What compiling comes to: the outcome with errors, or of running a body if one is named. -/
def conclude (a : Arguments) (p : Program) (output : Output) : Outcome :=
  let outcome : Outcome :=
    { output := shown a p.options output, diagnostics := output.diagnostics }
  let errors := Diagnostic.errorCount output.diagnostics
  if errors > 0 then { outcome with code := 1, summary := some (errorSummary errors) }
  else
    match a.run with
    | none => outcome
    | some name =>
      match runBody p output name a.args with
      | .ok text => { outcome with output := outcome.output ++ text }
      | .error failure => { outcome with code := 1, failure := some failure }

namespace Command

variable {m : Type → Type} [Monad m] [Files m]

/-- Compiles what the arguments name. -/
def runArguments (a : Arguments) : m Outcome := do
  match ← inputs a with
  | .error failure => return { code := 1, failure := some failure }
  | .ok found =>
    if found.files.isEmpty then return { code := 1, failure := some .noInput }
    else
      let location ← cacheLocation found.options
      let p ← load { options := found.options } found.files
      let output ← compile p location
      return conclude a p output

/-- Does what some arguments ask for. -/
def run (arguments : List String) : m Outcome := do
  match Request.ofArguments arguments with
  | .error misuse => return { code := 2, misuse := some misuse }
  | .ok .help => return { output := helpText }
  | .ok (.compile a) => runArguments a

end Command
end Formals.CommandLine
