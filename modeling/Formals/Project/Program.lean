import Formals.Project.Job
import Formals.Tree.Reading

/-!
# Programs

A program is some units and the options to compile them with. Compiling it runs a job for each body.
What the jobs give is listed in the order of the source, and the diagnostics are sorted.
-/

namespace Formals

/-- Some units, and how to compile them. -/
structure Program where
  options : Options := {}
  units : List CompilationUnit := []
  /-- What went wrong while the units were loaded. -/
  loadDiagnostics : List Diagnostic := []
  deriving Inhabited

/-- What compiling gives. -/
structure Output where
  bodies : List CompiledBody
  diagnostics : List Diagnostic
  deriving Repr

/-- The first compiled body with a name. -/
def Output.body? (o : Output) (name : String) : Option CompiledBody :=
  o.bodies.find? fun compiled => compiled.name = name

namespace Program

/-- Adds a unit. -/
def addUnit (p : Program) (unit : CompilationUnit) : Program :=
  { p with units := p.units ++ [unit] }

/-- Reports a problem with a file that is loaded. -/
def report (p : Program) (template : Template) (name detail : String) : Program :=
  { p with loadDiagnostics := p.loadDiagnostics ++ [template.instantiate [name, detail]] }

/-- Adds the unit that a text holds; the file it comes from names the unit if it has no name. A text
that holds no unit is reported and skipped. -/
def addSource (p : Program) (name text : String) : Program :=
  match CompilationUnit.ofText? text with
  | some unit => p.addUnit (if unit.fileName.isEmpty then { unit with fileName := name } else unit)
  | none => p.report .invalidUnit name "the text holds no unit"

/-- Adds the unit of a file that was read, or reports why it was not. -/
def addFile (p : Program) (name : String) : Except String String → Program
  | .ok text => p.addSource name text
  | .error reason => p.report .unreadableFile name reason

/-- The bodies of all units in order. -/
def bodies (p : Program) : List Body := p.units.flatMap (·.bodies)

/-- The first body with a name. -/
def findBody? (p : Program) (name : String) : Option Body :=
  p.bodies.find? fun body => body.name = name

/-- The jobs of a program, in the order of the source. -/
def jobs (p : Program) : List Job :=
  p.units.flatMap fun unit => unit.bodies.map fun body =>
    ⟨unit.fileName, body, p.options.namesLocal body⟩

/-- What some results give together. -/
def collect (p : Program) (results : List Job.Result) : Output where
  bodies := results.filterMap (·.compiled)
  diagnostics := Diagnostic.sort (p.loadDiagnostics ++ results.flatMap (·.diagnostics))

/-- Compiles every body, with the cache if there is one. -/
def compile (h : Cache.Hashing) (p : Program) (cache : Option Cache.Store) :
    Output × Option Cache.Store :=
  let (results, cache) := Job.runAll h p.jobs cache
  (p.collect results, cache)

end Program
end Formals
