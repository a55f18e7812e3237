import Formals.Project.Location
import Formals.Project.Options

/-!
# Project files

A project file holds options and the locations of the units of a project, as seen from the directory
that the project file is in.
-/

namespace Formals

/-- The contents of a project file. -/
structure ProjectFile where
  options : Option Options := none
  files : Option (List String) := none
  deriving DecidableEq, Repr, Inhabited

namespace ProjectFile

/-- The project file that is looked for when none is named. -/
def defaultName : String := "argbind.json"

/-- A project file from JSON. -/
def ofJson? (j : Json) : Option ProjectFile := do
  let [options, files] ← j.wholeFields? ["compilerOptions", "files"] | none
  return {
    options := ← Json.optional? none (Json.nullable? Options.ofJson?) options
    files := ← Json.optional? none (Json.nullable? (Json.list? Json.str?)) files }

/-- A project file from its text. Unknown members only have to be spelled right. -/
def ofText? (text : String) : Option ProjectFile := (Json.parse text).bind ofJson?

/-- The locations of the units, for a project file at a location. -/
def resolvedFiles (p : ProjectFile) (location : String) : List String :=
  (p.files.getD []).map (Location.join ((Location.parent? location).getD "."))

end ProjectFile
end Formals
