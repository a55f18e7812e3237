import Formals.Cache.Store
import Formals.Project.Location

/-!
# Access to files

`Files` is what the compiler asks of the files around it. The directory of a cache is read before
bodies are compiled (`Directory.load`) and brought up to date afterwards (`Directory.save`), so that
compiling itself works on values.
-/

namespace Formals

/-- Reads and writes files. What fails says so in its result or is left undone. -/
class Files (m : Type → Type) where
  /-- The text of a file, or why there is none. -/
  readText : String → m (Except String String)
  /-- What is at a location, if anything. -/
  look : String → m (Option Cache.Slot)
  /-- Makes a directory and those around it; whether the directory is there afterwards. -/
  makeDirectory : String → m Bool
  writeFile : String → List UInt8 → m Unit
  removeFile : String → m Unit

namespace Cache.Directory

variable {m : Type → Type} [Monad m] [Files m]

/-- What a directory has under some names. -/
def load (location : String) : List String → m Directory
  | [] => return []
  | name :: others => do
    let slot ← Files.look (Location.join location name)
    let rest ← load location others
    return match slot with
      | some slot => Entries.insert name slot rest
      | none => rest

/-- Writes the files that are new or changed in a directory and removes those that are gone. -/
def save (location : String) (before after : Directory) : m Unit := do
  for (name, slot) in after do
    if before.get? name ≠ some slot then
      if let .file bytes := slot then Files.writeFile (Location.join location name) bytes
  for (name, _) in before do
    unless after.contains name do Files.removeFile (Location.join location name)

end Cache.Directory
end Formals
