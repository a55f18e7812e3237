import Formals.CommandLine.Command

/-!
# The program

Runs the command on the files of the disk and prints its outcome.
-/

open Formals

/-- What stands at a location of the disk. -/
def lookOnDisk (location : String) : IO (Option Cache.Slot) := do
  try return some (.file (← IO.FS.readBinFile location).toList)
  catch
    | .noFileOrDirectory .. => return none
    | _ => return some .blocked

instance : Files IO where
  readText location := do
    try return .ok (← IO.FS.readFile location)
    catch e => return .error (toString e)
  look := lookOnDisk
  makeDirectory location := do
    try
      unless location.isEmpty do IO.FS.createDirAll location
      return true
    catch _ => return false
  writeFile location bytes := do
    try IO.FS.writeBinFile location ⟨bytes.toArray⟩ catch _ => return ()
  removeFile location := do
    try IO.FS.removeFile location catch _ => return ()

/-- Prints what a command leaves behind: its output, and what went wrong apart from it. -/
def printOutcome (outcome : CommandLine.Outcome) : IO Unit := do
  IO.print outcome.output
  for d in outcome.diagnostics do IO.eprintln d.line
  if let some summary := outcome.summary then IO.eprintln s!"\n{summary}"
  if let some misuse := outcome.misuse then IO.eprintln s!"error: {misuse.message}"
  if let some failure := outcome.failure then
    for text in failure.report do IO.eprintln s!"error: {text}"

/-- The entry point. -/
def main (arguments : List String) : IO UInt32 := do
  let outcome ← CommandLine.Command.run arguments
  printOutcome outcome
  return UInt32.ofNat outcome.code
