import Formals.Json.Parser
import Formals.Json.Record

/-!
# Options

Options say where compiled bodies are cached, how many of them are compiled at a time, how the
variables of `for` loops are bound, and what is shown. Each may be left open; `Options.merge` lays
options over others, and those that are set win.
-/

namespace Formals

/-- How to compile. -/
structure Options where
  /-- Where compiled bodies are kept between runs. -/
  cacheDir : Option String := none
  noCache : Option Bool := none
  /-- How many bodies are compiled at a time. -/
  jobs : Option Nat := none
  /-- Whether the variables of a `for` loop belong to the loop. -/
  forLoopLocalOnly : Option Bool := none
  listFiles : Option Bool := none
  deriving DecidableEq, Repr, Inhabited

namespace Options

/-- Whether compiled bodies are cached. -/
def cacheEnabled (o : Options) : Bool := !o.noCache.getD false

/-- Whether the variables of a `for` loop belong to the loop, which has to be asked for. -/
def loopNamesLocal (o : Options) : Bool := o.forLoopLocalOnly.getD false

/-- Whether compiled bodies are listed. -/
def listsFiles (o : Options) : Bool := o.listFiles.getD false

/-- Options under others: what is set in `overlay` wins. -/
def merge (o overlay : Options) : Options where
  cacheDir := overlay.cacheDir <|> o.cacheDir
  noCache := overlay.noCache <|> o.noCache
  jobs := overlay.jobs <|> o.jobs
  forLoopLocalOnly := overlay.forLoopLocalOnly <|> o.forLoopLocalOnly
  listFiles := overlay.listFiles <|> o.listFiles

/-- The names of the options. -/
def names : List String := ["cacheDir", "noCache", "jobs", "forLoopLocalOnly", "listFiles"]

/-- Options from JSON. -/
def ofJson? (j : Json) : Option Options := do
  let [cacheDir, noCache, jobs, forLoopLocalOnly, listFiles] ← j.wholeFields? names | none
  let setting {α : Type} (read : Json → Option α) := Json.optional? none (Json.nullable? read)
  return {
    cacheDir := ← setting Json.str? cacheDir
    noCache := ← setting Json.bool? noCache
    jobs := ← setting (Json.natBelow? UInt64.size) jobs
    forLoopLocalOnly := ← setting Json.bool? forLoopLocalOnly
    listFiles := ← setting Json.bool? listFiles }

/-- What a setting is, or `null`. -/
def written {α : Type} (toJson : α → Json) : Option α → Json
  | some a => toJson a
  | none => .null

/-- Options as JSON. -/
def toJson (o : Options) : Json :=
  .obj [("cacheDir", written .str o.cacheDir), ("noCache", written .bool o.noCache),
    ("jobs", written (fun n => .int n) o.jobs),
    ("forLoopLocalOnly", written .bool o.forLoopLocalOnly),
    ("listFiles", written .bool o.listFiles)]

end Options
end Formals
