/-!
# Arguments of the command line

Arguments are read from left to right. A `Setting` is given by its name after `--`, the project also
by `-p`, and a value follows as the next argument or behind `=`. An argument that begins with a
hyphen is never the value of the one before it. After `--` every argument is a file, and so is `-`.
The first misuse ends the reading; a request for help ends it too.
-/

namespace Formals.CommandLine

/-- What the arguments say. -/
structure Arguments where
  /-- The units to compile. -/
  files : List String := []
  /-- The project file. -/
  project : Option String := none
  /-- Whether to print the code of every body. -/
  listing : Bool := false
  /-- The body to run. -/
  run : Option String := none
  /-- What the body is run on, as JSON. -/
  args : String := "[]"
  cacheDir : Option String := none
  noCache : Bool := false
  jobs : Option Nat := none
  verbose : Bool := false
  deriving DecidableEq, Repr, Inhabited

/-- What an argument can set. -/
inductive Setting where
  | project
  | listing
  | run
  | args
  | cacheDir
  | noCache
  | jobs
  | verbose
  | help
  deriving DecidableEq, Repr

namespace Setting

/-- Every setting. -/
def all : List Setting :=
  [project, listing, run, args, cacheDir, noCache, jobs, verbose, help]

/-- The name of a setting. -/
def name : Setting → String
  | project => "project"
  | listing => "disasm"
  | run => "run"
  | args => "args"
  | cacheDir => "cache-dir"
  | noCache => "no-cache"
  | jobs => "jobs"
  | verbose => "verbose"
  | help => "help"

/-- The letter that stands for a setting. -/
def letter? : Setting → Option Char
  | project => some 'p'
  | help => some 'h'
  | _ => none

/-- Whether a setting takes a value. -/
def takesValue : Setting → Bool
  | project | run | args | cacheDir | jobs => true
  | listing | noCache | verbose | help => false

end Setting

/-- Why arguments cannot be read. -/
inductive Misuse where
  | unknown (argument : String)
  | repeated (setting : Setting)
  | missingValue (setting : Setting)
  /-- A setting that takes no value has one. -/
  | excessValue (setting : Setting) (value : String)
  | badNumber (setting : Setting) (value : String)
  /-- The name of a file is empty. -/
  | emptyFile
  deriving DecidableEq, Repr

/-- The text of a misuse. -/
def Misuse.message : Misuse → String
  | unknown argument => s!"unexpected argument '{argument}'"
  | repeated setting => s!"--{setting.name} is given more than once"
  | missingValue setting => s!"--{setting.name} needs a value"
  | excessValue setting value => s!"--{setting.name} takes no value, but has '{value}'"
  | badNumber setting value => s!"'{value}' is no number for --{setting.name}"
  | emptyFile => "the name of a file is empty"

/-- What arguments ask for. -/
inductive Request where
  | help
  | compile (arguments : Arguments)
  deriving DecidableEq, Repr

/-- What an argument is on its own. -/
inductive Word where
  /-- The argument after which all others are files. -/
  | separator
  | file (name : String)
  | setting (setting : Setting) (value : Option String)
  | unknown
  deriving DecidableEq, Repr

/-- Whether an argument can only begin something new. -/
def startsOption (argument : String) : Bool := argument.startsWith "-" && argument != "-"

namespace Word

/-- An argument after its two hyphens. -/
def ofLong (text : List Char) : Word :=
  let name := String.ofList (text.takeWhile (· ≠ '='))
  match Setting.all.find? fun s => s.name = name with
  | none => unknown
  | some s =>
    match text.dropWhile (· ≠ '=') with
    | [] => setting s none
    | _ :: value => setting s (some (String.ofList value))

/-- An argument after its hyphen. What follows the letter of a setting is its value. -/
def ofShort : List Char → Word
  | [] => unknown
  | c :: text =>
    match Setting.all.find? fun s => s.letter? = some c with
    | none => unknown
    | some s =>
      if s.takesValue then
        match text with
        | [] => setting s none
        | '=' :: value => setting s (some (String.ofList value))
        | value => setting s (some (String.ofList value))
      else setting s none

/-- What an argument is. -/
def ofArgument (argument : String) : Word :=
  if argument = "--" then separator
  else if !startsOption argument then file argument
  else
    match argument.toList with
    | '-' :: '-' :: text => ofLong text
    | _ :: text => ofShort text
    | [] => unknown

end Word

/-- A number below `2 ^ 64`, perhaps after a plus sign. -/
def count? (text : String) : Option Nat :=
  let digits := match text.toList with
    | '+' :: ds => ds
    | ds => ds
  if !digits.isEmpty && digits.all Char.isDigit then
    let n := digits.foldl (fun n d => n * 10 + (d.toNat - '0'.toNat)) 0
    if n < UInt64.size then some n else none
  else none

/-- What is read so far. -/
structure Progress where
  arguments : Arguments := {}
  given : List Setting := []

namespace Progress

/-- Adds a file. -/
def addFile (p : Progress) (name : String) : Except Misuse Progress :=
  if name.isEmpty then .error .emptyFile
  else .ok { p with arguments := { p.arguments with files := p.arguments.files ++ [name] } }

/-- Notes that a setting is given, which may happen once. -/
def note (p : Progress) (s : Setting) : Except Misuse Progress :=
  if s ∈ p.given then .error (.repeated s) else .ok { p with given := s :: p.given }

/-- The arguments with a setting that takes no value. -/
def turnOn (a : Arguments) : Setting → Arguments
  | .listing => { a with listing := true }
  | .noCache => { a with noCache := true }
  | .verbose => { a with verbose := true }
  | _ => a

/-- The arguments with a setting that takes a value. -/
def setTo (a : Arguments) (s : Setting) (value : String) : Except Misuse Arguments :=
  match s with
  | .project => if value.isEmpty then .error .emptyFile else .ok { a with project := some value }
  | .run => .ok { a with run := some value }
  | .args => .ok { a with args := value }
  | .cacheDir => .ok { a with cacheDir := some value }
  | .jobs =>
    match count? value with
    | some n => .ok { a with jobs := some n }
    | none => .error (.badNumber s value)
  | _ => .ok a

/-- Takes a setting without a value. -/
def flag (p : Progress) (s : Setting) : Except Misuse Progress := do
  let p ← p.note s
  return { p with arguments := turnOn p.arguments s }

/-- Takes a setting with its value. -/
def set (p : Progress) (s : Setting) (value : String) : Except Misuse Progress := do
  let p ← p.note s
  return { p with arguments := ← setTo p.arguments s value }

/-- Reads on. -/
def read (p : Progress) : List String → Except Misuse Request
  | [] => .ok (.compile p.arguments)
  | argument :: others =>
    match Word.ofArgument argument with
    | .unknown => .error (.unknown argument)
    | .separator => do return .compile (← others.foldlM addFile p).arguments
    | .file name => do read (← p.addFile name) others
    | .setting s (some value) =>
      if s.takesValue then do read (← p.set s value) others
      else .error (.excessValue s value)
    | .setting s none =>
      if s = .help then .ok .help
      else if s.takesValue then
        match others with
        | [] => .error (.missingValue s)
        | value :: others =>
          if startsOption value then .error (.missingValue s)
          else do read (← p.set s value) others
      else do read (← p.flag s) others
termination_by arguments => arguments.length

end Progress

/-- What some arguments ask for. -/
def Request.ofArguments (arguments : List String) : Except Misuse Request :=
  Progress.read {} arguments

/-- What a request for help is answered. -/
def helpText : String :=
  String.join [
    "argbind - compiles parameter lists into binding instructions\n\n",
    "Usage: argbind [OPTIONS] [FILE]...\n\n",
    "Arguments:\n",
    "  [FILE]...  Compilation units (JSON) to compile\n\n",
    "Options:\n",
    "  -p, --project <PROJECT>      Path to argbind.json\n",
    "      --disasm                 Print the instruction stream of every compiled body\n",
    "      --run <BODY>             Run the named body against `--args`\n",
    "      --args <JSON>            Call-time arguments as a JSON array, ",
    "or the right-hand side of a multiple assignment [default: []]\n",
    "      --cache-dir <CACHE_DIR>  Persist compiled bodies under this directory\n",
    "      --no-cache               Do not read or write the compilation cache\n",
    "      --jobs <JOBS>            Worker threads for parallel compilation\n",
    "      --verbose                Log compiler decisions to stderr\n",
    "  -h, --help                   Print help\n"]

end Formals.CommandLine
