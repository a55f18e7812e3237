import Formals.Binding.Error

/-!
# Diagnostics

A diagnostic is an entry of a catalogue with its placeholders filled in, and perhaps the file, the
place and the body that it is about. Diagnostics are shown sorted by file and place, and those of
one place in the order in which they arose.
-/

namespace Formals

/-- How grave a diagnostic is. -/
inductive Category where
  | warning
  | error
  | message
  deriving DecidableEq, Repr

/-- The word for a category. -/
def Category.word : Category → String
  | warning => "warning"
  | error => "error"
  | message => "message"

/-- An entry of the catalogue. Its text has a placeholder, a number in braces, for each argument. -/
structure Template where
  code : Nat
  category : Category
  text : String
  deriving DecidableEq, Repr

/-- Replaces every occurrence of a pattern that is not empty, from left to right. -/
def replaceAll (pattern replacement : List Char) : List Char → List Char
  | [] => []
  | c :: rest =>
    if pattern.isPrefixOf (c :: rest) then
      replacement ++ replaceAll pattern replacement (rest.drop (pattern.length - 1))
    else c :: replaceAll pattern replacement rest
termination_by text => text.length
decreasing_by all_goals simp +arith [List.length_drop]

/-- The placeholder for the argument with a number. -/
def placeholder (index : Nat) : List Char := '\x7b' :: (toString index).toList ++ ['\x7d']

/-- Fills in the arguments from number `index` on, one after the other: a placeholder that an
argument brings in is filled by a later one. -/
def fillFrom (index : Nat) (text : List Char) : List String → List Char
  | [] => text
  | arg :: rest => fillFrom (index + 1) (replaceAll (placeholder index) arg.toList text) rest

/-- A text with its placeholders filled in. -/
def fill (text : String) (args : List String) : String :=
  String.ofList (fillFrom 0 text.toList args)

/-- A message to the user of the compiler. -/
structure Diagnostic where
  file : Option String := none
  span : Option Span := none
  text : String
  code : Nat
  category : Category
  /-- The method, block, loop or assignment that it is about. -/
  body : Option String := none
  deriving DecidableEq, Repr

/-- A diagnostic without a place. -/
def Template.instantiate (t : Template) (args : List String) : Diagnostic :=
  { text := fill t.text args, code := t.code, category := t.category }

namespace Diagnostic

/-- The diagnostic at a place of a file. -/
def located (d : Diagnostic) (file : String) (span : Span) : Diagnostic :=
  { d with file := some file, span := some span }

/-- The diagnostic about a body. -/
def inBody (d : Diagnostic) (name : String) : Diagnostic := { d with body := some name }

/-- Whether a diagnostic is an error. -/
def isError (d : Diagnostic) : Bool := d.category = .error

/-- A diagnostic on one line. A place shows only after a file. -/
def line (d : Diagnostic) : String :=
  let place :=
    match d.file, d.span with
    | some file, some span => s!"{file}({span.start}): "
    | some file, none => s!"{file}: "
    | none, _ => ""
  let context := (d.body.map fun name => s!" (in `{name}`)").getD ""
  s!"{place}{d.category.word} AB{d.code}: {d.text}{context}"

/-- The offset by which diagnostics of one file are ordered. -/
def position (d : Diagnostic) : UInt32 := (d.span.map Span.start).getD 0

/-- Whether one file comes before another; diagnostics without a file come first. -/
def fileBefore : Option String → Option String → Bool
  | none, some _ => true
  | some f, some g => f < g
  | _, none => false

/-- Whether one diagnostic may stand before another. -/
def notAfter (d e : Diagnostic) : Bool :=
  fileBefore d.file e.file || (d.file == e.file && d.position ≤ e.position)

/-- Diagnostics by file and place. -/
def sort (ds : List Diagnostic) : List Diagnostic := ds.mergeSort notAfter

/-- How many of some diagnostics are errors. -/
def errorCount (ds : List Diagnostic) : Nat := ds.countP isError

end Diagnostic

namespace Template

/-- A list of parameters or targets is malformed. -/
def malformedParameter : Template :=
  ⟨1001, .error, "Malformed parameter: \x7b0\x7d."⟩

/-- A default reads the parameter that it belongs to. -/
def circularReference : Template :=
  ⟨1002, .error, "Circular argument reference - \x7b0\x7d."⟩

/-- A group declares a keyword parameter. -/
def keywordInGroup : Template :=
  ⟨1003, .error, "Keyword parameter '\x7b0\x7d' cannot appear inside a destructuring group."⟩

/-- A name is declared twice. -/
def duplicateName : Template :=
  ⟨1004, .error, "Duplicated argument name - \x7b0\x7d."⟩

/-- A file cannot be read. -/
def unreadableFile : Template :=
  ⟨2001, .error, "Cannot read file '\x7b0\x7d': \x7b1\x7d."⟩

/-- A file holds no unit. -/
def invalidUnit : Template :=
  ⟨2002, .error, "Invalid compilation unit '\x7b0\x7d': \x7b1\x7d."⟩

/-- A record of the cache was of no use. -/
def discardedRecord : Template :=
  ⟨2003, .warning, "Discarded cache entry for '\x7b0\x7d': \x7b1\x7d."⟩

/-- A body was compiled. -/
def compiledBody : Template :=
  ⟨2004, .message, "Compiled '\x7b0\x7d' into \x7b1\x7d instructions."⟩

/-- Every entry of the catalogue. -/
def all : List Template :=
  [malformedParameter, circularReference, keywordInGroup, duplicateName, unreadableFile,
   invalidUnit, discardedRecord, compiledBody]

end Template

/-- The entry of the catalogue for an error. -/
def BindError.template : BindError → Template
  | malformed .. => .malformedParameter
  | circular .. => .circularReference
  | keywordInGroup .. => .keywordInGroup
  | duplicate .. => .duplicateName

/-- The diagnostic for an error in a file. -/
def BindError.toDiagnostic (e : BindError) (file : String) : Diagnostic :=
  (e.template.instantiate [e.detail]).located file e.span

end Formals
