import Formals.Project.Files

/-!
# Files in memory

A file tree holds files and directories under absolute locations, and a working directory from which
other locations are seen. It gives `Files` a meaning without a disk.
-/

namespace Formals

/-- What is at a place of a file tree. -/
inductive FileNode where
  | file (bytes : List UInt8)
  | directory
  deriving DecidableEq, Repr, Inhabited

/-- Files and directories. A place is the list of names on the way from the root. -/
structure FileTree where
  nodes : Entries (List String) FileNode := []
  workingDirectory : List String := []
  deriving Repr, Inhabited

namespace FileTree

/-- What is at a place. The root and the working directory are always there. -/
def node? (t : FileTree) (place : List String) : Option FileNode :=
  if place.isPrefixOf t.workingDirectory then some .directory else t.nodes.get? place

/-- Whether a place is a directory. -/
def isDirectory (t : FileTree) (place : List String) : Bool := t.node? place == some .directory

/-- The place that pieces lead to. Every piece has to be taken inside a directory; what the last one
names need not be there. -/
def walk (t : FileTree) (place : List String) : List String → Option (List String)
  | [] => some place
  | piece :: others =>
    if t.isDirectory place then
      if Location.isIdle piece then t.walk place others
      else if piece = ".." then t.walk place.dropLast others
      else t.walk (place ++ [piece]) others
    else none

/-- Where the walk to a location begins. -/
def origin (t : FileTree) (location : String) : List String :=
  if Location.isAbsolute location then [] else t.workingDirectory

/-- The place of a location. -/
def place? (t : FileTree) (location : String) : Option (List String) :=
  if location.isEmpty then none else t.walk (t.origin location) (Location.pieces location)

/-- What is at a location. -/
def find? (t : FileTree) (location : String) : Option FileNode :=
  (t.place? location).bind t.node?

/-- The tree with the directories on a walk. Nothing is a directory inside a file. -/
def makeOnWalk (t : FileTree) (place : List String) : List String → Option FileTree
  | [] => if t.isDirectory place then some t else none
  | piece :: others =>
    if Location.isIdle piece then t.makeOnWalk place others
    else if piece = ".." then t.makeOnWalk place.dropLast others
    else
      let next := place ++ [piece]
      match t.node? next with
      | some .directory => t.makeOnWalk next others
      | some (.file _) => none
      | none => { t with nodes := t.nodes.insert next .directory }.makeOnWalk next others

/-- The tree with a directory and those around it, unless a file is in the way. -/
def makeDirectory? (t : FileTree) (location : String) : Option FileTree :=
  t.makeOnWalk (t.origin location) (Location.pieces location)

/-- The tree with a file written. Its directory has to be there. -/
def write (t : FileTree) (location : String) (bytes : List UInt8) : FileTree :=
  match t.place? location with
  | some place =>
    if t.isDirectory place then t else { t with nodes := t.nodes.insert place (.file bytes) }
  | none => t

/-- The tree without a file. -/
def remove (t : FileTree) (location : String) : FileTree :=
  match t.place? location with
  | some place => if t.isDirectory place then t else { t with nodes := t.nodes.erase place }
  | none => t

/-- The tree with a text file and the directories around it. -/
def add (t : FileTree) (location text : String) : FileTree :=
  let t := (t.makeDirectory? ((Location.parent? location).getD ".")).getD t
  t.write location (textBytes text)

/-- The text of a file. -/
def readText (t : FileTree) (location : String) : Except String String :=
  match t.find? location with
  | some (.file bytes) =>
    match textOfBytes? bytes with
    | some text => .ok text
    | none => .error "the file is not text"
  | some .directory => .error "the location is a directory"
  | none => .error "there is no such file"

/-- What a cache sees at a location. -/
def look (t : FileTree) (location : String) : Option Cache.Slot :=
  (t.find? location).map fun
    | .file bytes => .file bytes
    | .directory => .blocked

instance : Files (StateM FileTree) where
  readText location t := (t.readText location, t)
  look location t := (t.look location, t)
  makeDirectory location t :=
    match t.makeDirectory? location with
    | some made => (true, made)
    | none => (false, t)
  writeFile location bytes t := ((), t.write location bytes)
  removeFile location t := ((), t.remove location)

end FileTree
end Formals
