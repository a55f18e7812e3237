import Formals.Cache.Record
import Formals.Entries

/-!
# The store of records

A store holds records in memory and, if it has a directory, also as files there, so that later
stores find them. What stands in memory wins over the files; a record found in a file is kept in
memory. A record is looked at when it is asked for, not before: until then it is whatever bytes are
there.
-/

namespace Formals.Cache

/-- What a directory has under a name. -/
inductive Slot where
  | file (bytes : List UInt8)
  /-- Something that can neither be read nor written nor removed as a file. -/
  | blocked
  deriving DecidableEq, Repr

/-- The contents of a directory. -/
abbrev Directory := Entries String Slot

/-- Records in memory, and a directory that backs them if there is one. -/
structure Store where
  memory : Entries Key (List UInt8) := []
  directory : Option Directory := none
  deriving Repr, Inhabited

namespace Store

/-- What the directory has for a key. -/
def slot? (h : Hashing) (s : Store) (key : Key) : Option Slot :=
  s.directory.bind (·.get? (h.recordName key))

/-- The code for a key, if there is a record. -/
def get (h : Hashing) (key : Key) (s : Store) : Except Fault (Option Stream) × Store :=
  match s.memory.get? key with
  | some bytes => ((Record.decodeFor key bytes).map some, s)
  | none =>
    match s.slot? h key with
    | none => (.ok none, s)
    | some .blocked => (.error (.unavailable (h.recordName key)), s)
    | some (.file bytes) =>
      match Record.decodeFor key bytes with
      | .ok code => (.ok (some code), { s with memory := s.memory.insert key bytes })
      | .error e => (.error e, s)

/-- Keeps a record in memory, whatever it is. -/
def insertRaw (key : Key) (bytes : List UInt8) (s : Store) : Store :=
  { s with memory := s.memory.insert key bytes }

/-- Writes a file of the directory, unless its name is blocked. -/
def writeFile (name : String) (bytes : List UInt8) (s : Store) : Option Store :=
  match s.directory with
  | none => some s
  | some directory =>
    match directory.get? name with
    | some .blocked => none
    | _ => some { s with directory := some (directory.insert name (.file bytes)) }

/-- Keeps the code for a key. What cannot be written to the directory is not kept in memory. -/
def insert (h : Hashing) (key : Key) (code : Stream) (s : Store) : Except Fault Unit × Store :=
  let bytes := Record.encode key code
  match s.writeFile (h.recordName key) bytes with
  | some s => (.ok (), s.insertRaw key bytes)
  | none => (.error (.unavailable (h.recordName key)), s)

/-- Removes a file of the directory, unless its name is blocked. -/
def removeFile (name : String) (s : Store) : Store :=
  match s.directory with
  | none => s
  | some directory =>
    match directory.get? name with
    | some .blocked => s
    | _ => { s with directory := some (directory.erase name) }

/-- Forgets the record of a key, in memory and in the directory. -/
def evict (h : Hashing) (key : Key) (s : Store) : Store :=
  { s with memory := s.memory.erase key }.removeFile (h.recordName key)

/-- The record of a key in memory. -/
def raw? (key : Key) (s : Store) : Option (List UInt8) := s.memory.get? key

/-- The number of records in memory. -/
def size (s : Store) : Nat := s.memory.length

end Store
end Formals.Cache
