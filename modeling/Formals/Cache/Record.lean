import Formals.Cache.Key
import Formals.Code.Codec

/-!
# Records

A record is the encoded code of one body behind the key that it was compiled for:

* the four bytes `ARGB` and the version of the format,
* the key: file and body as length and UTF-8, and the fingerprint,
* the number of instructions and the instructions.

A record that is damaged, of another version, followed by anything, or of another key is of no use
as a whole (`Fault`).
-/

namespace Formals.Cache

/-- Why a record is of no use. -/
inductive Fault where
  /-- It does not begin as a record does. -/
  | notRecord
  | otherVersion (found : UInt32)
  /-- It goes on after the instructions that it declares. -/
  | excess (declared : Nat)
  /-- It was written for another key. -/
  | otherKey (found : Key)
  | damaged (e : DecodeError)
  /-- Its file cannot be read or written. -/
  | unavailable (name : String)
  deriving DecidableEq, Repr

namespace Record

/-- How records begin. -/
def magic : List UInt8 := [0x41, 0x52, 0x47, 0x42]

/-- The version of the format. -/
def version : Nat := 1

/-- The record of a key and the code of its body. -/
def encode (key : Key) (code : Stream) : List UInt8 :=
  magic ++ Varint.write version ++ encodeString key.file ++ encodeString key.body ++
    Varint.write key.fingerprint.toNat ++ Varint.write code.length ++ code.encode

end Record

/-- The text of a fault. -/
def Fault.message : Fault → String
  | notRecord => "not a cache record"
  | otherVersion found => s!"record format version {found}, expected {Record.version}"
  | excess declared => s!"record declares {declared} instructions but holds more"
  | otherKey found => s!"record belongs to '{found.file}:{found.body}'"
  | damaged e => e.message
  | unavailable name => s!"cache I/O on '{name}'"

namespace Record

/-- Reads a part of a record. -/
abbrev PartReader := EStateM Fault Cursor

/-- A part that is read like encoded code. -/
def part {α : Type} (reader : Reader α) : PartReader α := fun c =>
  match reader c with
  | .ok a c => .ok a c
  | .error e c => .error (.damaged e) c

/-- The key in a record. -/
def keyReader : PartReader Key := do
  let file ← part Reader.string
  let body ← part Reader.string
  let fingerprint ← part Reader.nat
  return ⟨file, body, UInt64.ofNat fingerprint⟩

/-- A whole record. -/
def reader : PartReader (Key × Stream) := do
  unless ← part (Reader.expect magic) do throw .notRecord
  let found ← part Reader.word
  if found.toNat ≠ version then throw (.otherVersion found)
  let key ← keyReader
  let count ← part Reader.nat
  let code ← part (Reader.times Reader.instruction count)
  unless (← get).rest.isEmpty do throw (.excess count)
  return (key, code)

/-- The key and the code in a record. -/
def decode (bytes : List UInt8) : Except Fault (Key × Stream) :=
  match reader ⟨bytes, 0⟩ with
  | .ok found _ => .ok found
  | .error e _ => .error e

/-- The code in a record that has to be of a key. -/
def decodeFor (key : Key) (bytes : List UInt8) : Except Fault Stream := do
  let (found, code) ← decode bytes
  if found = key then return code else throw (.otherKey found)

end Record
end Formals.Cache
