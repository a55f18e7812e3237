import Formals.Code.Instruction
import Formals.Code.Varint
import Formals.Text.Bytes

/-!
# Reading encoded bytes

A `Cursor` stands in encoded bytes and knows its absolute offset. A `Reader` moves it or fails with
a `DecodeError` that names an absolute offset. A failed reader leaves the cursor where the damage
was found: before the bytes that are missing or overflow 64 bits, and behind those that were read
and turned out to mean nothing.
-/

namespace Formals

/-- What is wrong with encoded bytes, and where. -/
inductive DecodeError where
  /-- The bytes end at `offset`, inside what is read. -/
  | truncated (offset : Nat)
  | unknownOpcode (byte : UInt8) (offset : Nat)
  /-- The integer that begins at `offset` is too large for its field. -/
  | overflow (offset : Nat)
  | invalidUtf8 (offset : Nat)
  | invalidBool (byte : UInt8) (offset : Nat)
  /-- The payload of an instruction goes on for `extra` bytes after its operands. -/
  | trailingOperands (opcode : Opcode) (extra : Nat) (offset : Nat)
  deriving DecidableEq, Repr

/-- The text of an error. -/
def DecodeError.message : DecodeError → String
  | .truncated offset => s!"unexpected end of input at offset {offset}"
  | .unknownOpcode byte offset => s!"unknown opcode 0x{hexByte byte} at offset {offset}"
  | .overflow offset => s!"variable-length integer overflows at offset {offset}"
  | .invalidUtf8 offset => s!"invalid UTF-8 in operand at offset {offset}"
  | .invalidBool byte offset => s!"invalid boolean byte {byte} at offset {offset}"
  | .trailingOperands opcode extra offset =>
    s!"`{opcode.mnemonic}` payload has {extra} unread bytes at offset {offset}"

/-- The bytes still to be read and the offset of the first of them. -/
structure Cursor where
  rest : List UInt8
  offset : Nat := 0
  deriving Repr

/-- The offset at which the bytes end. -/
def Cursor.limit (c : Cursor) : Nat := c.offset + c.rest.length

/-- The cursor `n` bytes further. -/
def Cursor.advance (c : Cursor) (n : Nat) (rest : List UInt8) : Cursor := ⟨rest, c.offset + n⟩

/-- Reads from a cursor and moves it. -/
abbrev Reader := EStateM DecodeError Cursor

/-- The first `n` elements and those after them, if there are that many. -/
def splitExact? {α : Type} : Nat → List α → Option (List α × List α)
  | 0, xs => some ([], xs)
  | _ + 1, [] => none
  | n + 1, x :: xs => (splitExact? n xs).map fun (first, rest) => (x :: first, rest)

namespace Reader

/-- Exactly `n` bytes. -/
def bytes (n : Nat) : Reader (List UInt8) := fun c =>
  match splitExact? n c.rest with
  | some (taken, rest) => .ok taken (c.advance n rest)
  | none => .error (.truncated c.limit) c

/-- Whether the next bytes are `expected`. -/
def expect (expected : List UInt8) : Reader Bool := do
  return (← bytes expected.length) == expected

/-- One byte. -/
def byte : Reader UInt8 := fun c =>
  match c.rest with
  | b :: rest => .ok b (c.advance 1 rest)
  | [] => .error (.truncated c.limit) c

/-- An unsigned integer below `2 ^ 64`. -/
def nat : Reader Nat := fun c =>
  match Varint.read c.rest with
  | .ok (value, rest) => .ok value (c.advance (c.rest.length - rest.length) rest)
  | .error .truncated => .error (.truncated c.limit) c
  | .error .overflow => .error (.overflow c.offset) c

/-- The offset of the next byte. -/
def offset : Reader Nat := return (← get).offset

/-- An unsigned 32-bit integer. -/
def word : Reader UInt32 := do
  let start ← offset
  let value ← nat
  if value < UInt32.size then return UInt32.ofNat value else throw (.overflow start)

/-- A signed 64-bit integer. -/
def int : Reader Int64 := return Varint.unzigzag (← nat)

/-- A byte that is 0 or 1. -/
def bool : Reader Bool := do
  let start ← offset
  let b ← byte
  if b = 0 then return false
  else if b = 1 then return true
  else throw (.invalidBool b start)

/-- A length and that many bytes of UTF-8. -/
def string : Reader String := do
  let length ← nat
  let start ← offset
  let taken ← bytes length
  match textOfBytes? taken with
  | some s => return s
  | none => throw (.invalidUtf8 start)

end Reader
end Formals
