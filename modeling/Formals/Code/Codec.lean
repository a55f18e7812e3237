import Formals.Code.Cursor

/-!
# Encoded streams

An instruction is written as the number of its opcode, the length of its payload and the payload:
the start and the length of its span and then its operands. Integers are variable-length, strings
are UTF-8 after their length in bytes, and a truth value is one byte. A stream is its instructions
one after the other. `Stream.decode` reads back what `Stream.encode` writes.
-/

namespace Formals

/-- A length in bytes and the bytes of a text in UTF-8. -/
def encodeString (s : String) : List UInt8 :=
  Varint.write (textBytes s).length ++ textBytes s

/-- A truth value as one byte. -/
def encodeBool (b : Bool) : List UInt8 := [if b then 1 else 0]

/-- The operands of an operation. -/
def Op.encodeOperands : Op → List UInt8
  | .pushInt value => Varint.write (Varint.zigzag value)
  | .pushString value | .pushSymbol value => encodeString value
  | .createArray count | .createHash count | .setArgc count => Varint.write count.toNat
  | .localSet name localOnly => encodeString name ++ encodeBool localOnly
  | .localGet name | .instanceGet name | .instanceSet name | .globalGet name | .globalSet name
  | .hasKeyword name | .takeKeyword name => encodeString name
  | .send message toSelf isWriter =>
    encodeString message ++ encodeBool toSelf ++ encodeBool isWriter
  | .pushNil | .pushTrue | .pushFalse | .pushSelf | .dup | .pop | .arrayShift | .arrayPop
  | .arrayIsEmpty | .toArray | .stageKeywords | .checkKeywords | .ifTrue | .orElse | .endIf => []

/-- The span and the operands of an instruction. -/
def Instruction.payload (i : Instruction) : List UInt8 :=
  Varint.write i.span.start.toNat ++ Varint.write i.span.length.toNat ++ i.op.encodeOperands

/-- One instruction as bytes. -/
def Instruction.encode (i : Instruction) : List UInt8 :=
  i.op.opcode.number :: (Varint.write i.payload.length ++ i.payload)

/-- A stream as bytes. -/
def Stream.encode (code : Stream) : List UInt8 := code.flatMap Instruction.encode

namespace Reader

/-- The operands that belong to an operation. -/
def operands : Opcode → Reader Op
  | .pushNil => return .pushNil
  | .pushTrue => return .pushTrue
  | .pushFalse => return .pushFalse
  | .pushInt => return .pushInt (← int)
  | .pushString => return .pushString (← string)
  | .pushSymbol => return .pushSymbol (← string)
  | .pushSelf => return .pushSelf
  | .createArray => return .createArray (← word)
  | .createHash => return .createHash (← word)
  | .localGet => return .localGet (← string)
  | .localSet => do
    let name ← string
    return .localSet name (← bool)
  | .instanceGet => return .instanceGet (← string)
  | .instanceSet => return .instanceSet (← string)
  | .globalGet => return .globalGet (← string)
  | .globalSet => return .globalSet (← string)
  | .dup => return .dup
  | .pop => return .pop
  | .arrayShift => return .arrayShift
  | .arrayPop => return .arrayPop
  | .arrayIsEmpty => return .arrayIsEmpty
  | .toArray => return .toArray
  | .stageKeywords => return .stageKeywords
  | .hasKeyword => return .hasKeyword (← string)
  | .takeKeyword => return .takeKeyword (← string)
  | .checkKeywords => return .checkKeywords
  | .setArgc => return .setArgc (← word)
  | .send => do
    let message ← string
    let toSelf ← bool
    return .send message toSelf (← bool)
  | .ifTrue => return .ifTrue
  | .orElse => return .orElse
  | .endIf => return .endIf

/-- The whole payload of an instruction: its span, its operands and nothing after them. -/
def payload (opcode : Opcode) : Reader Instruction := do
  let start ← word
  let length ← word
  let op ← operands opcode
  let after ← get
  if after.rest.isEmpty then return ⟨op, ⟨start, length⟩⟩
  else throw (.trailingOperands opcode after.rest.length after.offset)

/-- One instruction. Its payload is cut out before it is read, so that nothing in it can reach
beyond its end. -/
def instruction : Reader Instruction := do
  let start ← offset
  let number ← byte
  match Opcode.ofNumber? number with
  | none => throw (.unknownOpcode number start)
  | some opcode =>
    let length ← nat
    let inside ← offset
    let taken ← bytes length
    match payload opcode ⟨taken, inside⟩ with
    | .ok i _ => return i
    | .error e _ => throw e

/-- Reads `n` times. -/
def times {α : Type} (item : Reader α) : Nat → Reader (List α)
  | 0 => return []
  | n + 1 => do
    let first ← item
    return first :: (← times item n)

/-- Reads until the bytes are used up, at most `fuel` times. -/
def untilEnd {α : Type} (item : Reader α) : Nat → Reader (List α)
  | 0 => return []
  | fuel + 1 => do
    if (← get).rest.isEmpty then return []
    else
      let first ← item
      return first :: (← untilEnd item fuel)

end Reader

/-- The stream that some bytes are the encoding of. An instruction takes at least one byte, so there
are at most as many instructions as bytes. -/
def Stream.decode (encoded : List UInt8) : Except DecodeError Stream :=
  match Reader.untilEnd Reader.instruction encoded.length ⟨encoded, 0⟩ with
  | .ok code _ => .ok code
  | .error e _ => .error e

end Formals
