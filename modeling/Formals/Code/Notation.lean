import Formals.Code.Instruction
import Formals.Json.Value

/-!
# Instructions as JSON

An instruction is written as an object: under `op` an array of its mnemonic and its operands, under
`at` its span as an array of start and length. Where the span does not matter the array alone will
do. Signed 64-bit integers are written as decimal texts, since not every reader of JSON keeps
integers of that size.
-/

namespace Formals

/-- A span as an array of its start and its length. -/
def Span.toPair (s : Span) : Json := .arr [.int s.start.toNat, .int s.length.toNat]

/-- A span from an array of its start and its length. -/
def Span.ofPair? : Json → Option Span
  | .arr [start, length] => do return ⟨← start.word?, ← length.word?⟩
  | _ => none

/-- A signed 64-bit integer from its decimal text. -/
def Json.decimal64? (j : Json) : Option Int64 := do
  return Int64.ofInt (← (← j.str?).toInt?)

/-- The operation with a mnemonic. -/
def Opcode.ofMnemonic? (mnemonic : String) : Option Opcode :=
  Opcode.all.find? fun code => code.mnemonic == mnemonic

namespace Op

/-- The operation with some operands. -/
def ofOperands? : Opcode → List Json → Option Op
  | .pushNil, [] => some .pushNil
  | .pushTrue, [] => some .pushTrue
  | .pushFalse, [] => some .pushFalse
  | .pushInt, [n] => n.decimal64?.map .pushInt
  | .pushString, [s] => s.str?.map .pushString
  | .pushSymbol, [s] => s.str?.map .pushSymbol
  | .pushSelf, [] => some .pushSelf
  | .createArray, [n] => n.word?.map .createArray
  | .createHash, [n] => n.word?.map .createHash
  | .localGet, [s] => s.str?.map .localGet
  | .localSet, [s, b] => do return .localSet (← s.str?) (← b.bool?)
  | .instanceGet, [s] => s.str?.map .instanceGet
  | .instanceSet, [s] => s.str?.map .instanceSet
  | .globalGet, [s] => s.str?.map .globalGet
  | .globalSet, [s] => s.str?.map .globalSet
  | .dup, [] => some .dup
  | .pop, [] => some .pop
  | .arrayShift, [] => some .arrayShift
  | .arrayPop, [] => some .arrayPop
  | .arrayIsEmpty, [] => some .arrayIsEmpty
  | .toArray, [] => some .toArray
  | .stageKeywords, [] => some .stageKeywords
  | .hasKeyword, [s] => s.str?.map .hasKeyword
  | .takeKeyword, [s] => s.str?.map .takeKeyword
  | .checkKeywords, [] => some .checkKeywords
  | .setArgc, [n] => n.word?.map .setArgc
  | .send, [s, a, b] => do return .send (← s.str?) (← a.bool?) (← b.bool?)
  | .ifTrue, [] => some .ifTrue
  | .orElse, [] => some .orElse
  | .endIf, [] => some .endIf
  | _, _ => none

/-- An operation from an array of its mnemonic and its operands. -/
def ofJson? : Json → Option Op
  | .arr (mnemonic :: operands) => do
    ofOperands? (← Opcode.ofMnemonic? (← mnemonic.str?)) operands
  | _ => none

/-- The operands of an operation. -/
def operands : Op → List Json
  | .pushInt n => [.str (toString n)]
  | .pushString s | .pushSymbol s => [.str s]
  | .createArray n | .createHash n | .setArgc n => [.int n.toNat]
  | .localSet s localOnly => [.str s, .bool localOnly]
  | .localGet s | .instanceGet s | .instanceSet s | .globalGet s | .globalSet s
  | .hasKeyword s | .takeKeyword s => [.str s]
  | .send message toSelf isWriter => [.str message, .bool toSelf, .bool isWriter]
  | _ => []

/-- An operation as an array of its mnemonic and its operands. -/
def toJson (op : Op) : Json := .arr (.str op.opcode.mnemonic :: op.operands)

end Op

/-- An instruction from JSON. -/
def Instruction.ofJson? (j : Json) : Option Instruction :=
  match j with
  | .arr _ => (Op.ofJson? j).map fun op => ⟨op, {}⟩
  | _ => do return ⟨← Op.ofJson? (← j.get? "op"), ← Span.ofPair? (← j.get? "at")⟩

/-- An instruction as JSON. -/
def Instruction.toJson (i : Instruction) : Json :=
  .obj [("op", i.op.toJson), ("at", i.span.toPair)]

/-- A stream from JSON. -/
def Stream.ofJson? (j : Json) : Option Stream := j.list? Instruction.ofJson?

/-- A stream as JSON. -/
def Stream.toJson (code : Stream) : Json := .arr (code.map Instruction.toJson)

end Formals
