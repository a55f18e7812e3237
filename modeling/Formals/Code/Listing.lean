import Formals.Code.Instruction
import Formals.Text.Quoted

/-!
# Listings

A listing has one numbered entry an instruction, and shows the instructions between `if` and `end`
one step deeper than these. `Stream.entries` is the listing as data and `Stream.listing` its text.
-/

namespace Formals

/-- An operation as listings show it. -/
def Op.text (op : Op) : String :=
  let mnemonic := op.opcode.mnemonic
  match op with
  | .pushInt value => s!"{mnemonic} {value}"
  | .pushString value => s!"{mnemonic} {quoted value}"
  | .createArray count | .createHash count | .setArgc count => s!"{mnemonic} {count}"
  | .localSet name localOnly => s!"{mnemonic} {name}" ++ if localOnly then " (local)" else ""
  | .localGet name | .instanceGet name | .instanceSet name | .globalGet name | .globalSet name =>
    s!"{mnemonic} {name}"
  | .pushSymbol name | .hasKeyword name | .takeKeyword name => s!"{mnemonic} :{name}"
  | .send message toSelf isWriter =>
    s!"{mnemonic} :{message}" ++ (if toSelf then " to self" else "") ++
      if isWriter then " (attr)" else ""
  | _ => mnemonic

/-- One line of a listing. -/
structure Listing.Entry where
  index : Nat
  depth : Nat
  op : Op
  deriving DecidableEq, Repr

/-- A line of a listing as text: the index in four columns, two spaces a step of depth, and the
operation. -/
def Listing.Entry.text (e : Listing.Entry) : String :=
  let number := toString e.index
  "".pushn ' ' (4 - number.length) ++ number ++ " " ++ "".pushn ' ' (2 * e.depth) ++ e.op.text

/-- The entries of the instructions from position `index` on, inside `depth` blocks. -/
def Stream.entriesFrom (index depth : Nat) : Stream → List Listing.Entry
  | [] => []
  | i :: rest =>
    match i.op with
    | .ifTrue => ⟨index, depth, i.op⟩ :: entriesFrom (index + 1) (depth + 1) rest
    | .orElse => ⟨index, depth - 1, i.op⟩ :: entriesFrom (index + 1) depth rest
    | .endIf => ⟨index, depth - 1, i.op⟩ :: entriesFrom (index + 1) (depth - 1) rest
    | _ => ⟨index, depth, i.op⟩ :: entriesFrom (index + 1) depth rest

/-- The entries of a stream. -/
def Stream.entries (code : Stream) : List Listing.Entry := Stream.entriesFrom 0 0 code

/-- The listing of a stream, a line an instruction. -/
def Stream.listing (code : Stream) : String :=
  String.join (code.entries.map fun e => e.text ++ "\n")

end Formals
