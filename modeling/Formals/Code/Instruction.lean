import Formals.Span

/-!
# Instructions

A stream is a list of instructions for a stack machine. An `Op` is an operation with its operands;
an `Opcode` is the operation alone, with the number that encodings store and the mnemonic that
listings show. `[.. before] → [.. after]` in a comment is the effect on the stack, top last. The
*sequence* is the array that the current binding level consumes: the top of the stack, or the value
below the keyword hash while that is staged.
-/

namespace Formals

/-- An operation without its operands. -/
inductive Opcode where
  | pushNil
  | pushTrue
  | pushFalse
  | pushInt
  | pushString
  | pushSymbol
  | pushSelf
  | createArray
  | createHash
  | localGet
  | localSet
  | instanceGet
  | instanceSet
  | globalGet
  | globalSet
  | dup
  | pop
  | arrayShift
  | arrayPop
  | arrayIsEmpty
  | toArray
  | stageKeywords
  | hasKeyword
  | takeKeyword
  | checkKeywords
  | setArgc
  | send
  | ifTrue
  | orElse
  | endIf
  deriving DecidableEq, Repr, Inhabited

namespace Opcode

/-- Every operation, in the order of the numbers. -/
def all : List Opcode :=
  [.pushNil, .pushTrue, .pushFalse, .pushInt, .pushString, .pushSymbol, .pushSelf,
   .createArray, .createHash, .localGet, .localSet, .instanceGet, .instanceSet, .globalGet,
   .globalSet, .dup, .pop, .arrayShift, .arrayPop, .arrayIsEmpty, .toArray, .stageKeywords,
   .hasKeyword, .takeKeyword, .checkKeywords, .setArgc, .send, .ifTrue, .orElse, .endIf]

/-- The number of an operation in encodings; 18 and 19 are not assigned. -/
def number : Opcode → UInt8
  | pushNil => 1
  | pushTrue => 2
  | pushFalse => 3
  | pushInt => 4
  | pushString => 5
  | pushSymbol => 6
  | pushSelf => 7
  | createArray => 8
  | createHash => 9
  | localGet => 10
  | localSet => 11
  | instanceGet => 12
  | instanceSet => 13
  | globalGet => 14
  | globalSet => 15
  | dup => 16
  | pop => 17
  | arrayShift => 20
  | arrayPop => 21
  | arrayIsEmpty => 22
  | toArray => 23
  | stageKeywords => 24
  | hasKeyword => 25
  | takeKeyword => 26
  | checkKeywords => 27
  | setArgc => 28
  | send => 29
  | ifTrue => 30
  | orElse => 31
  | endIf => 32

/-- The operation that has a number. -/
def ofNumber? (n : UInt8) : Option Opcode := all.find? fun code => code.number == n

/-- The name of an operation in listings. -/
def mnemonic : Opcode → String
  | pushNil => "push_nil"
  | pushTrue => "push_true"
  | pushFalse => "push_false"
  | pushInt => "push_int"
  | pushString => "push_string"
  | pushSymbol => "push_symbol"
  | pushSelf => "push_self"
  | createArray => "create_array"
  | createHash => "create_hash"
  | localGet => "variable_get"
  | localSet => "variable_set"
  | instanceGet => "instance_variable_get"
  | instanceSet => "instance_variable_set"
  | globalGet => "global_variable_get"
  | globalSet => "global_variable_set"
  | dup => "dup"
  | pop => "pop"
  | arrayShift => "array_shift"
  | arrayPop => "array_pop"
  | arrayIsEmpty => "array_is_empty"
  | toArray => "to_array"
  | stageKeywords => "stage_keyword_hash"
  | hasKeyword => "hash_has_key"
  | takeKeyword => "hash_delete"
  | checkKeywords => "check_extra_keywords"
  | setArgc => "push_argc"
  | send => "send"
  | ifTrue => "if"
  | orElse => "else"
  | endIf => "end"

end Opcode

/-- An operation with its operands. -/
inductive Op where
  /-- `[] → [nil]` -/
  | pushNil
  | pushTrue
  | pushFalse
  | pushInt (value : Int64)
  | pushString (value : String)
  | pushSymbol (value : String)
  | pushSelf
  /-- `[e1 .. en] → [array]` -/
  | createArray (count : UInt32)
  /-- `[k1 v1 .. kn vn] → [hash]`, where `count` is the number of pairs. -/
  | createHash (count : UInt32)
  | localGet (name : String)
  /-- `[v] → []`. With `localOnly` the variable belongs to the innermost scope; otherwise an outer
  variable of that name is assigned if there is one. -/
  | localSet (name : String) (localOnly : Bool)
  | instanceGet (name : String)
  | instanceSet (name : String)
  | globalGet (name : String)
  | globalSet (name : String)
  /-- `[v] → [v v]` -/
  | dup
  /-- `[v] → []` -/
  | pop
  /-- `[seq] → [seq first]`, which removes the first element; nil when there is none. -/
  | arrayShift
  /-- `[seq] → [seq last]`, which removes the last element; nil when there is none. -/
  | arrayPop
  /-- `[seq] → [seq bool]` -/
  | arrayIsEmpty
  /-- `[v] → [array]`, a fresh array of the elements of `v`. -/
  | toArray
  /-- `[seq] → [seq hash]`, a copy of the last element of the sequence, which is removed, if its
  keys are all symbols, and an empty hash otherwise. -/
  | stageKeywords
  /-- `[hash] → [hash bool]` -/
  | hasKeyword (name : String)
  /-- `[hash] → [hash value]`, which removes the key. -/
  | takeKeyword (name : String)
  /-- `[hash] → [hash]`, which fails unless the hash is empty. -/
  | checkKeywords
  /-- Sets the number of arguments of the next call. -/
  | setArgc (count : UInt32)
  /-- `[a1 .. an receiver] → [result]`. With `isWriter` the result is the last argument, not what
  the method returns. -/
  | send (message : String) (toSelf : Bool) (isWriter : Bool)
  /-- `[bool] → []`, which runs the block up to its `orElse` or `endIf` when the value is truthy. -/
  | ifTrue
  | orElse
  | endIf
  deriving DecidableEq, Repr, Inhabited

/-- The operation without its operands. -/
def Op.opcode : Op → Opcode
  | .pushNil => .pushNil
  | .pushTrue => .pushTrue
  | .pushFalse => .pushFalse
  | .pushInt _ => .pushInt
  | .pushString _ => .pushString
  | .pushSymbol _ => .pushSymbol
  | .pushSelf => .pushSelf
  | .createArray _ => .createArray
  | .createHash _ => .createHash
  | .localGet _ => .localGet
  | .localSet _ _ => .localSet
  | .instanceGet _ => .instanceGet
  | .instanceSet _ => .instanceSet
  | .globalGet _ => .globalGet
  | .globalSet _ => .globalSet
  | .dup => .dup
  | .pop => .pop
  | .arrayShift => .arrayShift
  | .arrayPop => .arrayPop
  | .arrayIsEmpty => .arrayIsEmpty
  | .toArray => .toArray
  | .stageKeywords => .stageKeywords
  | .hasKeyword _ => .hasKeyword
  | .takeKeyword _ => .takeKeyword
  | .checkKeywords => .checkKeywords
  | .setArgc _ => .setArgc
  | .send _ _ _ => .send
  | .ifTrue => .ifTrue
  | .orElse => .orElse
  | .endIf => .endIf

/-- An operation with the span of the declaration that it was emitted for. -/
structure Instruction where
  op : Op
  span : Span := {}
  deriving DecidableEq, Repr, Inhabited

/-- A list of instructions, run from the front. -/
abbrev Stream := List Instruction

end Formals
