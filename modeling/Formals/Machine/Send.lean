import Formals.Machine.Error
import Formals.Words

/-!
# Methods

The methods that values answer. Every value answers `nil?`. An object answers every other message:
one that ends in `=` writes an instance variable, any other reads one.
-/

namespace Formals

/-- Checks the number of arguments. -/
def checkArity (arguments : List Value) (expected : Nat) : Except RuntimeError Unit :=
  if arguments.length = expected then .ok ()
  else .error (.argumentCount arguments.length expected)

/-- The operation of an integer method. -/
def integerOperation? : String → Option (Int → Int → Int)
  | "+" => some (· + ·)
  | "-" => some (· - ·)
  | "*" => some (· * ·)
  | _ => none

/-- An integer as a value, if it fits in 64 bits. -/
def checkedInt (n : Int) : Except RuntimeError Value :=
  match int64OfInt? n with
  | some n => .ok (.int n)
  | none => .error .integerOverflow

/-- The name of the attribute that a message writes. -/
def writtenAttribute? (message : String) : Option String :=
  match message.toList.reverse with
  | '=' :: name => some (String.ofList name.reverse)
  | _ => none

/-- A size as a value. -/
def sizeValue (n : Nat) : Value := .int (Int64.ofNat n)

/-- The error for a message that a value does not answer. -/
def unanswered (h : Heap) (receiver : Value) (message : String) : RuntimeError :=
  .noMethod message (receiver.className h)

/-- Sends a message with arguments to a value that is not `nil`-tested. -/
def answer (h : Heap) (receiver : Value) (message : String) (arguments : List Value) :
    Except RuntimeError (Value × Heap) :=
  match receiver with
  | .int n =>
    match integerOperation? message with
    | none => .error (unanswered h receiver message)
    | some operation => do
      checkArity arguments 1
      match arguments.headD .nil with
      | .int m => return (← checkedInt (operation n.toInt m.toInt), h)
      | other => throw (.typeError (.notInteger (other.className h)))
  | .array handle => do
    checkArity arguments 0
    let items := h.arrayAt handle
    match message with
    | "size" | "length" => return (sizeValue items.length, h)
    | "first" => return (items.headD .nil, h)
    | "last" => return (items.getLastD .nil, h)
    | "empty?" => return (.bool items.isEmpty, h)
    | _ => throw (unanswered h receiver message)
  | .hash handle => do
    checkArity arguments 0
    let entries := h.hashAt handle
    match message with
    | "size" | "length" => return (sizeValue entries.length, h)
    | "empty?" => return (.bool entries.isEmpty, h)
    | _ => throw (unanswered h receiver message)
  | .str s =>
    match message with
    | "size" | "length" => do
      checkArity arguments 0
      return (sizeValue s.length, h)
    | _ => .error (unanswered h receiver message)
  | .object handle =>
    match writtenAttribute? message with
    | some name => do
      checkArity arguments 1
      let value := arguments.headD .nil
      return (value, h.setVariable handle ("@" ++ name) value)
    | none => do
      checkArity arguments 0
      return (((h.objectAt handle).ivars.get? ("@" ++ message)).getD .nil, h)
  | .nil | .bool _ | .sym _ => .error (unanswered h receiver message)

/-- Sends a message with arguments to a value: the answer, and the heap after it. -/
def dispatch (h : Heap) (receiver : Value) (message : String) (arguments : List Value) :
    Except RuntimeError (Value × Heap) :=
  if message = "nil?" then do
    checkArity arguments 0
    return (.bool receiver.isNil, h)
  else answer h receiver message arguments

end Formals
