import Formals.Machine.Blocks
import Formals.Machine.Env
import Formals.Machine.Inspect
import Formals.Machine.Send

/-!
# The machine

A `Machine` runs streams on a stack of values and an environment. `execute` runs a stream;
`bindArguments` and `assign` run one on an array of arguments or on the right-hand side of an
assignment, and check that it leaves the stack as deep as it was. An error leaves the machine as it
is when the error is found.
-/

namespace Formals

/-- The state of a machine: its environment, a stack whose top comes first, and a register. -/
structure Machine extends Env where
  stack : List Value := []
  /-- The number of arguments of the next call. -/
  argc : UInt32 := 0
  deriving Repr, Inhabited

/-- What runs on a machine. -/
abbrev Exec := EStateM RuntimeError Machine

namespace Machine

/-- A machine with a plain object as `self`. -/
def fresh (heap : Heap) : Machine :=
  let (main, heap) := heap.newObject { className := "main" }
  { heap, selfValue := main }

/-- The machine in a new innermost scope. -/
def pushScope (m : Machine) : Machine := { m with scope := [], outer := m.scope :: m.outer }

/-- The machine out of the innermost scope. The outermost scope stays. -/
def popScope (m : Machine) : Machine :=
  match m.outer with
  | [] => m
  | scope :: outer => { m with scope, outer }

/-- The machine with a local variable set in the innermost scope. -/
def define (m : Machine) (name : String) (value : Value) : Machine :=
  { m with toEnv := m.toEnv.define name value }

/-- The machine with a local variable set, in the scope in which `Env.setLocal` sets it. -/
def setLocal (m : Machine) (name : String) (value : Value) (localOnly : Bool) : Machine :=
  { m with toEnv := m.toEnv.setLocal name value localOnly }

/-! ## The stack -/

/-- Pushes a value. -/
def push (v : Value) : Exec Unit := modify fun m => { m with stack := v :: m.stack }

/-- The value on top of the stack. -/
def peek (pc : Nat) : Exec Value := do
  match (← get).stack with
  | v :: _ => return v
  | [] => throw (.stackUnderflow pc)

/-- Pops a value. -/
def pop (pc : Nat) : Exec Value := do
  let m ← get
  match m.stack with
  | v :: stack =>
    set { m with stack }
    return v
  | [] => throw (.stackUnderflow pc)

/-- Pops `n` values, and gives the lowest of them first. -/
def popMany (n : Nat) (pc : Nat) : Exec (List Value) := do
  let m ← get
  if m.stack.length < n then throw (.stackUnderflow pc)
  set { m with stack := m.stack.drop n }
  return (m.stack.take n).reverse

/-! ## Instructions -/

/-- An outcome that leaves the machine alone. -/
def lift {α : Type} (outcome : Except RuntimeError α) : Exec α :=
  match outcome with
  | .ok a => return a
  | .error e => throw e

/-- Pushes a new cell. -/
def pushNew (allocate : Heap → Value × Heap) : Exec Unit := do
  let m ← get
  let (v, heap) := allocate m.heap
  set { m with heap, stack := v :: m.stack }

/-- The handle of the array on top of the stack. -/
def sequence (pc : Nat) : Exec Nat := do
  match ← peek pc with
  | .array handle => return handle
  | v => throw (.typeError (.notConvertible (v.className (← get).heap) "Array"))

/-- The handle of the hash on top of the stack. -/
def keywords (pc : Nat) : Exec Nat := do
  match ← peek pc with
  | .hash handle => return handle
  | v => throw (.typeError (.notConvertible (v.className (← get).heap) "Hash"))

/-- Changes the cells of the machine. -/
def modifyHeap (f : Heap → Heap) : Exec Unit := modify fun m => { m with heap := f m.heap }

/-- The entries of a hash literal from its keys and values in turn. -/
def entriesOf (h : Heap) (found : Entries Key Value) :
    List Value → Except RuntimeError (Entries Key Value)
  | k :: v :: rest => do entriesOf h (found.insert (← k.toKey h) v) rest
  | _ => .ok found

/-- The last element of a sequence if it is a hash with symbols as keys. -/
def stagedHash? (h : Heap) (items : List Value) : Option (Entries Key Value) :=
  match items.getLast? with
  | some (.hash handle) =>
    if Value.isKeywordHash h (.hash handle) then some (h.hashAt handle) else none
  | _ => none

/-- The name of a key that is left over. -/
def keyName (key : Key) : String := key.symbol?.getD key.text

/-- One instruction other than a jump. -/
def step (op : Op) (pc : Nat) : Exec Unit := do
  match op with
  | .pushNil => push .nil
  | .pushTrue => push (.bool true)
  | .pushFalse => push (.bool false)
  | .pushInt n => push (.int n)
  | .pushString s => push (.str s)
  | .pushSymbol s => push (.sym s)
  | .pushSelf => push (← get).selfValue
  | .createArray count =>
    let items ← popMany count.toNat pc
    pushNew (·.newArray items)
  | .createHash count =>
    let flat ← popMany (2 * count.toNat) pc
    let entries ← lift (entriesOf (← get).heap [] flat)
    pushNew (·.newHash entries)
  | .localGet name =>
    match (← get).local? name with
    | some v => push v
    | none => throw (.undefinedVariable name)
  | .localSet name localOnly =>
    let v ← pop pc
    modify (·.setLocal name v localOnly)
  | .instanceGet name =>
    let m ← get
    match m.selfValue with
    | .object handle => push (((m.heap.objectAt handle).ivars.get? name).getD .nil)
    | _ => push .nil
  | .instanceSet name =>
    let v ← pop pc
    let m ← get
    match m.selfValue with
    | .object handle => modifyHeap (·.setVariable handle name v)
    | other => throw (.typeError (.withoutVariables (other.className m.heap)))
  | .globalGet name => push (((← get).global? name).getD .nil)
  | .globalSet name =>
    let v ← pop pc
    modify fun m => { m with globals := m.globals.insert name v }
  | .dup => push (← peek pc)
  | .pop =>
    let _ ← pop pc
  | .arrayShift =>
    let handle ← sequence pc
    let items := (← get).heap.arrayAt handle
    modifyHeap (·.setArray handle items.tail)
    push (items.headD .nil)
  | .arrayPop =>
    let handle ← sequence pc
    let items := (← get).heap.arrayAt handle
    modifyHeap (·.setArray handle items.dropLast)
    push (items.getLastD .nil)
  | .arrayIsEmpty =>
    let handle ← sequence pc
    push (.bool ((← get).heap.arrayAt handle).isEmpty)
  | .toArray =>
    let v ← pop pc
    let items ← lift (v.elements (← get).heap)
    pushNew (·.newArray items)
  | .stageKeywords =>
    let handle ← sequence pc
    let heap := (← get).heap
    let items := heap.arrayAt handle
    match stagedHash? heap items with
    | some entries =>
      modifyHeap (·.setArray handle items.dropLast)
      pushNew (·.newHash entries)
    | none => pushNew (·.newHash [])
  | .hasKeyword name =>
    let handle ← keywords pc
    push (.bool (((← get).heap.hashAt handle).contains (.sym name)))
  | .takeKeyword name =>
    let handle ← keywords pc
    let entries := (← get).heap.hashAt handle
    match entries.get? (.sym name) with
    | some v =>
      modifyHeap (·.setHash handle (entries.erase (.sym name)))
      push v
    | none => throw (.missingKeyword name)
  | .checkKeywords =>
    let handle ← keywords pc
    let entries := (← get).heap.hashAt handle
    if !entries.isEmpty then throw (.unknownKeywords (entries.keys.map keyName))
  | .setArgc count => modify fun m => { m with argc := count }
  | .send message _ isWriter =>
    let receiver ← pop pc
    let arguments ← popMany (← get).argc.toNat pc
    let (result, heap) ← lift (dispatch (← get).heap receiver message arguments)
    modify fun m => { m with heap }
    push (if isWriter then arguments.getLastD .nil else result)
  | .ifTrue | .orElse | .endIf => return ()

/-- The position to which the instruction at `pc` jumps. -/
def target (jumps : Jumps) (pc : Nat) : Nat := (jumps.lookup pc).getD pc

/-- Runs the instructions from position `pc` on. A jump goes on behind its target. -/
def run (jumps : Jumps) (pc : Nat) : Stream → Exec Unit
  | [] => return ()
  | i :: rest => do
    match i.op with
    | .ifTrue =>
      let condition ← pop pc
      if condition.isTruthy then run jumps (pc + 1) rest
      else run jumps (target jumps pc + 1) (rest.drop (target jumps pc - pc))
    | .orElse => run jumps (target jumps pc + 1) (rest.drop (target jumps pc - pc))
    | .endIf => run jumps (pc + 1) rest
    | op =>
      step op pc
      run jumps (pc + 1) rest
termination_by code => code.length
decreasing_by all_goals (simp only [List.length_cons, List.length_drop]; omega)

/-- Runs a stream whose blocks are sound; otherwise nothing is run. -/
def execute (code : Stream) : Exec Unit := do
  let jumps ← lift code.jumps
  run jumps 0 code

/-- Checks that the stack is as deep as it was. -/
def checkBalanced (depth : Nat) : Exec Unit := do
  let now := (← get).stack.length
  if now ≠ depth then throw (.unbalancedStack ((now : Int) - depth))

/-- Runs a stream that binds parameters to arguments. -/
def bindArguments (code : Stream) (arguments : List Value) : Exec Unit := do
  let depth := (← get).stack.length
  pushNew (·.newArray arguments)
  execute code
  checkBalanced depth

/-- Runs a stream that assigns the right-hand side of an assignment to targets. -/
def assign (code : Stream) (value : Value) : Exec Unit := do
  let m ← get
  let depth := m.stack.length
  pushNew (·.newArray (value.splat m.heap))
  execute code
  checkBalanced depth

end Machine
end Formals
