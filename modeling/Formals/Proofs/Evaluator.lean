import Formals.Proofs.Evaluation
import Formals.Proofs.Lowering
import Formals.Proofs.Sparing

/-!
# Expression code against a recursive evaluator

`Expr.value` evaluates an expression by recursion, in an environment that stays as it is and on a
heap that changes: the parts in order, the receiver of a call after its arguments, and then the new
array or hash or the answer to the message.

The action of an expression is this evaluator (`Expr.eval_mirrors`). So the code for an expression
pushes what the evaluator gives, wherever it stands and whatever the machine holds
(`Expr.lowered_evaluates`).
-/

namespace Formals

open Machine

/-- What reads and changes the heap, and may fail. -/
abbrev OnHeap := EStateM RuntimeError Heap

namespace OnHeap

/-- An outcome that leaves the heap alone. -/
def lift {α : Type} (outcome : Except RuntimeError α) : OnHeap α :=
  match outcome with
  | .ok a => return a
  | .error e => throw e

/-- A new array. -/
def newArray (items : List Value) : OnHeap Value := modifyGet (·.newArray items)

/-- Adds a value under a key. Where the key has a value already, that is changed in its place. -/
def addPair (heap : Heap) (found : Entries Key Value) (pair : Value × Value) :
    Except RuntimeError (Entries Key Value) := do
  let key ← pair.1.toKey heap
  return Entries.insert key pair.2 found

/-- A new hash of some keys and values, in order. -/
def newHash (pairs : List (Value × Value)) : OnHeap Value := do
  let entries ← lift (pairs.foldlM (addPair (← get)) [])
  modifyGet (·.newHash entries)

/-- The answer of a value to a message. -/
def send (receiver : Value) (message : String) (arguments : List Value) : OnHeap Value := do
  let (result, heap) ← lift (dispatch (← get) receiver message arguments)
  set heap
  return result

end OnHeap

namespace Expr

mutual
/-- The value of an expression in an environment. -/
def value (env : Env) : Expr → OnHeap Value
  | nil => return .nil
  | bool b => return .bool b
  | self => return env.selfValue
  | int n => return .int n
  | str s => return .str s
  | sym s => return .sym s
  | localVar name =>
    match env.local? name with
    | some v => return v
    | none => throw (.undefinedVariable name)
  | instanceVar name =>
    match env.selfValue with
    | .object handle => return (((← get).objectAt handle).ivars.get? name).getD .nil
    | _ => return .nil
  | globalVar name => return (env.global? name).getD .nil
  | array elements => do
    let items ← values env elements
    OnHeap.newArray items
  | hash pairs => do
    let pairs ← pairValues env pairs
    OnHeap.newHash pairs
  | call none method arguments => do
    let arguments ← values env arguments
    OnHeap.send env.selfValue method arguments
  | call (some receiver) method arguments => do
    let arguments ← values env arguments
    let receiver ← receiver.value env
    OnHeap.send receiver method arguments

/-- The values of some expressions, from left to right. -/
def values (env : Env) : List Expr → OnHeap (List Value)
  | [] => return []
  | e :: rest => do
    let first ← e.value env
    return first :: (← values env rest)

/-- The keys and values of some pairs, from left to right. -/
def pairValues (env : Env) : List (Expr × Expr) → OnHeap (List (Value × Value))
  | [] => return []
  | (key, value) :: rest => do
    let first ← key.value env
    let second ← value.value env
    return (first, second) :: (← pairValues env rest)
end

end Expr

/-! ## Actions that only change the heap -/

/-- How an action ends that only changes the heap of an environment. -/
def Env.around {α : Type} (env : Env) (known : List Evaluated) :
    EStateM.Result RuntimeError Heap α → EStateM.Result RuntimeError Trail α
  | .ok a heap => .ok a ⟨{ env with heap }, known⟩
  | .error e heap => .error e ⟨{ env with heap }, known⟩

/-- An action in an environment is one that only changes the heap. -/
def Mirrors {α : Type} (env : Env) (act : Act α) (onHeap : OnHeap α) : Prop :=
  ∀ heap known, act ⟨{ env with heap }, known⟩ = env.around known (onHeap heap)

namespace Mirrors

variable {α β : Type} {env : Env} {act : Act α} {onHeap : OnHeap α}

/-- Doing nothing changes nothing. -/
theorem pure (env : Env) (a : α) : Mirrors env (Pure.pure a) (Pure.pure a) := fun _ _ => rfl

/-- Two actions in a row. -/
theorem bind {next : α → Act β} {next' : α → OnHeap β} (h : Mirrors env act onHeap)
    (h' : ∀ a, Mirrors env (next a) (next' a)) :
    Mirrors env (act >>= next) (onHeap >>= next') := by
  intro heap known
  rw [bind_apply, bind_apply, h heap known]
  cases onHeap heap with
  | ok a heap' => exact h' a heap' known
  | error e heap' => rfl

/-- A result that is changed. -/
theorem map {f : α → β} (h : Mirrors env act onHeap) : Mirrors env (f <$> act) (f <$> onHeap) := by
  rw [← bind_pure_comp, ← bind_pure_comp]
  exact h.bind fun a => .pure env (f a)

/-- Two actions in a row, the second one on a result that is changed. -/
theorem bindMap {γ : Type} {onHeap : OnHeap γ} {f : γ → α} {next : α → Act β} {next' : γ → OnHeap β}
    (h : Mirrors env act (f <$> onHeap)) (h' : ∀ c, Mirrors env (next (f c)) (next' c)) :
    Mirrors env (act >>= next) (onHeap >>= next') := by
  intro heap known
  rw [bind_apply, bind_apply, h heap known, ← bind_pure_comp, bind_apply]
  cases onHeap heap with
  | ok c heap' => exact h' c heap' known
  | error e heap' => rfl

/-- Looking at the environment. -/
theorem read {f : Env → Except RuntimeError α}
    (h : ∀ heap, onHeap heap = OnHeap.lift (f { env with heap }) heap) :
    Mirrors env (Act.read f) onHeap := by
  intro heap known
  rw [h heap, Act.read]
  cases f { env with heap } <;> rfl

end Mirrors

/-- Keys and values in turn. -/
def inTurn (pairs : List (Value × Value)) : List Value := pairs.flatMap fun pair => [pair.1, pair.2]

/-- The entries of keys and values in turn are those of the pairs. -/
theorem entriesOf_inTurn (heap : Heap) (pairs : List (Value × Value)) (found : Entries Key Value) :
    entriesOf heap found (inTurn pairs) = pairs.foldlM (OnHeap.addPair heap) found := by
  induction pairs generalizing found with
  | nil => rfl
  | cons pair rest ih =>
    rw [List.foldlM_cons, OnHeap.addPair, inTurn, List.flatMap_cons, List.cons_append,
      List.singleton_append, ← inTurn, entriesOf]
    cases pair.1.toKey heap with
    | ok key => exact ih _
    | error e => rfl

namespace Expr

/-- Looking up `self` changes nothing. -/
theorem getSelf_mirrors (env : Env) : Mirrors env Act.getSelf (return env.selfValue) :=
  .read fun _ => rfl

/-- An array is made in the heap alone. -/
theorem newArray_mirrors (env : Env) (items : List Value) :
    Mirrors env (Value.array <$> Act.newArray items) (OnHeap.newArray items) := fun _ _ => rfl

/-- A hash is made of pairs in the heap alone, whether they come as pairs or in turn. -/
theorem newHash_mirrors (env : Env) (pairs : List (Value × Value)) :
    Mirrors env (Value.hash <$> (Act.inspect (entriesOf · [] (inTurn pairs)) >>= Act.newHash))
      (OnHeap.newHash pairs) := by
  intro heap known
  simp only [OnHeap.newHash, ← bind_pure_comp, bind_apply, Act.inspect, Act.read, get_apply,
    entriesOf_inTurn]
  cases pairs.foldlM (OnHeap.addPair heap) [] <;> rfl

/-- A message changes the heap alone. -/
theorem send_mirrors (env : Env) (receiver : Value) (message : String) (arguments : List Value) :
    Mirrors env (Act.send receiver message arguments)
      (OnHeap.send receiver message arguments) := by
  intro heap known
  simp only [OnHeap.send, bind_apply, get_apply, Act.send]
  cases dispatch heap receiver message arguments <;> rfl

mutual
/-- The action of an expression is its evaluation. -/
theorem eval_mirrors (env : Env) : ∀ e : Expr, Mirrors env e.eval (e.value env)
  | nil | bool _ | int _ | str _ | sym _ => by
    rw [eval, value]
    exact .pure env _
  | self => by
    rw [eval, value]
    exact getSelf_mirrors env
  | localVar name => by
    rw [eval, value]
    refine .read fun heap => ?_
    have hlocal : ({ env with heap } : Env).local? name = env.local? name := rfl
    rw [hlocal]
    cases env.local? name <;> rfl
  | instanceVar name => by
    rw [eval, value]
    refine .read fun heap => ?_
    cases env.selfValue <;> rfl
  | globalVar name => by
    rw [eval, value]
    exact .read fun _ => rfl
  | array elements => by
    rw [eval, value]
    exact (evalList_mirrors env elements).bind (newArray_mirrors env)
  | hash pairs => by
    rw [eval, value]
    exact (evalPairs_mirrors env pairs).bindMap (newHash_mirrors env)
  | call none method arguments => by
    rw [eval, value]
    refine (evalList_mirrors env arguments).bind fun items => ?_
    rw [← pure_bind env.selfValue (OnHeap.send · method items)]
    exact (getSelf_mirrors env).bind fun receiver => send_mirrors env receiver method items
  | call (some receiver) method arguments => by
    rw [eval, value]
    exact (evalList_mirrors env arguments).bind fun items =>
      (eval_mirrors env receiver).bind fun receiver => send_mirrors env receiver method items

/-- The action of some expressions is their evaluation. -/
theorem evalList_mirrors (env : Env) : ∀ es : List Expr, Mirrors env (evalList es) (values env es)
  | [] => by
    rw [evalList, values]
    exact .pure env []
  | e :: rest => by
    rw [evalList, values]
    simp only [bind_pure_comp]
    exact (eval_mirrors env e).bind fun _ => (evalList_mirrors env rest).map

/-- The action of some pairs is their evaluation, key by key and value by value. -/
theorem evalPairs_mirrors (env : Env) : ∀ pairs : List (Expr × Expr),
    Mirrors env (evalPairs pairs)
      (inTurn <$> pairValues env pairs)
  | [] => by
    rw [evalPairs, pairValues]
    exact fun _ _ => rfl
  | (key, v) :: rest => by
    rw [evalPairs, pairValues]
    simp only [bind_pure_comp, map_bind, Functor.map_map]
    refine (eval_mirrors env key).bind fun first => (eval_mirrors env v).bind fun second => ?_
    have := (evalPairs_mirrors env rest).map (f := (first :: second :: ·))
    rw [Functor.map_map] at this
    exact this
end

/-! ## The code for an expression -/

/-- What expressions are made of delimits no block. -/
theorem isJump_of_evaluates {op : Op} (h : op.evaluates = true) : op.isJump = false := by
  cases op <;> first | rfl | cases h

/-- The code for an expression has no jumps. -/
theorem jumpsAt_lower {span : Span} {e : Expr} {code : Stream} (h : e.lower span = .ok code)
    (pc : Nat) : jumpsAt pc code = [] := by
  have hparts := lower_evaluates h
  clear h
  induction code generalizing pc with
  | nil => rfl
  | cons i rest ih =>
    obtain ⟨hi, hrest⟩ := List.forall_mem_cons.1 hparts
    rw [jumpsAt_op (isJump_of_evaluates hi), ih _ hrest]

/-- How a run goes on behind code that pushes a value, when the evaluation of that ends in one way:
with the value on the stack and the heap of the evaluation, and nothing else changed but the
register; or not at all, with the error of the evaluation. -/
def Yields (jumps : Jumps) (pc : Nat) (code rest : Stream) (m : Machine) :
    EStateM.Result RuntimeError Heap Value → Prop
  | .ok v heap => ∃ argc, run jumps pc (code ++ rest) m =
      run jumps (pc + code.length) rest { m with heap, stack := v :: m.stack, argc }
  | .error e heap => ∃ left argc, run jumps pc (code ++ rest) m =
      .error e { m with heap, stack := left ++ m.stack, argc }

/-- A small expression has code. In every run, at whatever position and in front of whatever code,
and on every machine, the code does what the evaluation of the expression does. -/
theorem lowered_evaluates (e : Expr) (span : Span) (hsmall : e.Small) :
    ∃ code, e.lower span = .ok code ∧ ∀ (jumps : Jumps) (pc : Nat) (rest : Stream) (m : Machine),
      Yields jumps pc code rest m (e.value m.toEnv m.heap) := by
  obtain ⟨code, hcode⟩ := lower_ok span e hsmall
  refine ⟨code, hcode, fun jumps pc rest m => ?_⟩
  have hrealizes := lower_realizes hcode
  have hresolves : jumps.Resolves (jumpsAt pc code) := by
    rw [jumpsAt_lower hcode]
    exact nofun
  have heval := eval_mirrors m.toEnv e m.heap []
  rw [Yields.eq_def, hrealizes.balanced.run_append hresolves rest, bind_apply]
  cases hv : e.value m.toEnv m.heap with
  | ok v heap =>
    rw [hv] at heval
    obtain ⟨argc, hexec⟩ := hrealizes.exec_ok heval pc m.stack m.argc
    have hm : exec pc code m = .ok () { m with heap, stack := v :: m.stack, argc } := hexec
    exact ⟨argc, by rw [hm]⟩
  | error error heap =>
    rw [hv] at heval
    obtain ⟨_, left, argc, hexec⟩ := hrealizes.exec_error heval pc m.stack m.argc
    have hm : exec pc code m = .error error { m with heap, stack := left ++ m.stack, argc } := hexec
    exact ⟨left, argc, by rw [hm]⟩

/-- The code for `[1 - (3 - 5), 2]`, behind four instructions, on a register that was used before:
the inner call runs among the arguments of the outer one, which still gets its own. -/
theorem nested_call_evaluates :
    let inner : Expr := .call (some (.int 3)) "-" [.int 5]
    let e : Expr := .array [.call (some (.int 1)) "-" [inner], .int 2]
    let m : Machine := { fresh {} with stack := [.nil], argc := 7 }
    let heap := (m.heap.newArray [.int 3, .int 2]).2
    e.Small ∧ ∃ code, e.lower ⟨0, 0⟩ = .ok code ∧ ∃ argc, run [] 4 (code ++ [⟨.pop, ⟨0, 0⟩⟩]) m =
      run [] (4 + code.length) [⟨.pop, ⟨0, 0⟩⟩]
        { m with heap, stack := [.array 0, .nil], argc } := by
  intro inner e m heap
  have hint (n : Int64) : (int n).Small :=
    small_iff.2 ⟨show 0 < UInt32.size by decide, nofun⟩
  have hcall (k n : Expr) (hk : k.Small) (hn : n.Small) : (call (some k) "-" [n]).Small :=
    small_iff.2 ⟨show 1 < UInt32.size by decide, by simp [children, hk, hn]⟩
  have hsmall : e.Small := small_iff.2 ⟨show 2 < UInt32.size by decide, by
    simp only [e, children, List.forall_mem_cons]
    exact ⟨hcall _ _ (hint 1) (hcall _ _ (hint 3) (hint 5)), hint 2, nofun⟩⟩
  obtain ⟨code, hcode, hyields⟩ := lowered_evaluates e ⟨0, 0⟩ hsmall
  refine ⟨hsmall, code, hcode, ?_⟩
  have hvalue : e.value m.toEnv m.heap = .ok (.array 0) heap := rfl
  have h := hyields [] 4 [⟨.pop, ⟨0, 0⟩⟩] m
  rw [hvalue] at h
  exact h

end Expr
end Formals
