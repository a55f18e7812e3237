import Formals.Proofs.Levels
import Mathlib

/-!
# Calls

Binding parameters and assigning to targets are the same call: an array is pushed, the stream is
run, and the depth of the stack is compared with what it was (`Machine.call`). If the stream
realizes an action, then the call does what the action does (`call_ok`, `call_error`), and so it is
`Safe`: no instruction finds a value of the wrong kind, the stack is left as it was found, and only
the arguments can make the call fail. `compiled_streams_safe` says so of every stream that is
compiled.
-/

namespace Formals

open Machine

namespace Machine

/-- The machine on which the stream of a call starts: an array has been pushed. -/
def entered (items : Heap → List Value) (m : Machine) : Machine :=
  { m with
    heap := (m.heap.newArray (items m.heap)).2
    stack := (m.heap.newArray (items m.heap)).1 :: m.stack }

/-- Runs a stream on an array of values, and checks that it leaves the stack as deep as it was. -/
def call (code : Stream) (items : Heap → List Value) : Exec Unit := do
  let m ← get
  pushNew (·.newArray (items m.heap))
  execute code
  checkBalanced m.stack.length

/-- A call, past the array that it pushes. -/
theorem call_apply (code : Stream) (items : Heap → List Value) (m : Machine) :
    call code items m =
      (execute code >>= fun _ => checkBalanced m.stack.length) (entered items m) := rfl

/-- The check of the depth passes if the depth is what it was. -/
theorem checkBalanced_ok {m : Machine} {depth : Nat} (h : m.stack.length = depth) :
    checkBalanced depth m = .ok () m := by
  simp only [checkBalanced, bind_apply, get_apply, h, ne_eq, not_true_eq_false, if_false]
  rfl

end Machine

/-- The action of a call: a new array, and an action on it. -/
def callAct (items : Heap → List Value) (act : Nat → Act Unit) : Act Unit := do
  let values ← Act.inspect fun h => .ok (items h)
  let q ← Act.newArray values
  act q

/-- An environment in which no default has been evaluated. -/
def Env.trail (env : Env) : Trail := { toEnv := env }

/-- The trail of a call, past the array that it pushes. -/
def Env.entered (items : Heap → List Value) (env : Env) : Trail :=
  { toEnv := { env with heap := (env.heap.newArray (items env.heap)).2 } }

/-- The action of a call, past the array that it makes. -/
theorem callAct_apply (items : Heap → List Value) (act : Nat → Act Unit) (env : Env) :
    callAct items act env.trail = act env.heap.arrays.size (env.entered items) := rfl

/-- The machine on which the stream of a call starts is that of the trail, with the array on the
stack. -/
theorem entered_eq (items : Heap → List Value) (m : Machine) :
    entered items m = (m.toEnv.entered items).machine ([.array m.heap.arrays.size] ++ m.stack)
      m.argc := rfl

section

variable {code : Stream} {act : Nat → Act Unit}

/-- A call of a stream that realizes an action that ends well. -/
theorem call_ok (h : ∀ q, Realizes code [.array q] (act q) (fun _ => []))
    {items : Heap → List Value} {m : Machine} {t : Trail}
    (ha : callAct items act m.toEnv.trail = .ok () t) :
    ∃ argc, call code items m = .ok () (t.machine m.stack argc) := by
  rw [callAct_apply] at ha
  obtain ⟨argc, hx⟩ := (h _).exec_ok ha 0 m.stack m.argc
  refine ⟨argc, ?_⟩
  rw [call_apply, (h 0).balanced.execute, bind_apply, entered_eq, hx]
  exact checkBalanced_ok rfl

/-- A call of a stream that realizes an action that fails. -/
theorem call_error (h : ∀ q, Realizes code [.array q] (act q) (fun _ => []))
    {items : Heap → List Value} {m : Machine} {t : Trail} {e : RuntimeError}
    (ha : callAct items act m.toEnv.trail = .error e t) : e.isArgumentError ∧
      ∃ left argc, call code items m = .error e (t.machine (left ++ m.stack) argc) := by
  rw [callAct_apply] at ha
  obtain ⟨he, left, argc, hx⟩ := (h _).exec_error ha 0 m.stack m.argc
  refine ⟨he, left, argc, ?_⟩
  rw [call_apply, (h 0).balanced.execute, bind_apply, entered_eq, hx]

/-- A call of a stream that realizes an action ends well only if the action does, and leaves the
stack as it was. -/
theorem callAct_of_ok (h : ∀ q, Realizes code [.array q] (act q) (fun _ => []))
    {items : Heap → List Value} {m m' : Machine} (hm : call code items m = .ok () m') :
    ∃ t argc, callAct items act m.toEnv.trail = .ok () t ∧ m' = t.machine m.stack argc := by
  cases ha : callAct items act m.toEnv.trail with
  | ok u t =>
    obtain ⟨argc, hx⟩ := call_ok h ha
    cases hx.symm.trans hm
    exact ⟨t, argc, rfl, rfl⟩
  | error e t =>
    obtain ⟨-, left, argc, hx⟩ := call_error h ha
    cases hx.symm.trans hm

/-- A call of a stream that realizes an action fails only if the action does, and leaves the stack
from before under other values. -/
theorem callAct_of_error (h : ∀ q, Realizes code [.array q] (act q) (fun _ => []))
    {items : Heap → List Value} {m m' : Machine} {e : RuntimeError}
    (hm : call code items m = .error e m') : e.isArgumentError ∧
      ∃ t left argc, callAct items act m.toEnv.trail = .error e t ∧
        m' = t.machine (left ++ m.stack) argc := by
  cases ha : callAct items act m.toEnv.trail with
  | ok u t =>
    obtain ⟨argc, hx⟩ := call_ok h ha
    cases hx.symm.trans hm
  | error e' t =>
    obtain ⟨he, left, argc, hx⟩ := call_error h ha
    cases hx.symm.trans hm
    exact ⟨he, t, left, argc, rfl, rfl⟩

/-- **Calls.** If a call of a stream that realizes an action ends well, then so does the action, and
the defaults that the action evaluates are evaluated in the run. -/
theorem act_of_call (h : ∀ q, Realizes code [.array q] (act q) (fun _ => []))
    {items : Heap → List Value} {m m' : Machine} (hm : call code items m = .ok () m') :
    ∃ t, callAct items act m.toEnv.trail = .ok () t ∧ t.toEnv = m'.toEnv ∧
      ∀ e ∈ t.defaults, Pushes 0 code (entered items m) e := by
  obtain ⟨t, argc, ha, rfl⟩ := callAct_of_ok h hm
  refine ⟨t, ha, rfl, fun e he => ?_⟩
  rw [callAct_apply] at ha
  rcases (h _).pushes ha 0 m.stack m.argc e he with he | he
  · cases he
  · exact entered_eq items m ▸ he

/-- If a call of a stream that realizes an action fails, then so does the action. -/
theorem act_of_call_error (h : ∀ q, Realizes code [.array q] (act q) (fun _ => []))
    {items : Heap → List Value} {m m' : Machine} {e : RuntimeError}
    (hm : call code items m = .error e m') : ∃ t, callAct items act m.toEnv.trail = .error e t := by
  obtain ⟨-, t, -, -, ha, -⟩ := callAct_of_error h hm
  exact ⟨t, ha⟩

end

/-! ## Safety -/

/-- What can be seen of a call from outside the machine: the error, if there is one, and the
environment that it leaves. -/
def observe (outcome : EStateM.Result RuntimeError Machine Unit) : Option RuntimeError × Env :=
  match outcome with
  | .ok _ m => (none, m.toEnv)
  | .error e m => (some e, m.toEnv)

/-- What can be seen of an action that stands for a call. -/
def Act.observe (outcome : EStateM.Result RuntimeError Trail Unit) : Option RuntimeError × Env :=
  match outcome with
  | .ok _ t => (none, t.toEnv)
  | .error e t => (some e, t.toEnv)

/-- What can be seen of a call of a stream that realizes an action can be seen of the action. -/
theorem observe_call {code : Stream} {act : Nat → Act Unit}
    (h : ∀ q, Realizes code [.array q] (act q) (fun _ => [])) (items : Heap → List Value)
    (m : Machine) :
    observe (call code items m) = Act.observe (callAct items act m.toEnv.trail) := by
  cases ha : callAct items act m.toEnv.trail with
  | ok u t =>
    obtain ⟨argc, hx⟩ := call_ok h ha
    rw [hx]
    rfl
  | error e t =>
    obtain ⟨-, left, argc, hx⟩ := call_error h ha
    rw [hx]
    rfl

/-- A call is safe: whatever the machine, no error means that the stream is broken, every
instruction finds what it works on, the stack from before is left, alone on success and under other
values after an error, and what can be seen of the call depends neither on the stack nor on the
register. -/
structure Safe (code : Stream) (items : Heap → List Value) (call : Exec Unit) : Prop where
  ready : ∀ m j n, Executes 0 code (entered items m) j n → Ready j.2 n
  onSuccess : ∀ m m', call m = .ok () m' → m'.stack = m.stack
  onError : ∀ m m' e, call m = .error e m' → e.isArgumentError ∧ m.stack <:+ m'.stack ∧
    (∀ pc, e ≠ .stackUnderflow pc) ∧ (∀ extra, e ≠ .unbalancedStack extra) ∧
    ∀ fault pc, e ≠ .malformedBlock fault pc
  independent : ∀ env stack stack' argc argc',
    observe (call ⟨env, stack, argc⟩) = observe (call ⟨env, stack', argc'⟩)

/-- A call of a stream that realizes an action is safe. -/
theorem safe_of_realizes {code : Stream} {act : Nat → Act Unit}
    (h : ∀ q, Realizes code [.array q] (act q) (fun _ => [])) (items : Heap → List Value) :
    Safe code items (call code items) where
  ready m j n hv := (h m.heap.arrays.size).ready (entered_eq items m ▸ hv)
  onSuccess m m' hm := by
    obtain ⟨t, argc, -, rfl⟩ := callAct_of_ok h hm
    rfl
  onError m m' e hm := by
    obtain ⟨he, t, left, argc, -, rfl⟩ := callAct_of_error h hm
    refine ⟨he, ⟨left, rfl⟩, ?_, ?_, ?_⟩ <;> intros <;> rintro rfl <;> cases he
  independent env stack stack' argc argc' := by
    rw [observe_call h, observe_call h]

/-- **Compiled streams are safe.** Whatever is compiled, binding and assigning with it is safe, for
all arguments and all right-hand sides. -/
theorem compiled_streams_safe :
    (∀ list localOnly code, ParamList.compile? list localOnly = .ok code →
      ∀ arguments, Safe code (fun _ => arguments) (bindArguments code arguments)) ∧
    ∀ list code, TargetList.compile list = .ok code →
      ∀ value, Safe code value.splat (assign code value) := by
  constructor
  · intro list localOnly code h arguments
    obtain ⟨ps, -, hr⟩ := compile_params_realizes h
    exact safe_of_realizes hr fun _ => arguments
  · intro list code h value
    obtain ⟨ts, -, hr⟩ := compile_targets_realizes h
    exact safe_of_realizes hr value.splat

/-- `(a, b = a, *c)` and `a, *b` are compiled, and binding and assigning with them is safe. -/
theorem small_streams_safe :
    (∃ code, ParamList.compile? (some ⟨[.required "a" {}, .optional "b" (.localVar "a") {},
        .rest (some "c") {}], {}⟩) true = .ok code ∧
      Safe code (fun _ => [.int 1]) (bindArguments code [.int 1])) ∧
    ∃ code, TargetList.compile ⟨[.var .ofScope "a" {}, .splat (some (.var .ofScope "b" {})) {}], {}⟩
        = .ok code ∧
      Safe code (Value.int 1).splat (assign code (.int 1)) := by
  have hparams : ParamList.compile? (some ⟨[.required "a" {}, .optional "b" (.localVar "a") {},
      .rest (some "c") {}], {}⟩) true = .ok [⟨.arrayShift, {}⟩, ⟨.localSet "a" true, {}⟩,
        ⟨.arrayIsEmpty, {}⟩, ⟨.ifTrue, {}⟩, ⟨.localGet "a", {}⟩, ⟨.orElse, {}⟩, ⟨.arrayShift, {}⟩,
        ⟨.endIf, {}⟩, ⟨.localSet "b" true, {}⟩, ⟨.dup, {}⟩, ⟨.localSet "c" true, {}⟩,
        ⟨.pop, {}⟩] := by
    cbv
  have htargets : TargetList.compile
      ⟨[.var .ofScope "a" {}, .splat (some (.var .ofScope "b" {})) {}], {}⟩ =
        .ok [⟨.arrayShift, {}⟩, ⟨.localSet "a" false, {}⟩, ⟨.dup, {}⟩, ⟨.localSet "b" false, {}⟩,
          ⟨.pop, {}⟩] := by
    cbv
  exact ⟨⟨_, hparams, compiled_streams_safe.1 _ _ _ hparams _⟩,
    ⟨_, htargets, compiled_streams_safe.2 _ _ htargets _⟩⟩

end Formals
