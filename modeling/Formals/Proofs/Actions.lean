import Formals.Binding.Lowering
import Formals.Binding.Window
import Formals.Proofs.Blocks

/-!
# Actions and the streams that realize them

An `Act` is what a piece of code does, without the stack: it works on an environment, and it keeps a
record of the defaults that were evaluated. `Realizes code before act after` says that a stream does
what an action does: it finds the values `before` on top of the stack and leaves the values `after`
in their place, whatever lies below, and it fails when and as the action fails. Every instruction
that it executes is `Ready`: it finds what it works on.

`Realizes.seq` and `Realizes.ifElse` put streams together, and `Realizes.defaultFirst` and
`Realizes.defaultLast` are about the blocks in which a default stands.
-/

namespace Formals

open Machine

/-! ## Actions -/

/-- A default that was evaluated: the parameter, its default and the value of that. -/
structure Evaluated where
  name : String
  default : Expr
  value : Value

/-- An environment and the defaults that were evaluated on the way to it, the last one first. -/
structure Trail extends Env where
  defaults : List Evaluated := []

/-- What a piece of code does, without the stack. -/
abbrev Act := EStateM RuntimeError Trail

/-- The machine in an environment with a given stack. -/
def Trail.machine (t : Trail) (stack : List Value) (argc : UInt32) : Machine :=
  ⟨t.toEnv, stack, argc⟩

namespace Act

variable {α : Type}

/-- Looks at the environment. -/
def read (f : Env → Except RuntimeError α) : Act α := fun t =>
  match f t.toEnv with
  | .ok a => .ok a t
  | .error e => .error e t

/-- Changes the environment. -/
def change (f : Env → α × Env) : Act α := fun t =>
  .ok (f t.toEnv).1 { t with toEnv := (f t.toEnv).2 }

/-- Looks at the heap. -/
def inspect (f : Heap → Except RuntimeError α) : Act α := read fun env => f env.heap

/-- Changes the heap. -/
def update (f : Heap → α × Heap) : Act α := change fun env =>
  ((f env.heap).1, { env with heap := (f env.heap).2 })

/-- Records a default. -/
def note (e : Evaluated) : Act Unit := fun t => .ok () { t with defaults := e :: t.defaults }

/-- Allocates an array. -/
def newArray (items : List Value) : Act Nat := update fun h => (h.arrays.size, (h.newArray items).2)

/-- Allocates a hash. -/
def newHash (entries : Entries Key Value) : Act Nat := update fun h =>
  (h.hashes.size, (h.newHash entries).2)

/-- Takes the value at an end of an array. -/
def take (side : Side) (q : Nat) : Act Value := update fun h =>
  match side with
  | .left => ((h.arrayAt q).headD .nil, h.setArray q (h.arrayAt q).tail)
  | .right => ((h.arrayAt q).getLastD .nil, h.setArray q (h.arrayAt q).dropLast)

/-- Whether an array is empty. -/
def isEmpty (q : Nat) : Act Bool := inspect fun h => .ok (h.arrayAt q).isEmpty

/-- The elements that a value is taken apart into. -/
def elements (v : Value) : Act (List Value) := inspect v.elements

/-- Moves the keyword hash out of an array. -/
def stage (q : Nat) : Act Nat := update fun h =>
  match stagedHash? h (h.arrayAt q) with
  | some entries =>
    (h.hashes.size, ((h.setArray q (h.arrayAt q).dropLast).newHash entries).2)
  | none => (h.hashes.size, (h.newHash []).2)

/-- Whether a hash has a keyword. -/
def hasKeyword (k : Nat) (name : String) : Act Bool := inspect fun h =>
  .ok ((h.hashAt k).contains (.sym name))

/-- Takes a keyword out of a hash. -/
def takeKeyword (k : Nat) (name : String) : Act Value := fun t =>
  match (t.heap.hashAt k).get? (.sym name) with
  | some v => .ok v
      { t with heap := t.heap.setHash k ((t.heap.hashAt k).erase (.sym name)) }
  | none => .error (.missingKeyword name) t

/-- Checks that no keyword is left in a hash. -/
def checkKeywords (k : Nat) : Act Unit := inspect fun h =>
  if (h.hashAt k).isEmpty then .ok ()
  else .error (.unknownKeywords ((h.hashAt k).keys.map keyName))

/-- The value of a local variable. -/
def getLocal (name : String) : Act Value := read fun env =>
  match env.local? name with
  | some v => .ok v
  | none => .error (.undefinedVariable name)

/-- The value of an instance variable of `self`. -/
def getInstance (name : String) : Act Value := read fun env =>
  match env.selfValue with
  | .object handle => .ok (((env.heap.objectAt handle).ivars.get? name).getD .nil)
  | _ => .ok .nil

/-- The value of a global variable. -/
def getGlobal (name : String) : Act Value := read fun env => .ok ((env.global? name).getD .nil)

/-- The value of `self`. -/
def getSelf : Act Value := read fun env => .ok env.selfValue

/-- Sets a local variable. -/
def setLocal (name : String) (v : Value) (localOnly : Bool) : Act Unit := change fun env =>
  ((), env.setLocal name v localOnly)

/-- Sets an instance variable of `self`. -/
def setInstance (name : String) (v : Value) : Act Unit := fun t =>
  match t.selfValue with
  | .object handle => .ok () { t with heap := t.heap.setVariable handle name v }
  | other => .error (.typeError (.withoutVariables (other.className t.heap))) t

/-- Sets a global variable. -/
def setGlobal (name : String) (v : Value) : Act Unit := change fun env =>
  ((), { env with globals := env.globals.insert name v })

/-- Sends a message. -/
def send (receiver : Value) (message : String) (arguments : List Value) : Act Value := fun t =>
  match dispatch t.heap receiver message arguments with
  | .ok (result, heap) => .ok result { t with heap }
  | .error e => .error e t

/-- One of two actions. -/
def choose (b : Bool) (yes no : Act α) : Act α := if b then yes else no

end Act

/-! ## Realizing an action -/

/-- An instruction for arrays finds an array on top of the stack, and one for hashes a hash. -/
def Ready (i : Instruction) (m : Machine) : Prop :=
  match i.op with
  | .arrayShift | .arrayPop | .arrayIsEmpty | .stageKeywords =>
    ∃ q rest, m.stack = .array q :: rest
  | .hasKeyword _ | .takeKeyword _ | .checkKeywords => ∃ k rest, m.stack = .hash k :: rest
  | _ => True

/-- The run of `code` at position `pc` on `m` evaluates a default, which pushes its value: it gets
to the code for the default, behind which stands the assignment of the parameter. -/
def Pushes (pc : Nat) (code : Stream) (m : Machine) (e : Evaluated) : Prop :=
  ∃ front body join span localOnly back first n n',
    code = front ++ (body ++ join ++ [⟨.localSet e.name localOnly, span⟩]) ++ back ∧
      e.default.lower span = .ok body ∧
      (join = [⟨.endIf, span⟩] ∨
        join = [⟨.orElse, span⟩, ⟨.arrayShift, span⟩, ⟨.endIf, span⟩]) ∧
      Executes pc code m (pc + front.length, first) n ∧
      exec (pc + front.length) body n = .ok () n' ∧ n'.stack = e.value :: n.stack

/-- How the run of a stream ends, when an action ends in one way: it has the same outcome, and
the values that the action leaves lie above the stack from before. -/
def EndsAs {α : Type} (pc : Nat) (code : Stream) (m : Machine) (known : List Evaluated)
    (stack : List Value) (after : α → List Value) : EStateM.Result RuntimeError Trail α → Prop
  | .ok a t => (∃ argc, exec pc code m = .ok () (t.machine (after a ++ stack) argc)) ∧
      ∀ e ∈ t.defaults, e ∈ known ∨ Pushes pc code m e
  | .error e t => e.isArgumentError ∧
      ∃ left argc, exec pc code m = .error e (t.machine (left ++ stack) argc)

/-- A stream does what an action does, on the values `before` on top of any stack, and leaves the
values `after`. -/
structure Realizes {α : Type} (code : Stream) (before : List Value) (act : Act α)
    (after : α → List Value) : Prop where
  balanced : Balanced code
  ready : ∀ {pc : Nat} {t : Trail} {stack : List Value} {argc : UInt32} {j : Nat × Instruction}
    {n : Machine}, Executes pc code (t.machine (before ++ stack) argc) j n → Ready j.2 n
  ends : ∀ (pc : Nat) (t : Trail) (stack : List Value) (argc : UInt32),
    EndsAs pc code (t.machine (before ++ stack) argc) t.defaults stack after (act t)

/-- A run that is the same, and evaluates what the other one does, ends as that one does. -/
theorem EndsAs.imp {α : Type} {pc pc' : Nat} {code code' : Stream} {m m' : Machine}
    {known : List Evaluated} {stack : List Value} {after : α → List Value}
    {r : EStateM.Result RuntimeError Trail α} (hrun : exec pc code m = exec pc' code' m')
    (hp : ∀ e, Pushes pc' code' m' e → Pushes pc code m e)
    (h : EndsAs pc' code' m' known stack after r) : EndsAs pc code m known stack after r := by
  cases r with
  | ok a t => exact ⟨by rw [hrun]; exact h.1, fun e he => (h.2 e he).imp_right (hp e)⟩
  | error e t => exact ⟨h.1, by rw [hrun]; exact h.2⟩

/-! ## Putting streams together -/

/-- What an earlier stream evaluates, it evaluates in front of other code too. -/
theorem Pushes.append_right {pc : Nat} {a b : Stream} {m : Machine} {e : Evaluated}
    (ha : Balanced a) (hb : Balanced b) (h : Pushes pc a m e) : Pushes pc (a ++ b) m e := by
  obtain ⟨front, body, join, span, localOnly, back, first, n, n', rfl, hl, hj, hv, hx, hs⟩ := h
  refine ⟨front, body, join, span, localOnly, back ++ b, first, n, n', ?_, hl, hj, ?_, hx, hs⟩
  · simp only [List.append_assoc]
  · exact (ha.executes_append hb).2 (.inl hv)

/-- What a later stream evaluates, it evaluates behind other code too. -/
theorem Pushes.append_left {pc : Nat} {a b : Stream} {m m' : Machine} {e : Evaluated}
    (ha : Balanced a) (hb : Balanced b) (hrun : exec pc a m = .ok () m')
    (h : Pushes (pc + a.length) b m' e) : Pushes pc (a ++ b) m e := by
  obtain ⟨front, body, join, span, localOnly, back, first, n, n', rfl, hl, hj, hv, hx, hs⟩ := h
  have hpc : pc + (a ++ front).length = pc + a.length + front.length := by
    rw [List.length_append]
    omega
  refine ⟨a ++ front, body, join, span, localOnly, back, first, n, n', ?_, hl, hj, ?_, ?_, hs⟩
  · simp only [List.append_assoc]
  · exact (ha.executes_append hb).2 (.inr ⟨(), m', hrun, by rwa [hpc]⟩)
  · rwa [hpc]

namespace Realizes

variable {α β : Type} {code code' : Stream} {before : List Value} {act : Act α}
  {after : α → List Value}

/-- No code does nothing. -/
theorem pure (after : α → List Value) (a : α) : Realizes [] (after a) (Pure.pure a) after where
  balanced := .nil
  ready h := absurd h not_visits_nil
  ends pc t stack argc := ⟨⟨argc, by rw [exec_nil]; rfl⟩, fun _ h => .inl h⟩

/-- The run of a stream that realizes an action that ends well. -/
theorem exec_ok (h : Realizes code before act after) {t t' : Trail} {a : α} (ha : act t = .ok a t')
    (pc : Nat) (stack : List Value) (argc : UInt32) :
    ∃ argc', exec pc code (t.machine (before ++ stack) argc) =
      .ok () (t'.machine (after a ++ stack) argc') := by
  have := h.ends pc t stack argc
  rw [ha] at this
  exact this.1

/-- What the run of a stream evaluates that realizes an action. -/
theorem pushes (h : Realizes code before act after) {t t' : Trail} {a : α} (ha : act t = .ok a t')
    (pc : Nat) (stack : List Value) (argc : UInt32) :
    ∀ e ∈ t'.defaults, e ∈ t.defaults ∨ Pushes pc code (t.machine (before ++ stack) argc) e := by
  have := h.ends pc t stack argc
  rw [ha] at this
  exact this.2

/-- The run of a stream that realizes an action that fails. -/
theorem exec_error (h : Realizes code before act after) {t t' : Trail} {e : RuntimeError}
    (ha : act t = .error e t') (pc : Nat) (stack : List Value) (argc : UInt32) :
    e.isArgumentError ∧ ∃ left argc', exec pc code (t.machine (before ++ stack) argc) =
      .error e (t'.machine (left ++ stack) argc') := by
  have := h.ends pc t stack argc
  rwa [ha] at this

/-- If the run of a stream ends well, then so does the action that it realizes. -/
theorem act_ok (h : Realizes code before act after) {t : Trail} {pc : Nat} {stack : List Value}
    {argc : UInt32} {m : Machine}
    (hm : exec pc code (t.machine (before ++ stack) argc) = .ok () m) :
    ∃ a t' argc', act t = .ok a t' ∧ m = t'.machine (after a ++ stack) argc' := by
  cases ha : act t with
  | ok a t' =>
    obtain ⟨argc', hx⟩ := h.exec_ok ha pc stack argc
    rw [hx] at hm
    cases hm
    exact ⟨a, t', argc', rfl, rfl⟩
  | error e t' =>
    obtain ⟨_, left, argc', hx⟩ := h.exec_error ha pc stack argc
    rw [hx] at hm
    cases hm

/-- The values found and left may be written in another way. -/
theorem cast {before' : List Value} {after' : α → List Value}
    (h : Realizes code before act after) (hb : before = before')
    (ha : ∀ a, after a = after' a) : Realizes code before' act after' := by
  subst hb
  rwa [← funext ha]

/-- The action may be written in another way. -/
theorem congr {act' : Act α} (h : Realizes code before act after) (ha : act = act') :
    Realizes code before act' after := ha ▸ h

/-- More of the stack may be counted in. -/
theorem frame (h : Realizes code before act after) (extra : List Value) :
    Realizes code (before ++ extra) act (fun a => after a ++ extra) where
  balanced := h.balanced
  ready hv := by
    rw [List.append_assoc] at hv
    exact h.ready hv
  ends pc t stack argc := by
    rw [List.append_assoc]
    have := h.ends pc t (extra ++ stack) argc
    cases ha : act t with
    | ok a t' =>
      rw [ha] at this
      obtain ⟨⟨argc', hx⟩, hp⟩ := this
      exact ⟨⟨argc', by rw [hx, List.append_assoc]⟩, hp⟩
    | error e t' =>
      rw [ha] at this
      obtain ⟨he, left, argc', hx⟩ := this
      exact ⟨he, left ++ extra, argc', by rw [hx, List.append_assoc]⟩

/-- Two streams in a row do two actions in a row, the second one on what the first can leave. -/
theorem seqOf {mid : α → List Value} {next : α → Act β} {after : β → List Value} {P : α → Prop}
    (h : Realizes code before act mid) (hP : ∀ {t t' a}, act t = .ok a t' → P a) (ha : ∃ a, P a)
    (h' : ∀ a, P a → Realizes code' (mid a) (next a) after) :
    Realizes (code ++ code') before (act >>= next) after where
  -- the second stream does not depend on what the first leaves, so one outcome shows its balance
  balanced := h.balanced.append (h' _ ha.choose_spec).balanced
  ready {pc t stack argc j n} hv := by
    rcases (h.balanced.executes_append (h' _ ha.choose_spec).balanced).1 hv with
      hv | ⟨_, m, hx, hv⟩
    · exact h.ready hv
    · obtain ⟨a, t', argc', ha', rfl⟩ := h.act_ok hx
      exact (h' a (hP ha')).ready hv
  ends pc t stack argc := by
    have hb := h.balanced
    have hb' := (h' _ ha.choose_spec).balanced
    rw [bind_apply]
    cases ha' : act t with
    | error e t' =>
      obtain ⟨he, left, argc', hx⟩ := h.exec_error ha' pc stack argc
      exact ⟨he, left, argc', by rw [hb.exec_append hb', bind_apply, hx]⟩
    | ok a t' =>
      obtain ⟨argc', hx⟩ := h.exec_ok ha' pc stack argc
      have hrun : exec pc (code ++ code') (t.machine (before ++ stack) argc) =
          exec (pc + code.length) code' (t'.machine (mid a ++ stack) argc') := by
        rw [hb.exec_append hb', bind_apply, hx]
      have hends := (h' a (hP ha')).ends (pc + code.length) t' stack argc'
      simp only
      cases hn : next a t' with
      | error e t'' =>
        rw [hn] at hends
        exact ⟨hends.1, by rw [hrun]; exact hends.2⟩
      | ok b t'' =>
        rw [hn] at hends
        refine ⟨by rw [hrun]; exact hends.1, fun e he => ?_⟩
        rcases hends.2 e he with he | he
        · rcases h.pushes ha' pc stack argc e he with he | he
          · exact .inl he
          · exact .inr (he.append_right hb hb')
        · exact .inr (he.append_left hb hb' hx)

/-- Two streams in a row do two actions in a row. -/
theorem seq [Inhabited α] {mid : α → List Value} {next : α → Act β} {after : β → List Value}
    (h : Realizes code before act mid) (h' : ∀ a, Realizes code' (mid a) (next a) after) :
    Realizes (code ++ code') before (act >>= next) after :=
  h.seqOf (fun _ => trivial) ⟨default, trivial⟩ fun a _ => h' a

/-- The result may be another one that leaves the same values. -/
theorem map (f : α → β) {after : β → List Value}
    (h : Realizes code before act (fun a => after (f a))) :
    Realizes code before (f <$> act) after where
  balanced := h.balanced
  ready := h.ready
  ends pc t stack argc := by
    have := h.ends pc t stack argc
    rw [← bind_pure_comp, bind_apply]
    cases ha : act t with
    | ok a t' =>
      rw [ha] at this
      exact this
    | error e t' =>
      rw [ha] at this
      exact this

/-- An action may give a result in the end. -/
theorem returning {act : Act Unit} {after : β → List Value} (b : β)
    (h : Realizes code before act (fun _ => after b)) :
    Realizes code before (act >>= fun _ => Pure.pure b) after := by
  rw [bind_pure_comp]
  exact h.map fun _ => b

/-- How one instruction ends, when an action ends in one way that evaluates no default. -/
def StepsAs (op : Op) (pc : Nat) (m : Machine) (known : List Evaluated) (stack : List Value)
    (after : α → List Value) : EStateM.Result RuntimeError Trail α → Prop
  | .ok a t => t.defaults = known ∧
      ∃ argc, step op pc m = .ok () (t.machine (after a ++ stack) argc)
  | .error e t => e.isArgumentError ∧
      ∃ left argc, step op pc m = .error e (t.machine (left ++ stack) argc)

/-- One instruction does what an action does that evaluates no default. -/
theorem op {i : Instruction} (hj : i.op.isJump = false)
    (hready : ∀ m stack, m.stack = before ++ stack → Ready i m)
    (hstep : ∀ pc t stack argc, StepsAs i.op pc (t.machine (before ++ stack) argc) t.defaults stack
      after (act t)) :
    Realizes [i] before act after where
  balanced := .singleton hj
  ready {pc t stack argc j n} hv := by
    obtain ⟨rfl, rfl⟩ := (executes_singleton hj).1 hv
    exact hready _ stack rfl
  ends pc t stack argc := by
    have := hstep pc t stack argc
    cases ha : act t with
    | ok a t' =>
      rw [ha] at this
      obtain ⟨hd, argc', hx⟩ := this
      exact ⟨⟨argc', by rw [exec_singleton hj, hx]⟩, fun e he => .inl (hd ▸ he)⟩
    | error e t' =>
      rw [ha] at this
      obtain ⟨he, left, argc', hx⟩ := this
      exact ⟨he, left, argc', by rw [exec_singleton hj, hx]⟩

/-! ## Blocks -/

/-- The run of a block takes the condition from the stack. -/
theorem exec_block {yes no rest : Stream} {s mid e : Span} (hy : Balanced yes) (hn : Balanced no)
    (hr : Balanced rest) (pc : Nat) (c : Value) (t : Trail) (stack : List Value) (argc : UInt32) :
    exec pc (⟨.ifTrue, s⟩ :: (yes ++ ⟨.orElse, mid⟩ :: (no ++ ⟨.endIf, e⟩ :: rest)))
        (t.machine (c :: stack) argc) =
      (branch c (exec (pc + 1) yes) (exec (pc + 1 + yes.length + 1) no) >>= fun _ =>
        exec (pc + 1 + yes.length + 1 + no.length + 1) rest) (t.machine stack argc) := by
  rw [exec_ifElse hy hn hr, bind_apply]
  rfl

/-- The trace of a block, past the condition. -/
theorem executes_block {yes no : Stream} {s mid e : Span} (hy : Balanced yes) (hn : Balanced no)
    {pc : Nat} {c : Value} {t : Trail} {stack : List Value} {argc : UInt32} {n : Machine}
    {j : Nat × Instruction} :
    Executes pc (⟨.ifTrue, s⟩ :: (yes ++ ⟨.orElse, mid⟩ :: (no ++ [⟨.endIf, e⟩])))
        (t.machine (c :: stack) argc) j n ↔
      (j = (pc, ⟨.ifTrue, s⟩) ∧ n = t.machine (c :: stack) argc) ∨ (if c.isTruthy
        then arm j n (Executes (pc + 1) yes · j n) (exec (pc + 1) yes)
          (pc + 1 + yes.length, ⟨.orElse, mid⟩) (fun _ => False)
        else arm j n (Executes (pc + 1 + yes.length + 1) no · j n)
          (exec (pc + 1 + yes.length + 1) no)
          (pc + 1 + yes.length + 1 + no.length, ⟨.endIf, e⟩) (fun _ => False))
        (t.machine stack argc) := by
  rw [executes_ifElse hy hn]
  refine or_congr_right ⟨?_, fun h => ⟨c, t.machine stack argc, rfl, h⟩⟩
  rintro ⟨_, _, h, hv⟩
  cases h
  exact hv

section

variable {yes no : Stream} {s mid last : Span} {c : Value} {t : Trail} {stack : List Value}
  {argc : UInt32} {pc : Nat} {e : Evaluated}

/-- What the first part of a block evaluates, the block evaluates. -/
theorem pushes_yes (hy : Balanced yes) (hn : Balanced no) (hc : c.isTruthy)
    (h : Pushes (pc + 1) yes (t.machine stack argc) e) :
    Pushes pc (⟨.ifTrue, s⟩ :: (yes ++ ⟨.orElse, mid⟩ :: (no ++ [⟨.endIf, last⟩])))
      (t.machine (c :: stack) argc) e := by
  obtain ⟨front, body, join, span, localOnly, back, first, n, n', rfl, hl, hj, hv, hx, hs⟩ := h
  have hpc : pc + (⟨.ifTrue, s⟩ :: front : Stream).length = pc + 1 + front.length := by
    rw [List.length_cons]
    omega
  refine ⟨⟨.ifTrue, s⟩ :: front, body, join, span, localOnly,
    back ++ ⟨.orElse, mid⟩ :: (no ++ [⟨.endIf, last⟩]), first, n, n', ?_, hl, hj, ?_, ?_, hs⟩
  · simp only [List.append_assoc, List.cons_append]
  · rw [executes_block hy hn, if_pos hc, hpc]
    exact .inr (.inl hv)
  · rwa [hpc]

/-- What the second part of a block evaluates, the block evaluates. -/
theorem pushes_no (hy : Balanced yes) (hn : Balanced no) (hc : ¬ c.isTruthy)
    (h : Pushes (pc + 1 + yes.length + 1) no (t.machine stack argc) e) :
    Pushes pc (⟨.ifTrue, s⟩ :: (yes ++ ⟨.orElse, mid⟩ :: (no ++ [⟨.endIf, last⟩])))
      (t.machine (c :: stack) argc) e := by
  obtain ⟨front, body, join, span, localOnly, back, first, n, n', rfl, hl, hj, hv, hx, hs⟩ := h
  have hpc : pc + (⟨.ifTrue, s⟩ :: (yes ++ ⟨.orElse, mid⟩ :: front) : Stream).length =
      pc + 1 + yes.length + 1 + front.length := by
    simp only [List.length_cons, List.length_append]
    omega
  refine ⟨⟨.ifTrue, s⟩ :: (yes ++ ⟨.orElse, mid⟩ :: front), body, join, span, localOnly,
    back ++ [⟨.endIf, last⟩], first, n, n', ?_, hl, hj, ?_, ?_, hs⟩
  · simp only [List.append_assoc, List.cons_append]
  · rw [executes_block hy hn, if_neg hc, hpc]
    exact .inr (.inl hv)
  · rwa [hpc]

end

/-- A block does one of two actions. -/
theorem ifElse {yes no : Stream} {other : Act α} (s mid e : Span) (c : Value)
    (hy : Realizes yes before act after) (hn : Realizes no before other after) :
    Realizes (⟨.ifTrue, s⟩ :: (yes ++ ⟨.orElse, mid⟩ :: (no ++ [⟨.endIf, e⟩]))) (c :: before)
      (if c.isTruthy then act else other) after where
  balanced := .ifElse hy.balanced hn.balanced .nil
  ready {pc t stack argc j n} hv := by
    rw [List.cons_append, executes_block hy.balanced hn.balanced] at hv
    rcases hv with ⟨rfl, -⟩ | hv
    · trivial
    · split at hv
      · rcases hv with hv | ⟨_, _, -, ⟨rfl, -⟩ | hf⟩
        · exact hy.ready hv
        · trivial
        · exact hf.elim
      · rcases hv with hv | ⟨_, _, -, ⟨rfl, -⟩ | hf⟩
        · exact hn.ready hv
        · trivial
        · exact hf.elim
  ends pc t stack argc := by
    have hb := hy.balanced
    have hb' := hn.balanced
    by_cases hc : c.isTruthy
    · refine .imp ?_ (fun _ => pushes_yes hb hb' hc) (if_pos hc ▸ hy.ends (pc + 1) t stack argc)
      rw [List.cons_append, exec_block hb hb' .nil, branch, if_pos hc]
      simp only [exec_nil, bind_pure_unit]
      rfl
    · refine .imp ?_ (fun _ => pushes_no hb hb' hc) (if_neg hc ▸ hn.ends _ t stack argc)
      rw [List.cons_append, exec_block hb hb' .nil, branch, if_neg hc]
      simp only [exec_nil, bind_pure_unit]
      rfl

/-! ## Defaults -/

/-- Setting a local variable. -/
theorem localSet (name : String) (localOnly : Bool) (span : Span) (v : Value) :
    Realizes [⟨.localSet name localOnly, span⟩] [v] (Act.setLocal name v localOnly)
      (fun _ => []) :=
  .op rfl (fun _ _ _ => trivial) fun _ _ _ argc => ⟨rfl, argc, rfl⟩

/-- A default may be recorded, before its value is assigned, by code that evaluates it. -/
theorem noting {act : Act Value} {after : Unit → List Value} {name : String} {default : Expr}
    {localOnly : Bool}
    (h : Realizes code before (act >>= fun v => Act.setLocal name v localOnly) after)
    (hp : ∀ {t t' : Trail} {v : Value}, act t = .ok v t' → ∀ pc stack argc,
      Pushes pc code (t.machine (before ++ stack) argc) ⟨name, default, v⟩) :
    Realizes code before ((do
      let v ← act
      Act.note ⟨name, default, v⟩
      return v) >>= fun v => Act.setLocal name v localOnly) after where
  balanced := h.balanced
  ready := h.ready
  ends pc t stack argc := by
    have hends := h.ends pc t stack argc
    rw [bind_apply, bind_apply]
    rw [bind_apply] at hends
    cases ha : act t with
    | error e t' =>
      rw [ha] at hends
      exact hends
    | ok v t' =>
      rw [ha] at hends
      refine ⟨hends.1, fun e he => ?_⟩
      rcases List.mem_cons.1 he with rfl | he
      · exact .inr (hp ha pc stack argc)
      · exact hends.2 e he

@[simp] theorem isTruthy_bool (b : Bool) : (Value.bool b).isTruthy = b := by cases b <;> rfl

/-- A stream that pushes a value has an instruction. -/
theorem ne_nil {act : Act Value} (h : Realizes code before act (· :: before)) {t t' : Trail}
    {v : Value} (ha : act t = .ok v t') : ∃ i rest, code = i :: rest := by
  cases code with
  | cons i rest => exact ⟨i, rest, rfl⟩
  | nil =>
    obtain ⟨argc', hx⟩ := h.exec_ok ha 0 [] 0
    rw [exec_nil] at hx
    have hlen : before ++ [] = v :: before ++ [] :=
      congrArg Machine.stack (EStateM.Result.ok.inj hx).2
    have := congrArg List.length hlen
    simp at this

variable {body : Stream} {eval other : Act Value} {default : Expr} {span : Span}

/-- The block of an optional parameter, whose default comes first, and the assignment. -/
theorem defaultFirst (name : String) (localOnly b : Bool) (hl : default.lower span = .ok body)
    (hbody : Realizes body before eval (· :: before))
    (hother : Realizes [⟨.arrayShift, span⟩] before other (· :: before)) :
    Realizes (⟨.ifTrue, span⟩ :: (body ++ ⟨.orElse, span⟩ :: ([⟨.arrayShift, span⟩] ++
        [⟨.endIf, span⟩])) ++ [⟨.localSet name localOnly, span⟩]) (.bool b :: before)
      (Act.choose b (do
          let v ← eval
          Act.note ⟨name, default, v⟩
          return v) other >>= fun v => Act.setLocal name v localOnly)
      (fun _ => before) := by
  have hset := fun v => (localSet name localOnly span v).frame before
  have hplain := (ifElse span span span (.bool b) hbody hother).seq hset
  rw [isTruthy_bool] at hplain
  unfold Act.choose
  by_cases hc : b = true
  · rw [if_pos hc] at hplain ⊢
    refine hplain.noting fun {t t' v} ha pc stack argc => ?_
    obtain ⟨i, rest, rfl⟩ := hbody.ne_nil ha
    obtain ⟨argc', hx⟩ := hbody.exec_ok ha (pc + 1) stack argc
    refine ⟨[⟨.ifTrue, span⟩], i :: rest, _, span, localOnly, [], i, _, _, ?_, hl, .inr rfl, ?_,
      hx, rfl⟩
    · simp
    · refine ((ifElse _ _ _ (.bool b) hbody hother).balanced.executes_append (hset v).balanced).2
        (.inl ((executes_block hbody.balanced hother.balanced).2 (.inr ?_)))
      rw [isTruthy_bool, if_pos hc]
      exact .inl .here
  · rw [if_neg hc] at hplain ⊢
    exact hplain

/-- The block of a keyword parameter, whose default comes last, and the assignment. -/
theorem defaultLast (name : String) (localOnly b : Bool) (hl : default.lower span = .ok body)
    (hbody : Realizes body before eval (· :: before))
    {i : Instruction} (hother : Realizes [i] before other (· :: before)) :
    Realizes (⟨.ifTrue, span⟩ :: ([i] ++ ⟨.orElse, span⟩ :: (body ++ [⟨.endIf, span⟩])) ++
        [⟨.localSet name localOnly, span⟩]) (.bool b :: before)
      (Act.choose b other (do
          let v ← eval
          Act.note ⟨name, default, v⟩
          return v) >>= fun v => Act.setLocal name v localOnly)
      (fun _ => before) := by
  have hset := fun v => (localSet name localOnly span v).frame before
  have hplain := (ifElse span span span (.bool b) hother hbody).seq hset
  rw [isTruthy_bool] at hplain
  unfold Act.choose
  by_cases hc : b = true
  · rw [if_pos hc] at hplain ⊢
    exact hplain
  · rw [if_neg hc] at hplain ⊢
    refine hplain.noting fun {t t' v} ha pc stack argc => ?_
    obtain ⟨first, rest, rfl⟩ := hbody.ne_nil ha
    obtain ⟨argc', hx⟩ := hbody.exec_ok ha (pc + 1 + 1 + 1) stack argc
    refine ⟨[⟨.ifTrue, span⟩, i, ⟨.orElse, span⟩], first :: rest, _, span, localOnly, [], first,
      _, _, ?_, hl, .inl rfl, ?_, hx, rfl⟩
    · simp
    · refine ((ifElse _ _ _ (.bool b) hother hbody).balanced.executes_append (hset v).balanced).2
        (.inl ((executes_block hother.balanced hbody.balanced).2 (.inr ?_)))
      rw [isTruthy_bool, if_neg hc]
      exact .inl .here

end Realizes

end Formals
