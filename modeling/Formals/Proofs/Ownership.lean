import Formals.Proofs.Blocks
import Formals.Proofs.Frames

/-!
# Which cells a stream owns

Several instructions change the array or the hash on top of the stack in place. An `Ownership` says
what is known of a value on the stack: nothing, or that it is an array or a hash that was made after
a certain heap, and so may be changed. `Typed code before after` is a discipline for streams: an
instruction that changes a cell finds one of those, and only those are shared by `dup`, except where
the copy is taken apart at once. A run of a typed stream leaves the older arrays and hashes alone,
whether it ends well or fails (`Typed.ends`), and what it shares is new (`Typed.shares`).
-/

namespace Formals

open Machine

/-! ## Ownership -/

/-- What is known of a value on the stack. -/
inductive Ownership where
  | any
  /-- An array that is new. -/
  | array
  /-- A hash that is new. -/
  | hash

namespace Ownership

/-- A value is what a slot says of it. -/
def Holds (base : Heap) : Ownership → Value → Prop
  | any, _ => True
  | array, v => ∃ a, v = .array a ∧ base.arrays.size ≤ a
  | hash, v => ∃ k, v = .hash k ∧ base.hashes.size ≤ k

end Ownership

/-- The values on top of a stack are what some slots say of them. -/
inductive Fits (base : Heap) : List Ownership → List Value → Prop
  | nil {stack : List Value} : Fits base [] stack
  | cons {slot : Ownership} {slots : List Ownership} {v : Value} {stack : List Value} :
      slot.Holds base v → Fits base slots stack → Fits base (slot :: slots) (v :: stack)

/-- The values below the first ones. -/
theorem Fits.drop {base : Heap} {front slots : List Ownership} {stack : List Value}
    (h : Fits base (front ++ slots) stack) : Fits base slots (stack.drop front.length) := by
  induction front generalizing stack with
  | nil => exact h
  | cons slot front ih =>
    cases h with
    | cons _ h => exact ih h

/-! ## Typed streams -/

/-- An instruction that only pushes a value. -/
def Op.pushes : Op → Bool
  | .pushNil | .pushTrue | .pushFalse | .pushInt _ | .pushString _ | .pushSymbol _ | .pushSelf
  | .localGet _ | .instanceGet _ | .globalGet _ => true
  | _ => false

/-- An instruction that takes a value off the stack and leaves none. -/
def Op.drops : Op → Bool
  | .localSet .. | .instanceSet _ | .globalSet _ | .pop => true
  | _ => false

/-- An instruction that looks at the array on top of the stack, or takes an element out of it. -/
def Op.takes : Op → Bool
  | .arrayShift | .arrayPop | .arrayIsEmpty => true
  | _ => false

/-- What an instruction makes of the slots on the stack. -/
inductive Op.Types : Op → List Ownership → List Ownership → Prop
  | push {op : Op} {slots : List Ownership} : op.pushes = true → Types op slots (.any :: slots)
  | drop {op : Op} {slot : Ownership} {slots : List Ownership} : op.drops = true →
    Types op (slot :: slots) slots
  | createArray {count : UInt32} {items slots : List Ownership} : items.length = count.toNat →
    Types (.createArray count) (items ++ slots) (.any :: slots)
  | createHash {count : UInt32} {items slots : List Ownership} : items.length = 2 * count.toNat →
    Types (.createHash count) (items ++ slots) (.any :: slots)
  | dup {slot : Ownership} {slots : List Ownership} : slot ≠ .any →
    Types .dup (slot :: slots) (slot :: slot :: slots)
  | take {op : Op} {slots : List Ownership} : op.takes = true →
    Types op (.array :: slots) (.any :: .array :: slots)
  | toArray {slot : Ownership} {slots : List Ownership} :
      Types .toArray (slot :: slots) (.array :: slots)
  | stageKeywords {slots : List Ownership} :
    Types .stageKeywords (.array :: slots) (.hash :: .array :: slots)
  | hasKeyword {name : String} {slots : List Ownership} :
    Types (.hasKeyword name) (.hash :: slots) (.any :: .hash :: slots)
  | takeKeyword {name : String} {slots : List Ownership} :
    Types (.takeKeyword name) (.hash :: slots) (.any :: .hash :: slots)
  | checkKeywords {slots : List Ownership} : Types .checkKeywords (.hash :: slots) (.hash :: slots)

/-- A stream makes slots of slots, and changes or shares new cells only. -/
inductive Typed : Stream → List Ownership → List Ownership → Prop
  | nil {slots : List Ownership} : Typed [] slots slots
  | op {i : Instruction} {before after : List Ownership} : i.op.Types before after →
    Typed [i] before after
  /-- A copy of any value may be taken apart. -/
  | copy {s s' : Span} {slot : Ownership} {slots : List Ownership} :
    Typed [⟨.dup, s⟩, ⟨.toArray, s'⟩] (slot :: slots) (.array :: slot :: slots)
  | send {s s' : Span} {count : UInt32} {message : String} {toSelf isWriter : Bool}
    {receiver : Ownership} {arguments slots : List Ownership} : arguments.length = count.toNat →
    Typed [⟨.setArgc count, s⟩, ⟨.send message toSelf isWriter, s'⟩]
      (receiver :: (arguments ++ slots)) (.any :: slots)
  | append {a b : Stream} {before mid after : List Ownership} : Typed a before mid →
    Typed b mid after → Typed (a ++ b) before after
  | ifElse {yes no : Stream} {s m e : Span} {slot : Ownership} {before after : List Ownership} :
    Typed yes before after → Typed no before after →
    Typed (⟨.ifTrue, s⟩ :: (yes ++ ⟨.orElse, m⟩ :: (no ++ [⟨.endIf, e⟩]))) (slot :: before) after

/-- An operation with a type is no jump: jumps are typed with their blocks. -/
theorem Op.Types.isJump {op : Op} {before after : List Ownership} (h : op.Types before after) :
    op.isJump = false := by
  cases h with
  | push h | drop h | take h => cases op <;> first | rfl | cases h
  | _ => rfl

/-- One instruction before others. -/
theorem Typed.cons {i : Instruction} {code : Stream} {before mid after : List Ownership}
    (h : i.op.Types before mid) (hcode : Typed code mid after) : Typed (i :: code) before after :=
  .append (.op h) hcode

/-- Typed code has all its blocks closed. -/
theorem Typed.balanced {code : Stream} {before after : List Ownership}
    (h : Typed code before after) : Balanced code := by
  induction h with
  | nil => exact .nil
  | op h => exact .singleton h.isJump
  | copy | send => exact .op rfl (.singleton rfl)
  | append _ _ ha hb => exact ha.append hb
  | ifElse _ _ hy hn => exact .ifElse hy hn .nil

/-! ## What instructions write -/

/-- An instruction can write an instance variable of an object: an instruction for instance
variables writes one of `self`, and the message of a writer one of the object that it is sent to. -/
def Op.Writes (op : Op) (self : Value) (o : Nat) (x : String) : Prop :=
  match op with
  | .instanceSet name => self = .object o ∧ x = name
  | .send message _ _ => ∃ name, writtenAttribute? message = some name ∧ x = "@" ++ name
  | _ => False

/-- From one environment to another, no array and no hash of a heap changes, `self` stays, and of
the objects only some instance variables change. -/
structure Leaves (base : Heap) (writes : Nat → String → Prop) (env env' : Env) : Prop where
  self : env'.selfValue = env.selfValue
  cells : env.heap.Keeps (· < base.arrays.size) (· < base.hashes.size) env'.heap
  objects : env'.heap.objects.size = env.heap.objects.size
  className : ∀ o, (env'.heap.objectAt o).className = (env.heap.objectAt o).className
  ivars : ∀ o x, ¬ writes o x →
    (env'.heap.objectAt o).ivars.get? x = (env.heap.objectAt o).ivars.get? x

namespace Leaves

variable {base : Heap} {writes : Nat → String → Prop} {env env' env'' : Env}

/-- Two runs in a row leave alone what both of them leave alone. -/
theorem trans (a : Leaves base writes env env') (b : Leaves base writes env' env'') :
    Leaves base writes env env'' where
  self := b.self.trans a.self
  cells := a.cells.trans b.cells
  objects := b.objects.trans a.objects
  className o := (b.className o).trans (a.className o)
  ivars o x h := (b.ivars o x h).trans (a.ivars o x h)

/-- A change of the arrays and hashes. -/
theorem of_cells (hself : env'.selfValue = env.selfValue)
    (hcells : env.heap.Keeps (· < base.arrays.size) (· < base.hashes.size) env'.heap)
    (hobjects : env'.heap.objects = env.heap.objects) : Leaves base writes env env' where
  self := hself
  cells := hcells
  objects := congrArg Array.size hobjects
  className o := by rw [Heap.objectAt, Heap.objectAt, hobjects]
  ivars o x _ := by rw [Heap.objectAt, Heap.objectAt, hobjects]

/-- No change of the heap. -/
theorem of_heap (hself : env'.selfValue = env.selfValue) (hheap : env'.heap = env.heap) :
    Leaves base writes env env' :=
  of_cells hself (hheap ▸ .refl _) (by rw [hheap])

/-- Doing nothing leaves everything alone. -/
theorem refl : Leaves base writes env env := of_heap rfl rfl

/-- A change of an instance variable that may change. -/
theorem setVariable {handle : Nat} {name : String} {v : Value}
    (hself : env'.selfValue = env.selfValue)
    (hheap : env'.heap = env.heap.setVariable handle name v) (hw : writes handle name) :
    Leaves base writes env env' := by
  obtain ⟨hclass, hivars⟩ := forall_and.1 fun o => env.heap.objectAt_setVariable handle name v o
  refine ⟨hself, ?_, ?_, fun o => ?_, fun o x hx => ?_⟩ <;> rw [hheap]
  · exact (Heap.grows_setVariable ..).keeps
  · exact Array.size_setIfInBounds
  · exact hclass o
  · exact hivars o x fun ⟨ho, hx'⟩ => hx (ho ▸ hx' ▸ hw)

end Leaves

/-! ## What one instruction leaves alone -/

/-- A machine has on its stack what some slots say, and none of the cells of a heap is gone. -/
structure Owns (base : Heap) (slots : List Ownership) (m : Machine) : Prop where
  arrays_le : base.arrays.size ≤ m.heap.arrays.size
  hashes_le : base.hashes.size ≤ m.heap.hashes.size
  fits : Fits base slots m.stack

/-- How a run ends that leaves a heap alone: on success it leaves what some slots say. -/
def EndsOwning (base : Heap) (writes : Nat → String → Prop) (slots : List Ownership) (m : Machine) :
    EStateM.Result RuntimeError Machine Unit → Prop
  | .ok _ m' => Leaves base writes m.toEnv m'.toEnv ∧ Fits base slots m'.stack
  | .error _ m' => Leaves base writes m.toEnv m'.toEnv

section

variable {base : Heap} {writes : Nat → String → Prop} {before after slots : List Ownership}
  {m : Machine} {op : Op} (pc : Nat)

/-- What a run leaves behind is owned if it leaves the heap alone and fits its slots. -/
theorem Owns.of_leaves {m' : Machine} (h : Owns base before m)
    (hl : Leaves base writes m.toEnv m'.toEnv) (hf : Fits base after m'.stack) :
    Owns base after m' :=
  ⟨Nat.le_trans h.arrays_le hl.cells.arrays_le, Nat.le_trans h.hashes_le hl.cells.hashes_le, hf⟩

/-- The top of a stack that is not empty can be popped. -/
theorem Machine.pop_eq_ok (m : Machine) {v : Value} {rest : List Value} (h : m.stack = v :: rest)
    (pc : Nat) : Machine.pop pc m = .ok v { m with stack := rest } := by
  simp only [Machine.pop, bind_apply, get_apply, h]
  rfl

/-- What is below the value on top of the stack. -/
theorem Owns.pop {slot : Ownership} (h : Owns base (slot :: slots) m) :
    ∃ v rest, m.stack = v :: rest ∧ Owns base slots { m with stack := rest } := by
  obtain ⟨harrays, hhashes, hf⟩ := h
  generalize hstack : m.stack = stack at hf
  cases hf with
  | cons _ hf => exact ⟨_, _, rfl, harrays, hhashes, hf⟩

/-- What is left alone from a machine on is left alone from an earlier one on. -/
theorem EndsOwning.from_leaves {m' : Machine} {r : EStateM.Result RuntimeError Machine Unit}
    (hl : Leaves base writes m.toEnv m'.toEnv) (h : EndsOwning base writes slots m' r) :
    EndsOwning base writes slots m r := by
  cases r with
  | ok u m'' => exact ⟨hl.trans h.1, h.2⟩
  | error e m'' => exact hl.trans h

/-- A run in two parts. -/
theorem EndsOwning.bind {x : Exec Unit} {f : Unit → Exec Unit} {mid : List Ownership}
    (hm : Owns base before m) (hx : EndsOwning base writes mid m (x m))
    (hf : ∀ m', x m = .ok () m' → m'.selfValue = m.selfValue → Owns base mid m' →
      EndsOwning base writes after m' (f () m')) :
    EndsOwning base writes after m ((x >>= f) m) := by
  rw [bind_apply]
  cases hr : x m with
  | error e m' => rwa [hr] at hx
  | ok u m' =>
    rw [hr] at hx
    exact EndsOwning.from_leaves hx.1 (hf m' hr hx.1.self (hm.of_leaves hx.1 hx.2))

/-- Some values are popped, or there are too few. -/
theorem popMany_cases (n : Nat) (m : Machine) :
    popMany n pc m = .ok (m.stack.take n).reverse { m with stack := m.stack.drop n } ∨
      ∃ e, popMany n pc m = .error e m := by
  simp only [popMany, bind_apply, get_apply]
  split
  · exact .inr ⟨_, rfl⟩
  · exact .inl rfl

/-- An instruction that only pushes a value. -/
theorem step_pushes (h : op.pushes = true) (m : Machine) :
    (∃ v, step op pc m = .ok () { m with stack := v :: m.stack }) ∨
      ∃ e, step op pc m = .error e m := by
  cases op with
  | localGet name =>
    simp only [step, bind_apply, get_apply]
    cases m.local? name with
    | some v => exact .inl ⟨v, rfl⟩
    | none => exact .inr ⟨_, rfl⟩
  | instanceGet name =>
    simp only [step, bind_apply, get_apply]
    cases m.selfValue <;> exact .inl ⟨_, rfl⟩
  | pushNil | pushTrue | pushFalse | pushInt | pushString | pushSymbol | pushSelf | globalGet =>
    exact .inl ⟨_, rfl⟩
  | _ => cases h

/-- A copy of the value on top of the stack. -/
theorem dup_ends {slot : Ownership} (hm : Owns base (slot :: slots) m) :
    EndsOwning base writes (slot :: slot :: slots) m (step .dup pc m) := by
  obtain ⟨env, stack, argc⟩ := m
  cases hm.fits with
  | cons hv hf => exact ⟨.of_heap rfl rfl, .cons hv (.cons hv hf)⟩

/-- An array literal takes its elements off the stack and makes a new array. -/
theorem createArray_ends {count : UInt32} {items : List Ownership} (hn : items.length = count.toNat)
    (hf : Fits base (items ++ slots) m.stack) :
    EndsOwning base writes (.any :: slots) m (step (.createArray count) pc m) := by
  rw [step, bind_apply]
  rcases popMany_cases pc count.toNat m with hp | ⟨e, hp⟩ <;> rw [hp]
  · exact ⟨.of_cells rfl (Heap.grows_newArray ..).keeps rfl, .cons trivial (hn ▸ hf.drop)⟩
  · exact .refl

/-- A hash literal takes its keys and values off the stack and makes a new hash. -/
theorem createHash_ends {count : UInt32} {items : List Ownership}
    (hn : items.length = 2 * count.toNat) (hf : Fits base (items ++ slots) m.stack) :
    EndsOwning base writes (.any :: slots) m (step (.createHash count) pc m) := by
  rw [step, bind_apply]
  rcases popMany_cases pc (2 * count.toNat) m with hp | ⟨e, hp⟩ <;> rw [hp]
  · simp only [bind_apply, get_apply]
    cases entriesOf m.heap [] (m.stack.take (2 * count.toNat)).reverse with
    | ok entries =>
      exact ⟨.of_cells rfl (Heap.grows_newHash ..).keeps rfl, .cons trivial (hn ▸ hf.drop)⟩
    | error e => exact .of_heap rfl rfl
  · exact .refl

/-- Taking a value apart makes a new array. -/
theorem toArray_ends {v : Value} {env : Env} {stack : List Value} {argc : UInt32}
    (harrays : base.arrays.size ≤ env.heap.arrays.size) (hf : Fits base slots stack) :
    EndsOwning base writes (.array :: slots) ⟨env, v :: stack, argc⟩
      (step .toArray pc ⟨env, v :: stack, argc⟩) := by
  have hpop : Machine.pop pc ⟨env, v :: stack, argc⟩ = .ok v ⟨env, stack, argc⟩ := rfl
  simp only [step, bind_apply, hpop, get_apply]
  cases v.elements env.heap with
  | ok items =>
    exact ⟨.of_cells rfl (Heap.grows_newArray ..).keeps rfl, .cons ⟨_, rfl, harrays⟩ hf⟩
  | error e => exact .of_heap rfl rfl

/-- An instruction that takes a value off the stack. -/
theorem step_drops (h : op.drops = true) {v : Value} {env : Env} {stack : List Value}
    {argc : UInt32}
    (hw : ∀ o x, op.Writes env.selfValue o x → writes o x) (hf : Fits base slots stack) :
    EndsOwning base writes slots ⟨env, v :: stack, argc⟩ (step op pc ⟨env, v :: stack, argc⟩) := by
  cases op with
  | pop => exact ⟨.of_heap rfl rfl, hf⟩
  | globalSet name => exact ⟨.of_heap rfl rfl, hf⟩
  | localSet name localOnly =>
    exact ⟨.of_heap (env.selfValue_setLocal name v localOnly)
      (env.heap_setLocal name v localOnly), hf⟩
  | instanceSet name =>
    obtain ⟨heap, scope, outer, globals, selfValue⟩ := env
    cases selfValue with
    | object o => exact ⟨.setVariable rfl rfl (hw o name ⟨rfl, rfl⟩), hf⟩
    | _ => exact Leaves.of_heap rfl rfl
  | _ => cases h

/-- A change of a new array leaves the others alone. -/
theorem keeps_setArray_new {a : Nat} (ha : base.arrays.size ≤ a) (h : Heap) (items : List Value) :
    h.Keeps (· < base.arrays.size) (· < base.hashes.size) (h.setArray a items) :=
  (Heap.keeps_setArray ..).mono (fun _ _ hlt => Nat.ne_of_lt (Nat.lt_of_lt_of_le hlt ha))
    fun _ _ _ => trivial

/-- An instruction that looks at a new array, or takes an element out of it. -/
theorem step_takes (h : op.takes = true) {a : Nat} (ha : base.arrays.size ≤ a) {env : Env}
    {stack : List Value} {argc : UInt32} (hf : Fits base slots stack) :
    EndsOwning base writes (.any :: .array :: slots) ⟨env, .array a :: stack, argc⟩
      (step op pc ⟨env, .array a :: stack, argc⟩) := by
  have hslots : ∀ v, Fits base (.any :: .array :: slots) (v :: .array a :: stack) :=
    fun _ => .cons trivial (.cons ⟨a, rfl, ha⟩ hf)
  have hset := fun items => keeps_setArray_new ha env.heap items
  cases op with
  | arrayIsEmpty => exact ⟨.of_heap rfl rfl, hslots _⟩
  | arrayShift | arrayPop => exact ⟨.of_cells rfl (hset _) rfl, hslots _⟩
  | _ => cases h

/-- Moving the keyword hash out of a new array changes that array and makes a hash. -/
theorem stageKeywords_ends {a : Nat} (ha : base.arrays.size ≤ a) {env : Env} {stack : List Value}
    {argc : UInt32} (hhashes : base.hashes.size ≤ env.heap.hashes.size)
    (hf : Fits base slots stack) :
    EndsOwning base writes (.hash :: .array :: slots) ⟨env, .array a :: stack, argc⟩
      (step .stageKeywords pc ⟨env, .array a :: stack, argc⟩) := by
  have hseq : sequence pc ⟨env, .array a :: stack, argc⟩ =
      .ok a ⟨env, .array a :: stack, argc⟩ := rfl
  have hslots : Fits base (.hash :: .array :: slots)
      (.hash env.heap.hashes.size :: .array a :: stack) :=
    .cons ⟨_, rfl, hhashes⟩ (.cons ⟨a, rfl, ha⟩ hf)
  simp only [step, bind_apply, hseq, get_apply]
  cases stagedHash? env.heap (env.heap.arrayAt a) with
  | none => exact ⟨.of_cells rfl (Heap.grows_newHash ..).keeps rfl, hslots⟩
  | some entries =>
    exact ⟨.of_cells rfl ((keeps_setArray_new ha ..).trans (Heap.grows_newHash ..).keeps) rfl,
      hslots⟩

/-- Taking a keyword changes the new hash that it is in. -/
theorem takeKeyword_ends {name : String} {k : Nat} (hk : base.hashes.size ≤ k) {env : Env}
    {stack : List Value} {argc : UInt32} (hf : Fits base slots stack) :
    EndsOwning base writes (.any :: .hash :: slots) ⟨env, .hash k :: stack, argc⟩
      (step (.takeKeyword name) pc ⟨env, .hash k :: stack, argc⟩) := by
  have hkw : keywords pc ⟨env, .hash k :: stack, argc⟩ = .ok k ⟨env, .hash k :: stack, argc⟩ := rfl
  simp only [step, bind_apply, hkw, get_apply]
  cases (env.heap.hashAt k).get? (.sym name) with
  | none => exact .refl
  | some v =>
    refine ⟨.of_cells rfl ?_ rfl, .cons trivial (.cons ⟨k, rfl, hk⟩ hf)⟩
    exact (Heap.keeps_setHash ..).mono (fun _ _ _ => trivial)
      fun _ _ hlt => Nat.ne_of_lt (Nat.lt_of_lt_of_le hlt hk)

/-- What an instruction does with values of its slots, it does to new cells. -/
theorem Op.Types.ends (h : op.Types before after) (hm : Owns base before m)
    (hw : ∀ o x, op.Writes m.selfValue o x → writes o x) :
    EndsOwning base writes after m (step op pc m) := by
  obtain ⟨env, stack, argc⟩ := m
  obtain ⟨harrays, hhashes, hf⟩ := hm
  cases h with
  | push h =>
    rcases step_pushes pc h ⟨env, stack, argc⟩ with ⟨v, hs⟩ | ⟨e, hs⟩ <;> rw [hs]
    · exact ⟨.of_heap rfl rfl, .cons trivial hf⟩
    · exact .refl
  | drop h =>
    cases hf with
    | cons _ hf => exact step_drops pc h hw hf
  | take h =>
    cases hf with
    | cons ha hf =>
      obtain ⟨a, rfl, ha⟩ := ha
      exact step_takes pc h ha hf
  | dup _ => exact dup_ends pc ⟨harrays, hhashes, hf⟩
  | createArray hn => exact createArray_ends pc hn hf
  | createHash hn => exact createHash_ends pc hn hf
  | toArray =>
    cases hf with
    | cons _ hf => exact toArray_ends pc harrays hf
  | stageKeywords =>
    cases hf with
    | cons ha hf =>
      obtain ⟨a, rfl, ha⟩ := ha
      exact stageKeywords_ends pc ha hhashes hf
  | hasKeyword =>
    cases hf with
    | cons hk hf =>
      obtain ⟨k, rfl, hk⟩ := hk
      exact ⟨.of_heap rfl rfl, .cons trivial (.cons ⟨k, rfl, hk⟩ hf)⟩
  | takeKeyword =>
    cases hf with
    | cons hk hf =>
      obtain ⟨k, rfl, hk⟩ := hk
      exact takeKeyword_ends pc hk hf
  | checkKeywords =>
    cases hf with
    | @cons _ _ _ stack hk hf =>
      obtain ⟨k, rfl, hk⟩ := hk
      have hkw : keywords pc ⟨env, .hash k :: stack, argc⟩ =
          .ok k ⟨env, .hash k :: stack, argc⟩ := rfl
      simp only [step, bind_apply, hkw, get_apply]
      split
      · exact .refl
      · exact ⟨.refl, .cons ⟨k, rfl, hk⟩ hf⟩

/-- Sending a message takes the receiver and the arguments off the stack and leaves a value. -/
theorem send_ends {message : String} {toSelf isWriter : Bool} {receiver : Ownership}
    {arguments : List Ownership} (hn : arguments.length = m.argc.toNat)
    (hf : Fits base (receiver :: (arguments ++ slots)) m.stack)
    (hw : ∀ o x, (Op.send message toSelf isWriter).Writes m.selfValue o x → writes o x) :
    EndsOwning base writes (.any :: slots) m (step (.send message toSelf isWriter) pc m) := by
  obtain ⟨env, stack, argc⟩ := m
  cases hf with
  | @cons slot _ v stack _ hf =>
    have hpop : Machine.pop pc ⟨env, v :: stack, argc⟩ = .ok v ⟨env, stack, argc⟩ := rfl
    simp only [step, bind_apply, hpop, get_apply]
    rcases popMany_cases pc argc.toNat ⟨env, stack, argc⟩ with hp | ⟨e, hp⟩ <;> rw [hp]
    · simp only
      cases hd : dispatch env.heap v message (stack.take argc.toNat).reverse with
      | error e => exact .of_heap rfl rfl
      | ok r =>
        refine ⟨?_, .cons trivial (hn ▸ hf.drop)⟩
        obtain ⟨result, heap⟩ := r
        cases writtenBy_dispatch hd with
        | same => exact .of_heap rfl rfl
        | @ivar handle name v' hname =>
          exact .setVariable rfl rfl (hw handle _ ⟨name, hname, rfl⟩)
    · exact Leaves.of_heap rfl rfl

end

/-! ## What a run leaves alone -/

/-- **Ownership.** A run of a typed stream leaves the arrays and hashes of a heap alone, however it
ends, and the instance variables that no instruction of the stream can write; on success it leaves
what its slots say. -/
theorem Typed.ends {base : Heap} {writes : Nat → String → Prop} {code : Stream}
    {before after : List Ownership} (h : Typed code before after) {m : Machine}
    (hm : Owns base before m)
    (hw : ∀ i ∈ code, ∀ o x, i.op.Writes m.selfValue o x → writes o x) (pc : Nat) :
    EndsOwning base writes after m (exec pc code m) := by
  induction h generalizing m pc with
  | nil =>
    rw [exec_nil]
    exact ⟨.refl, hm.fits⟩
  | op h =>
    rw [exec_singleton h.isJump]
    exact h.ends pc hm (hw _ List.mem_cons_self)
  | copy =>
    rw [exec_cons rfl (.singleton rfl), exec_singleton rfl]
    refine .bind hm (dup_ends pc hm) fun m' _ _ hm' => ?_
    exact Op.Types.toArray.ends _ hm' nofun
  | send hn =>
    rw [exec_cons rfl (.singleton rfl), exec_singleton rfl]
    refine .bind hm ⟨.of_heap rfl rfl, hm.fits⟩ fun m' hset hself hm' => ?_
    cases hset
    exact send_ends _ hn hm'.fits (hw _ (.tail _ (.head _)))
  | append ha hb iha ihb =>
    rw [ha.balanced.exec_append hb.balanced]
    refine .bind hm (iha hm (fun i hi => hw i (List.mem_append_left _ hi)) pc)
      fun m' _ hself hm' => ?_
    exact ihb hm' (fun i hi => hself ▸ hw i (List.mem_append_right _ hi)) _
  | @ifElse yes no s mid e slot before after hy hn ihy ihn =>
    obtain ⟨c, rest, hstack, hm'⟩ := hm.pop
    have hpop := m.pop_eq_ok hstack pc
    have hl : Leaves base writes m.toEnv { m with stack := rest }.toEnv := .refl
    rw [exec_ifElse hy.balanced hn.balanced .nil, bind_apply, hpop]
    simp only [exec_nil, bind_pure_unit, branch]
    split
    · exact EndsOwning.from_leaves hl (ihy hm' (fun i hi => hw i (by simp [hi])) _)
    · exact EndsOwning.from_leaves hl (ihn hm' (fun i hi => hw i (by simp [hi])) _)

/-- What a machine owns after a run. -/
theorem Typed.owns {base : Heap} {code : Stream} {before after : List Ownership}
    (h : Typed code before after) {m m' : Machine} (hm : Owns base before m) {pc : Nat} {u : Unit}
    (hrun : exec pc code m = .ok u m') : Owns base after m' := by
  have hends : EndsOwning base (fun _ _ => True) after m (exec pc code m) :=
    h.ends hm (fun _ _ _ _ _ => trivial) pc
  rw [hrun] at hends
  exact hm.of_leaves hends.1 hends.2

/-! ## What a run shares -/

/-- The instruction at a position of a stream makes a copy that the next one takes apart. -/
def TakenApart (pc : Nat) (code : Stream) (j : Nat × Instruction) : Prop :=
  ∃ front next back, code = front ++ j.2 :: next :: back ∧ j.1 = pc + front.length ∧
    next.op = .toArray

/-- A copy that is taken apart at once is so in any code that goes around. -/
theorem TakenApart.around {pc pc' : Nat} {code : Stream} {j : Nat × Instruction}
    (h : TakenApart pc' code j) (front back : Stream) (hpc : pc' = pc + front.length) :
    TakenApart pc (front ++ code ++ back) j := by
  obtain ⟨front', next, back', rfl, hj, hnext⟩ := h
  refine ⟨front ++ front', next, back' ++ back, by simp, ?_, hnext⟩
  rw [hj, hpc, List.length_append]
  omega

end Formals
