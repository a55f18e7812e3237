import Formals.Proofs.Containment
import Formals.Proofs.Scopes

/-!
# What instructions do with values

What one instruction can do with values is said once (`Machine.Effect`, `Machine.step_effect`): what
is on the stack or in a variable afterwards the machine held before, or it was in a value that it
held, or it is a new cell. Only an attribute writer and the assignment of an instance variable put a
value into a cell that is not new (`Op.stored?`).

So a machine keeps the cells of all values that it holds, and no value comes to contain itself as
long as no object gets a value that is the object or contains it (`Machine.Effect.follows`).
-/

namespace Formals

open Machine

/-! ## What an instruction does with values -/

namespace Machine

/-- The values that a machine holds: `self`, those on the stack and those of variables. -/
def values (m : Machine) : List Value :=
  m.selfValue :: (m.stack ++ (m.globals.map (·.2) ++ m.scopes.flatMap (·.map (·.2))))

/-- A machine whose heap is proper and has the cells of all values that the machine holds. -/
structure Proper (strict : Prop) (m : Machine) : Prop where
  heap : m.heap.Proper strict
  values : ∀ v ∈ m.values, m.heap.Has v

/-- The values that an instruction can get at: those that the machine holds, what is in them, and
those that are no cells. -/
inductive Knows (m : Machine) : Value → Prop
  | plain {v : Value} : v.isCell = false → Knows m v
  | reached {v w : Value} : v ∈ m.values → m.heap.Reaches v w → Knows m w

/-- What an instruction can do with values. At most it stores a certain value in an object. -/
inductive Effect (m : Machine) (stored : Option (Nat × Value)) : Machine → Prop
  | moves {stack : List Value} {argc : UInt32} : (∀ v ∈ stack, m.Knows v) →
    Effect m stored { m with stack, argc }
  | newArray {items stack : List Value} : (∀ v ∈ items, m.Knows v) → stack ⊆ m.stack →
    Effect m stored { m with
      heap := (m.heap.newArray items).2
      stack := (m.heap.newArray items).1 :: stack }
  | newHash {entries : Entries Key Value} {stack : List Value} : (∀ e ∈ entries, m.Knows e.2) →
    stack ⊆ m.stack →
    Effect m stored { m with
      heap := (m.heap.newHash entries).2
      stack := (m.heap.newHash entries).1 :: stack }
  | shortens {handle : Nat} {items stack : List Value} : items ⊆ m.heap.arrayAt handle →
    (∀ v ∈ stack, m.Knows v) →
    Effect m stored { m with heap := m.heap.setArray handle items, stack }
  | stages {handle : Nat} {items : List Value} {entries : Entries Key Value} :
    items ⊆ m.heap.arrayAt handle → (∀ e ∈ entries, m.Knows e.2) →
    Effect m stored { m with
      heap := ((m.heap.setArray handle items).newHash entries).2
      stack := ((m.heap.setArray handle items).newHash entries).1 :: m.stack }
  | takes {handle : Nat} {entries : Entries Key Value} {stack : List Value} :
    entries ⊆ m.heap.hashAt handle → (∀ v ∈ stack, m.Knows v) →
    Effect m stored { m with heap := m.heap.setHash handle entries, stack }
  | sets {name : String} {v : Value} {localOnly : Bool} {stack : List Value} : m.Knows v →
    stack ⊆ m.stack → Effect m stored { m.setLocal name v localOnly with stack }
  | setsGlobal {name : String} {v : Value} {stack : List Value} : m.Knows v → stack ⊆ m.stack →
    Effect m stored { m with globals := m.globals.insert name v, stack }
  | stores {handle : Nat} {name : String} {v : Value} {stack : List Value} :
    stored = some (handle, v) → m.Knows v → (∀ w ∈ stack, m.Knows w) →
    Effect m stored { m with heap := m.heap.setVariable handle name v, stack }

/-- A proper machine whose heap has all cells that the one of an earlier machine had. -/
structure Follows (strict : Prop) (m m' : Machine) : Prop where
  heap : m.heap.Follows strict m'.heap
  values : ∀ v ∈ m'.values, m'.heap.Has v

variable {strict : Prop} {m m' : Machine} {v : Value} {stack : List Value}
  {stored : Option (Nat × Value)}

/-- A machine that follows is proper. -/
theorem Follows.proper (h : m.Follows strict m') : m'.Proper strict := ⟨h.heap.proper, h.values⟩

/-- A proper machine follows itself. -/
theorem Follows.refl (hs : m.Proper strict) : m.Follows strict m := ⟨.refl hs.heap, hs.values⟩

/-- What follows a machine that follows another one follows that, so that the instructions of a run
add up. -/
theorem Follows.trans {m'' : Machine} (h : m.Follows strict m') (h' : m'.Follows strict m'') :
    m.Follows strict m'' :=
  ⟨h.heap.trans h'.heap, h'.values⟩

/-- The heap of a proper machine has all values that an instruction can get at. -/
theorem Proper.has_of_knows (hs : m.Proper strict) (hv : m.Knows v) : m.heap.Has v := by
  cases hv with
  | plain hv => exact Heap.has_of_plain hv
  | reached hv hw => exact hs.heap.has_of_reaches (hs.values _ hv) hw

/-- A machine with other values on the stack and another heap. -/
theorem Proper.of_heap (hs : m.Proper strict) {heap : Heap} {argc : UInt32}
    (hheap : m.heap.Follows strict heap) (hstack : ∀ v ∈ stack, heap.Has v) :
    m.Follows strict { m with heap, stack, argc } := by
  refine ⟨hheap, ?_⟩
  have hvalues := hs.values
  simp only [Machine.values, List.forall_mem_cons, List.forall_mem_append] at hvalues ⊢
  exact ⟨hheap.has _ hvalues.1, hstack, fun v hv => hheap.has v (hvalues.2.2.1 v hv),
    fun v hv => hheap.has v (hvalues.2.2.2 v hv)⟩

/-- A machine holds `self` and what is on the stack, in the globals and in the scopes. -/
theorem mem_values_iff : v ∈ m.values ↔ v = m.selfValue ∨ v ∈ m.stack ∨
    v ∈ m.globals.map (·.2) ∨ v ∈ m.scopes.flatMap (·.map (·.2)) := by
  rw [values, List.mem_cons, List.mem_append, List.mem_append]

/-- A machine holds what is on the stack. -/
theorem mem_values_of_stack (hv : v ∈ m.stack) : v ∈ m.values :=
  List.mem_cons_of_mem _ (List.mem_append_left _ hv)

/-- An instruction can get at what the machine holds. -/
theorem Knows.held (hv : v ∈ m.values) : m.Knows v := .reached hv .refl

/-- An instruction can get at what is in a value that it can get at. -/
theorem Knows.part {w : Value} (hv : m.Knows v) (hw : w ∈ m.heap.parts v) : m.Knows w := by
  cases hv with
  | plain hv =>
    rw [Heap.isCell_of_mem_parts hw] at hv
    cases hv
  | reached hu hv => exact .reached hu (hv.tail hw)

/-- An instruction can get at what is on the stack. -/
theorem knows_stack (hv : v ∈ m.stack) : m.Knows v := .held (mem_values_of_stack hv)

/-- Some more values of which the heap has the cells. -/
theorem Proper.of_values (hs : m.Proper strict) (hheap : m'.heap = m.heap)
    (hvalues : ∀ v ∈ m'.values, m.Knows v) : m.Follows strict m' := by
  refine ⟨?_, fun v hv => ?_⟩ <;> rw [hheap]
  · exact .refl hs.heap
  · exact hs.has_of_knows (hvalues v hv)

/-- The values of entries of which one is set come from before, but for that one. -/
theorem mem_insert_values {κ : Type} [DecidableEq κ] {entries : Entries κ Value} {key : κ}
    {w : Value} (hw : w ∈ (entries.insert key v).map (·.2)) :
    w = v ∨ w ∈ entries.map (·.2) := by
  obtain ⟨e, he, rfl⟩ := List.mem_map.1 hw
  rcases Entries.mem_insert he with rfl | he
  · exact .inl rfl
  · exact .inr (List.mem_map_of_mem he)

/-- The values of variables in some scopes, of which one is set, come from before. -/
theorem mem_assignIn? {name : String} {w : Value} {scopes : List Scope} :
    ∀ {scopes' : List Scope}, Env.assignIn? name v scopes = some scopes' →
      w ∈ scopes'.flatMap (·.map (·.2)) → w = v ∨ w ∈ scopes.flatMap (·.map (·.2)) := by
  induction scopes with
  | nil => exact nofun
  | cons scope rest ih =>
    intro scopes' hassign hw
    rw [Env.assignIn?] at hassign
    split at hassign
    · cases hassign
      rw [List.flatMap_cons, List.mem_append] at hw ⊢
      rcases hw with hw | hw
      · exact (mem_insert_values hw).imp_right .inl
      · exact .inr (.inr hw)
    · obtain ⟨rest', hrest, rfl⟩ := Option.map_eq_some_iff.1 hassign
      rw [List.flatMap_cons, List.mem_append] at hw ⊢
      rcases hw with hw | hw
      · exact .inr (.inl hw)
      · exact (ih hrest hw).imp_right .inr

/-- The values of local variables of which one is set come from before, but for that one, in
whatever scope it is found. -/
theorem mem_scopes_setLocal {env : Env} {name : String} {localOnly : Bool} {w : Value}
    (hw : w ∈ (env.setLocal name v localOnly).scopes.flatMap (·.map (·.2))) :
    w = v ∨ w ∈ env.scopes.flatMap (·.map (·.2)) := by
  have hdefine : w ∈ (env.define name v).scopes.flatMap (·.map (·.2)) →
      w = v ∨ w ∈ env.scopes.flatMap (·.map (·.2)) := by
    simp only [Env.define, Env.scopes, List.flatMap_cons, List.mem_append]
    rintro (hw | hw)
    · exact (mem_insert_values hw).imp_right .inl
    · exact .inr (.inr hw)
  rw [Env.setLocal] at hw
  split at hw
  · exact hdefine hw
  · split at hw
    · rename_i outer hassign
      simp only [Env.scopes, List.flatMap_cons, List.mem_append] at hw ⊢
      rcases hw with hw | hw
      · exact .inr (.inl hw)
      · exact (mem_assignIn? hassign hw).imp_right .inr
    · exact hdefine hw

/-- **One instruction.** Whatever an instruction does, it leaves a machine proper, provided that it
does not store a value in an object that is in that value. -/
theorem Effect.follows (hs : m.Proper strict) (he : m.Effect stored m')
    (hstored : strict → ∀ o v, stored = some (o, v) → ¬ m.heap.Reaches v (.object o)) :
    m.Follows strict m' := by
  have hstack : ∀ v ∈ m.stack, m.heap.Has v := fun v hv => hs.values v (mem_values_of_stack hv)
  cases he with
  | moves hknown => exact hs.of_heap (.refl hs.heap) fun v hv => hs.has_of_knows (hknown v hv)
  | newArray hitems hsub =>
    have hheap := Heap.follows_newArray hs.heap fun v hv => hs.has_of_knows (hitems v hv)
    exact hs.of_heap hheap
      (List.forall_mem_cons.2 ⟨Heap.has_array, fun v hv => hheap.has v (hstack v (hsub hv))⟩)
  | newHash hentries hsub =>
    have hheap := Heap.follows_newHash hs.heap fun e he => hs.has_of_knows (hentries e he)
    exact hs.of_heap hheap
      (List.forall_mem_cons.2 ⟨Heap.has_hash, fun v hv => hheap.has v (hstack v (hsub hv))⟩)
  | shortens hitems hknown =>
    have hheap := Heap.follows_setArray hs.heap hitems
    exact hs.of_heap hheap fun v hv => hheap.has v (hs.has_of_knows (hknown v hv))
  | stages hitems hentries =>
    have hless := Heap.follows_setArray hs.heap hitems
    have hheap := hless.trans <| Heap.follows_newHash hless.proper fun e he =>
      hless.has _ (hs.has_of_knows (hentries e he))
    exact hs.of_heap hheap
      (List.forall_mem_cons.2 ⟨Heap.has_hash, fun v hv => hheap.has v (hstack v hv)⟩)
  | takes hentries hknown =>
    have hheap := Heap.follows_setHash hs.heap hentries
    exact hs.of_heap hheap fun v hv => hheap.has v (hs.has_of_knows (hknown v hv))
  | @sets name v localOnly stack hv hsub =>
    -- no cell changes here, and the value that is set was known before
    refine hs.of_values (m.toEnv.heap_setLocal name v localOnly) fun w hw => ?_
    rcases mem_values_iff.1 hw with hw | hw | hw | hw
    · exact .held (mem_values_iff.2 (.inl (hw.trans (m.toEnv.selfValue_setLocal name v localOnly))))
    · exact knows_stack (hsub hw)
    · refine .held (mem_values_iff.2 (.inr (.inr (.inl ?_))))
      exact m.toEnv.globals_setLocal name v localOnly ▸ hw
    · rcases mem_scopes_setLocal hw with rfl | hw
      · exact hv
      · exact .held (mem_values_iff.2 (.inr (.inr (.inr hw))))
  | setsGlobal hv hsub =>
    refine hs.of_values rfl fun w hw => ?_
    rcases mem_values_iff.1 hw with hw | hw | hw | hw
    · exact .held (mem_values_iff.2 (.inl hw))
    · exact knows_stack (hsub hw)
    · rcases mem_insert_values hw with rfl | hw
      · exact hv
      · exact .held (mem_values_iff.2 (.inr (.inr (.inl hw))))
    · exact .held (mem_values_iff.2 (.inr (.inr (.inr hw))))
  | @stores handle name v _ hsome hv hknown =>
    have hheap : m.heap.Follows strict (m.heap.setVariable handle name v) :=
      Heap.follows_setVariable hs.heap (hs.has_of_knows hv) fun hstrict =>
        hstored hstrict handle v hsome
    exact hs.of_heap hheap fun w hw => hheap.has w (hs.has_of_knows (hknown w hw))

end Machine

/-! ## One instruction -/

/-- The object in which an instruction stores a value, and the value, if it is one that does. -/
def Op.stored? (m : Machine) : Op → Option (Nat × Value)
  | .instanceSet _ =>
    match m.selfValue, m.stack with
    | .object handle, v :: _ => some (handle, v)
    | _, _ => none
  | .send message _ _ =>
    match writtenAttribute? message, m.stack with
    | some _, .object handle :: v :: _ => if m.argc = 1 then some (handle, v) else none
    | _, _ => none
  | _ => none

/-! What holds of `nil` and of the values in a list holds of the one that is looked up in it. -/

section Lookup

variable {P : Value → Prop} {items : List Value} (hnil : P .nil)

include hnil

/-- What holds of `nil` and of all items holds of the first one, or of what stands for it. -/
theorem headD_of_forall (hitems : ∀ v ∈ items, P v) : P (items.headD .nil) := by
  rw [List.headD_eq_head?_getD]
  cases hv : items.head? with
  | none => exact hnil
  | some v => exact hitems v (List.mem_of_head? hv)

/-- What holds of `nil` and of all items holds of the last one, or of what stands for it. -/
theorem getLastD_of_forall (hitems : ∀ v ∈ items, P v) : P (items.getLastD .nil) := by
  rw [List.getLastD_eq_getLast?]
  cases hv : items.getLast? with
  | none => exact hnil
  | some v => exact hitems v (List.mem_of_getLast? hv)

/-- What holds of `nil` and of all variables holds of one that is looked up and may be missing. -/
theorem get?_of_forall {entries : Entries String Value} (hentries : ∀ v ∈ entries.map (·.2), P v)
    (name : String) : P ((entries.get? name).getD .nil) := by
  cases hv : entries.get? name with
  | none => exact hnil
  | some v => exact hentries v (List.mem_map_of_mem (Entries.mem_of_get? hv))

end Lookup

/-- A message that takes one argument has been sent with one. -/
theorem eq_headD_of_checkArity {arguments : List Value} {u : Unit}
    (h : checkArity arguments 1 = .ok u) : arguments = [arguments.headD .nil] := by
  rw [checkArity] at h
  split at h
  · rename_i hlength
    obtain ⟨v, rfl⟩ := List.length_eq_one_iff.1 hlength
    rfl
  · cases h

/-- What a message does: it writes an attribute of an object, or its answer is no cell or is
directly in the receiver. -/
theorem answer_cases {h heap : Heap} {receiver result : Value} {message : String}
    {arguments : List Value} (ha : answer h receiver message arguments = .ok (result, heap)) :
    (heap = h ∧ (result.isCell = false ∨ result ∈ h.parts receiver)) ∨
      ∃ handle name, receiver = .object handle ∧ writtenAttribute? message = some name ∧
        arguments = [result] ∧ heap = h.setVariable handle ("@" ++ name) result := by
  have hnil : Value.nil.isCell = false ∨ Value.nil ∈ h.parts receiver := .inl rfl
  cases receiver with
  | nil | bool | sym => cases ha
  | int n =>
    simp only [answer] at ha
    split at ha
    · cases ha
    · obtain ⟨_, -, ha⟩ := ok_of_bind ha
      split at ha
      · obtain ⟨v, hv, ha⟩ := ok_of_bind ha
        cases ha
        rw [checkedInt] at hv
        split at hv <;> cases hv
        exact .inl ⟨rfl, .inl rfl⟩
      · cases ha
  | array handle =>
    obtain ⟨_, -, ha⟩ := ok_of_bind ha
    have hitems : ∀ v ∈ h.arrayAt handle, v.isCell = false ∨ v ∈ h.parts (.array handle) :=
      fun _ => .inr
    split at ha <;> cases ha
    · exact .inl ⟨rfl, .inl rfl⟩
    · exact .inl ⟨rfl, .inl rfl⟩
    · exact .inl ⟨rfl, headD_of_forall hnil hitems⟩
    · exact .inl ⟨rfl, getLastD_of_forall hnil hitems⟩
    · exact .inl ⟨rfl, .inl rfl⟩
  | hash handle =>
    obtain ⟨_, -, ha⟩ := ok_of_bind ha
    split at ha <;> cases ha <;> exact .inl ⟨rfl, .inl rfl⟩
  | str s =>
    simp only [answer] at ha
    split at ha
    · obtain ⟨_, -, ha⟩ := ok_of_bind ha
      cases ha
      exact .inl ⟨rfl, .inl rfl⟩
    · obtain ⟨_, -, ha⟩ := ok_of_bind ha
      cases ha
      exact .inl ⟨rfl, .inl rfl⟩
    · cases ha
  | object handle =>
    simp only [answer] at ha
    split at ha
    · rename_i name hname
      obtain ⟨_, harity, ha⟩ := ok_of_bind ha
      cases ha
      exact .inr ⟨handle, name, rfl, hname, eq_headD_of_checkArity harity, rfl⟩
    · obtain ⟨_, -, ha⟩ := ok_of_bind ha
      cases ha
      have hivars : ∀ v ∈ (h.objectAt handle).ivars.map (·.2),
          v.isCell = false ∨ v ∈ h.parts (.object handle) := fun _ => .inr
      exact .inl ⟨rfl, get?_of_forall hnil hivars _⟩

/-- A message that is dispatched writes an attribute of an object, or its answer is no cell or is
directly in the receiver. -/
theorem dispatch_cases {h heap : Heap} {receiver result : Value} {message : String}
    {arguments : List Value} (hd : dispatch h receiver message arguments = .ok (result, heap)) :
    (heap = h ∧ (result.isCell = false ∨ result ∈ h.parts receiver)) ∨
      ∃ handle name, receiver = .object handle ∧ writtenAttribute? message = some name ∧
        arguments = [result] ∧ heap = h.setVariable handle ("@" ++ name) result := by
  rw [dispatch] at hd
  split at hd
  · obtain ⟨_, -, hd⟩ := ok_of_bind hd
    cases hd
    exact .inl ⟨rfl, .inl rfl⟩
  · exact answer_cases hd

namespace Machine

section Knows

variable {m : Machine} {v : Value} {name : String} {items : List Value}

/-- An instruction can get at `self`. -/
theorem knows_self : m.Knows m.selfValue := .held (mem_values_iff.2 (.inl rfl))

/-- An instruction can get at what a local variable has. -/
theorem knows_local (hv : m.local? name = some v) : m.Knows v := by
  obtain ⟨scope, hscope, hv⟩ := List.exists_of_findSome?_eq_some hv
  have hmem : v ∈ m.scopes.flatMap (·.map (·.2)) :=
    List.mem_flatMap.2 ⟨scope, hscope, List.mem_map_of_mem (Entries.mem_of_get? hv)⟩
  exact .held (mem_values_iff.2 (.inr (.inr (.inr hmem))))

/-- An instruction can get at what a global has, or at `nil` if it is missing. -/
theorem knows_global : m.Knows ((m.global? name).getD .nil) :=
  get?_of_forall (.plain rfl) (fun _ hv => .held (mem_values_iff.2 (.inr (.inr (.inl hv))))) name

/-- The values of a hash literal are among those that it is made of. -/
theorem mem_of_entriesOf {h : Heap} {e : Key × Value} : ∀ {found entries : Entries Key Value}
    {flat : List Value}, entriesOf h found flat = .ok entries → e ∈ entries →
      e ∈ found ∨ e.2 ∈ flat
  | found, entries, k :: v :: rest, hentries, he => by
    rw [entriesOf] at hentries
    obtain ⟨key, -, hentries⟩ := ok_of_bind hentries
    rcases mem_of_entriesOf hentries he with he | he
    · rcases Entries.mem_insert he with rfl | he
      · exact .inr (List.mem_cons_of_mem _ List.mem_cons_self)
      · exact .inl he
    · exact .inr (List.mem_cons_of_mem _ (List.mem_cons_of_mem _ he))
  | found, entries, [], hentries, he | found, entries, [_], hentries, he => by
    cases hentries
    exact .inl he

/-- What is staged is in the last element. -/
theorem mem_of_stagedHash? {h : Heap} {entries : Entries Key Value} {e : Key × Value}
    (hstaged : stagedHash? h items = some entries) (he : e ∈ entries) :
    ∃ last ∈ items, e.2 ∈ h.parts last := by
  rw [stagedHash?] at hstaged
  split at hstaged
  · rename_i handle hlast
    split at hstaged
    · cases hstaged
      exact ⟨_, List.mem_of_getLast? hlast, List.mem_map_of_mem he⟩
    · cases hstaged
  · cases hstaged

end Knows

section Steps

variable {op : Op} (pc : Nat) (m : Machine)

/-- Instructions that push a value. -/
theorem pushes_effect (hop : op.pushes = true) : m.Effect (op.stored? m) (last (step op pc m)) := by
  have hstack : ∀ v ∈ m.stack, m.Knows v := fun v => knows_stack
  cases op with
  | pushNil | pushTrue | pushFalse | pushInt _ | pushString _ | pushSymbol _ =>
    exact .moves (List.forall_mem_cons.2 ⟨.plain rfl, hstack⟩)
  | pushSelf => exact .moves (List.forall_mem_cons.2 ⟨knows_self, hstack⟩)
  | localGet name =>
    simp only [step, bind_apply, get_apply]
    cases hv : m.local? name with
    | some v => exact .moves (List.forall_mem_cons.2 ⟨knows_local hv, hstack⟩)
    | none => exact .moves hstack
  | instanceGet name =>
    simp only [step, bind_apply, get_apply]
    cases hself : m.selfValue with
    | object handle =>
      have hivars : ∀ v ∈ m.heap.parts (.object handle), m.Knows v := fun v hv =>
        knows_self.part (hself ▸ hv)
      exact .moves (List.forall_mem_cons.2 ⟨get?_of_forall (.plain rfl) hivars name, hstack⟩)
    | _ => exact .moves (List.forall_mem_cons.2 ⟨.plain rfl, hstack⟩)
  | globalGet name => exact .moves (List.forall_mem_cons.2 ⟨knows_global, hstack⟩)
  | _ => cases hop

/-- Instructions that take the value on top of the stack. -/
theorem drops_effect (hop : op.drops = true) : m.Effect (op.stored? m) (last (step op pc m)) := by
  have hstack : ∀ v ∈ m.stack, m.Knows v := fun v => knows_stack
  obtain ⟨env, _ | ⟨v, stack⟩, argc⟩ := m
  · cases op with
    | _ => first | exact .moves hstack | cases hop
  obtain ⟨hv, hrest⟩ := List.forall_mem_cons.1 hstack
  have hsub : stack ⊆ v :: stack := List.subset_cons_self v stack
  cases op with
  | localSet name localOnly => exact .sets hv hsub
  | globalSet name => exact .setsGlobal hv hsub
  | pop => exact .moves hrest
  | instanceSet name =>
    obtain ⟨heap, scope, outer, globals, selfValue⟩ := env
    cases selfValue with
    | object handle => exact .stores rfl hv hrest
    | _ => exact .moves hrest
  | _ => cases hop

/-- Instructions that work on the array on top of the stack. -/
theorem takes_effect (hop : op.takes = true) : m.Effect (op.stored? m) (last (step op pc m)) := by
  have hstack : ∀ v ∈ m.stack, m.Knows v := fun v => knows_stack
  obtain ⟨env, _ | ⟨v, stack⟩, argc⟩ := m
  · cases op with
    | _ => first | exact .moves hstack | cases hop
  have hv := hstack v List.mem_cons_self
  cases v with
  | array handle =>
    have hitems : ∀ w ∈ env.heap.arrayAt handle, Knows _ w := fun w => hv.part
    cases op with
    | arrayShift =>
      exact .shortens (List.tail_subset _)
        (List.forall_mem_cons.2 ⟨headD_of_forall (.plain rfl) hitems, hstack⟩)
    | arrayPop =>
      exact .shortens (List.dropLast_subset _)
        (List.forall_mem_cons.2 ⟨getLastD_of_forall (.plain rfl) hitems, hstack⟩)
    | arrayIsEmpty => exact .moves (List.forall_mem_cons.2 ⟨.plain rfl, hstack⟩)
    | _ => cases hop
  | _ =>
    cases op with
    | _ => first | exact .moves hstack | cases hop

/-- The keyword arguments are a copy of the last element of an array. -/
theorem stageKeywords_effect :
    m.Effect (Op.stageKeywords.stored? m) (last (step .stageKeywords pc m)) := by
  have hstack : ∀ v ∈ m.stack, m.Knows v := fun v => knows_stack
  obtain ⟨env, _ | ⟨v, stack⟩, argc⟩ := m
  · exact .moves hstack
  have hv := hstack v List.mem_cons_self
  cases v with
  | array handle =>
    have hsequence : sequence pc ⟨env, .array handle :: stack, argc⟩ =
        .ok handle ⟨env, .array handle :: stack, argc⟩ := rfl
    simp only [step, bind_apply, hsequence, get_apply]
    cases hstaged : stagedHash? env.heap (env.heap.arrayAt handle) with
    | none => exact .newHash (List.forall_mem_nil _) (List.Subset.refl _)
    | some entries =>
      refine .stages (List.dropLast_subset _) fun e he => ?_
      obtain ⟨last, hlast, he⟩ := mem_of_stagedHash? hstaged he
      exact (hv.part hlast).part he
  | _ => exact .moves hstack

/-- Instructions that work on the hash on top of the stack. -/
theorem keywords_effect (hop : op = .checkKeywords ∨ ∃ name, op = .hasKeyword name ∨
    op = .takeKeyword name) : m.Effect (op.stored? m) (last (step op pc m)) := by
  have hstack : ∀ v ∈ m.stack, m.Knows v := fun v => knows_stack
  obtain ⟨env, _ | ⟨v, stack⟩, argc⟩ := m
  · rcases hop with rfl | ⟨name, rfl | rfl⟩ <;> exact .moves hstack
  have hv := hstack v List.mem_cons_self
  cases v with
  | hash handle =>
    have hentries : ∀ e ∈ env.heap.hashAt handle, Knows _ e.2 := fun e he =>
      hv.part (List.mem_map_of_mem he)
    have hkeywords : keywords pc ⟨env, .hash handle :: stack, argc⟩ =
        .ok handle ⟨env, .hash handle :: stack, argc⟩ := rfl
    rcases hop with rfl | ⟨name, rfl | rfl⟩
    · simp only [step, bind_apply, hkeywords, get_apply]
      split <;> exact .moves hstack
    · exact .moves (List.forall_mem_cons.2 ⟨.plain rfl, hstack⟩)
    · simp only [step, bind_apply, hkeywords, get_apply]
      cases hvalue : (env.heap.hashAt handle).get? (.sym name) with
      | none => exact .moves hstack
      | some v =>
        refine .takes (fun e => Entries.mem_of_mem_erase) (List.forall_mem_cons.2 ⟨?_, hstack⟩)
        exact hentries _ (Entries.mem_of_get? hvalue)
  | _ => rcases hop with rfl | ⟨name, rfl | rfl⟩ <;> exact .moves hstack

/-- As many values are popped as there are to be popped. -/
theorem length_of_popMany {n : Nat} {items : List Value} {m' : Machine}
    (h : popMany n pc m = .ok items m') : n ≤ m.stack.length := by
  by_contra hfew
  simp only [popMany, bind_apply, get_apply, if_pos (Nat.lt_of_not_le hfew)] at h
  cases h

/-- A value that is stored by a message is the only argument of the message. -/
theorem stored_send {message name : String} {toSelf isWriter : Bool} {handle : Nat} {v : Value}
    {env : Env} {stack : List Value} {argc : UInt32} (hname : writtenAttribute? message = some name)
    (hlength : argc.toNat ≤ stack.length) (harguments : (stack.take argc.toNat).reverse = [v]) :
    (Op.send message toSelf isWriter).stored? ⟨env, .object handle :: stack, argc⟩ =
      some (handle, v) := by
  have htake : stack.take argc.toNat = [v] := by
    rw [← List.reverse_reverse (stack.take argc.toNat), harguments]
    rfl
  have hone : argc.toNat = 1 := by
    have hcount := congrArg List.length htake
    rwa [List.length_take_of_le hlength] at hcount
  have hargc : argc = 1 := UInt32.toNat_inj.1 hone
  cases stack with
  | nil =>
    rw [List.take_nil] at htake
    cases htake
  | cons w stack =>
    rw [hone] at htake
    cases htake
    simp [Op.stored?, hname, hargc]

/-- Messages. -/
theorem send_effect (message : String) (toSelf isWriter : Bool) :
    m.Effect ((Op.send message toSelf isWriter).stored? m)
      (last (step (.send message toSelf isWriter) pc m)) := by
  have hstack : ∀ v ∈ m.stack, m.Knows v := fun v => knows_stack
  obtain ⟨env, _ | ⟨receiver, stack⟩, argc⟩ := m
  · exact .moves hstack
  obtain ⟨hreceiver, hrest⟩ := List.forall_mem_cons.1 hstack
  have hdrop : ∀ v ∈ stack.drop argc.toNat, Knows _ v := fun v hv =>
    hrest v (List.drop_subset _ _ hv)
  have harguments : ∀ v ∈ (stack.take argc.toNat).reverse, Knows _ v := fun v hv =>
    hrest v (List.take_subset _ _ (List.mem_reverse.1 hv))
  have hpop : Machine.pop pc ⟨env, receiver :: stack, argc⟩ = .ok receiver ⟨env, stack, argc⟩ := rfl
  simp only [step, bind_apply, hpop, get_apply]
  rcases popMany_cases pc argc.toNat ⟨env, stack, argc⟩ with hp | ⟨e, hp⟩ <;> rw [hp]
  · simp only
    cases hd : dispatch env.heap receiver message (stack.take argc.toNat).reverse with
    | error e => exact .moves hdrop
    | ok r =>
      obtain ⟨result, heap⟩ := r
      have hresult : Knows ⟨env, receiver :: stack, argc⟩ result := by
        rcases dispatch_cases hd with ⟨-, hplain | hpart⟩ | ⟨_, _, -, -, hone, -⟩
        · exact .plain hplain
        · exact hreceiver.part hpart
        · exact harguments _ (hone ▸ List.mem_singleton_self _)
      have hpushed : Knows ⟨env, receiver :: stack, argc⟩
          (if isWriter then (stack.take argc.toNat).reverse.getLastD .nil else result) := by
        split
        · exact getLastD_of_forall (.plain rfl) harguments
        · exact hresult
      have hafter := List.forall_mem_cons.2 ⟨hpushed, hdrop⟩
      rcases dispatch_cases hd with ⟨rfl, -⟩ | ⟨handle, name, rfl, hname, hone, rfl⟩
      · exact .moves hafter
      · exact .stores (stored_send hname (length_of_popMany pc _ hp) hone) hresult hafter
  · exact .moves hrest

/-- An array is made of values on the stack. -/
theorem createArray_effect (count : UInt32) {stored : Option (Nat × Value)} :
    m.Effect stored (last (step (.createArray count) pc m)) := by
  simp only [step, bind_apply]
  rcases popMany_cases pc count.toNat m with h | ⟨e, h⟩ <;> rw [h]
  · refine .newArray (fun v hv => knows_stack ?_) (List.drop_subset _ _)
    exact List.take_subset _ _ (List.mem_reverse.1 hv)
  · exact .moves fun _ => knows_stack

/-- A hash is made of values on the stack, or they are dropped, if one of them cannot be a key. -/
theorem createHash_effect (count : UInt32) {stored : Option (Nat × Value)} :
    m.Effect stored (last (step (.createHash count) pc m)) := by
  simp only [step, bind_apply]
  rcases popMany_cases pc (2 * count.toNat) m with h | ⟨e, h⟩ <;> rw [h]
  · cases hentries : entriesOf m.heap [] (m.stack.take (2 * count.toNat)).reverse with
    | error e =>
      simp only [get_apply, hentries]
      exact .moves fun v hv => knows_stack (List.drop_subset _ _ hv)
    | ok entries =>
      simp only [get_apply, hentries]
      refine .newHash (fun e he => knows_stack ?_) (List.drop_subset _ _)
      rcases mem_of_entriesOf hentries he with he | he
      · cases he
      · exact List.take_subset _ _ (List.mem_reverse.1 he)
  · exact .moves fun _ => knows_stack

/-- An array is copied, `nil` is made an empty one, and other values stay as they are. -/
theorem toArray_effect {stored : Option (Nat × Value)} :
    m.Effect stored (last (step .toArray pc m)) := by
  have hstack : ∀ v ∈ m.stack, m.Knows v := fun _ => knows_stack
  obtain ⟨env, _ | ⟨v, stack⟩, argc⟩ := m
  · exact .moves hstack
  obtain ⟨hv, hrest⟩ := List.forall_mem_cons.1 hstack
  have hsub : stack ⊆ v :: stack := List.subset_cons_self v stack
  cases v with
  | array handle => exact .newArray (fun w => hv.part) hsub
  | nil => exact .newArray (List.forall_mem_nil _) hsub
  | _ => exact .moves hrest

/-- **What an instruction does with values.** -/
theorem step_effect (op : Op) : m.Effect (op.stored? m) (last (step op pc m)) := by
  have hstack : ∀ v ∈ m.stack, m.Knows v := fun v => knows_stack
  cases op with
  | pushNil | pushTrue | pushFalse | pushInt _ | pushString _ | pushSymbol _ | pushSelf
  | localGet _ | instanceGet _ | globalGet _ => exact pushes_effect pc m rfl
  | localSet _ _ | instanceSet _ | globalSet _ | pop => exact drops_effect pc m rfl
  | arrayShift | arrayPop | arrayIsEmpty => exact takes_effect pc m rfl
  | stageKeywords => exact stageKeywords_effect pc m
  | checkKeywords => exact keywords_effect pc m (.inl rfl)
  | hasKeyword name => exact keywords_effect pc m (.inr ⟨name, .inl rfl⟩)
  | takeKeyword name => exact keywords_effect pc m (.inr ⟨name, .inr rfl⟩)
  | send message toSelf isWriter => exact send_effect pc m message toSelf isWriter
  | setArgc count => exact .moves hstack
  | ifTrue | orElse | endIf => exact .moves hstack
  | createArray count => exact createArray_effect pc m count
  | createHash count => exact createHash_effect pc m count
  | toArray => exact toArray_effect pc m
  | dup =>
    obtain ⟨env, _ | ⟨v, stack⟩, argc⟩ := m
    · exact .moves hstack
    · exact .moves (List.forall_mem_cons.2 ⟨hstack v List.mem_cons_self, hstack⟩)

end Steps

end Machine

end Formals
