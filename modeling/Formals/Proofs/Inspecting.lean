import Formals.Machine.FromJson
import Formals.Proofs.Effects

/-!
# Values of machines can be written out

Whatever the stream and however a call ends, no value contains itself after the call if none did
before, provided that no instruction of its run stores a value in an object that is that value or in
it (`Op.Closes`, `Machine.call_follows`). An instruction that does so makes the object contain
itself (`Machine.step_loops_iff`). Values that are built from documents have new cells only
(`Value.ofJson_follows`).

So after whatever calls a value of a machine can be written out if and only if neither it nor a
value in it contains itself, and all values can be if no instruction closed a loop
(`reachable_inspected`).
-/

namespace Formals

open Machine

/-! ## Loops -/

/-- Whether an instruction stores a value in an object that is that value or in it. -/
def Op.Closes (op : Op) (m : Machine) : Prop :=
  ∃ handle v, op.stored? m = some (handle, v) ∧ m.heap.Reaches v (.object handle)

/-- An object answers a writer. -/
theorem dispatch_writes {message name : String} (hname : writtenAttribute? message = some name)
    (h : Heap) (handle : Nat) (v : Value) : dispatch h (.object handle) message [v] =
      .ok (v, h.setVariable handle ("@" ++ name) v) := by
  have hnil : message ≠ "nil?" := by
    rintro rfl
    simp [writtenAttribute?] at hname
  simp only [dispatch, if_neg hnil, answer, hname]
  rfl

/-- An instruction that stores a value sets an instance variable, and does not fail. -/
theorem heap_of_stored {op : Op} {m : Machine} {handle : Nat} {v : Value}
    (h : op.stored? m = some (handle, v)) (pc : Nat) :
    Value.object handle ∈ m.values ∧
      ∃ name m', step op pc m = .ok () m' ∧ m'.heap = m.heap.setVariable handle name v := by
  cases op with
  | instanceSet name =>
    obtain ⟨⟨heap, scope, outer, globals, selfValue⟩, _ | ⟨w, stack⟩, argc⟩ := m
    · cases selfValue <;> cases h
    cases selfValue with
    | object a =>
      cases h
      exact ⟨mem_values_iff.2 (.inl rfl), name, _, rfl, rfl⟩
    | _ => cases h
  | send message toSelf isWriter =>
    obtain ⟨env, stack, argc⟩ := m
    rw [Op.stored?] at h
    split at h
    · rename_i name _ w stack hname hstack
      subst hstack
      split at h
      · rename_i hargc
        subst hargc
        cases h
        refine ⟨mem_values_of_stack List.mem_cons_self, "@" ++ name, ?_⟩
        have hpop : Machine.pop pc ⟨env, .object handle :: v :: stack, 1⟩ =
            .ok (.object handle) ⟨env, v :: stack, 1⟩ := rfl
        have hmany : popMany (1 : UInt32).toNat pc ⟨env, v :: stack, 1⟩ =
            .ok [v] ⟨env, stack, 1⟩ := rfl
        simp only [step, bind_apply, hpop, get_apply, hmany, dispatch_writes hname]
        exact ⟨_, rfl, rfl⟩
      · cases h
    · cases h
  | _ => cases h

namespace Machine

variable {strict : Prop} {m : Machine} {pc : Nat}

/-- An instruction leaves a machine proper unless it closes a loop. -/
theorem step_follows {op : Op} (hs : m.Proper strict) (hcloses : strict → ¬ op.Closes m) :
    m.Follows strict (last (step op pc m)) :=
  (step_effect pc m op).follows hs fun hstrict handle v hstored hback =>
    hcloses hstrict ⟨handle, v, hstored, hback⟩

/-- **Loops.** An instruction makes a value contain itself if and only if it stores a value in an
object that is that value or in it. -/
theorem step_loops_iff (hs : m.Proper True) (op : Op) (pc : Nat) :
    (∃ v, (last (step op pc m)).heap.Contains v v) ↔ op.Closes m := by
  constructor
  · rintro ⟨v, hloop⟩
    by_contra hcloses
    exact (step_follows hs fun _ => hcloses).proper.heap.acyclic trivial v hloop
  · rintro ⟨handle, v, hstored, hback⟩
    obtain ⟨hheld, name, m', hstep, hheap⟩ := heap_of_stored hstored pc
    refine ⟨.object handle, ?_⟩
    rw [hstep, last, hheap]
    exact Heap.loop_setVariable (hs.values _ hheld) hback

/-! ## Calls -/

/-- A step of a run, past a jump or not, leaves a machine proper unless its instruction closes a
loop. -/
theorem advance_follows {jumps : Jumps} {i : Instruction} {rest : Stream} (hs : m.Proper strict)
    (hcloses : strict → ¬ i.op.Closes m) :
    m.Follows strict (last (advance jumps pc i rest m)) := by
  cases hj : i.op.isJump with
  | false =>
    have hstep : m.Follows strict (last (step i.op pc m)) := step_follows hs hcloses
    rw [advance_op hj, bind_apply]
    cases hx : step i.op pc m <;> rw [hx] at hstep <;> exact hstep
  | true =>
    obtain ⟨op, span⟩ := i
    cases op with
    | ifTrue =>
      obtain ⟨env, _ | ⟨v, stack⟩, argc⟩ := m
      · exact .refl hs
      have hpop : Machine.pop pc ⟨env, v :: stack, argc⟩ = .ok v ⟨env, stack, argc⟩ := rfl
      have hrest : ∀ w ∈ stack, env.heap.Has w := fun w hw =>
        hs.values w (mem_values_of_stack (List.mem_cons_of_mem _ hw))
      have hpopped : Follows strict ⟨env, v :: stack, argc⟩ ⟨env, stack, argc⟩ :=
        hs.of_heap (.refl hs.heap) hrest
      simp only [advance, bind_apply, hpop]
      split <;> exact hpopped
    | orElse | endIf => exact .refl hs
    | _ => cases hj

/-- A run keeps a machine proper, whether it ends well or not, if no instruction that it executes
closes a loop. -/
theorem run_follows (jumps : Jumps) (code : Stream) (pc : Nat) (m : Machine)
    (hs : m.Proper strict)
    (hcloses : strict → ∀ j n, Visits jumps pc code m j n → ¬ j.2.op.Closes n) :
    m.Follows strict (last (run jumps pc code m)) := by
  match code with
  | [] =>
    rw [run_nil]
    exact .refl hs
  | i :: rest =>
    have hfirst : m.Follows strict (last (advance jumps pc i rest m)) :=
      advance_follows hs fun hstrict => hcloses hstrict _ _ .here
    rw [run_cons, bind_apply]
    cases hx : advance jumps pc i rest m with
    | error e m' =>
      rw [hx] at hfirst
      exact hfirst
    | ok place m' =>
      rw [hx] at hfirst
      have hshorter := (suffix_of_advance hx).length_le
      exact hfirst.trans (run_follows jumps place.2 place.1 m' hfirst.proper fun hstrict j n hj =>
        hcloses hstrict j n (.next hx hj))
termination_by code.length

/-- An instruction, with its position, that a call executes, and the machine that it finds. -/
def CallExecutes (code : Stream) (items : Heap → List Value) (m : Machine) (j : Nat × Instruction)
    (n : Machine) : Prop :=
  ∃ jumps, code.jumps = .ok jumps ∧ Visits jumps 0 code (entered items m) j n

/-- The array of a call leaves a machine proper if the heap has its values. -/
theorem entered_follows {items : Heap → List Value} (hs : m.Proper strict)
    (hitems : ∀ v ∈ items m.heap, m.heap.Has v) : m.Follows strict (entered items m) := by
  have hheap := Heap.follows_newArray hs.heap hitems
  refine hs.of_heap hheap (List.forall_mem_cons.2 ⟨Heap.has_array, fun v hv => ?_⟩)
  exact hheap.has v (hs.values v (mem_values_of_stack hv))

/-- **Calls.** A call keeps a machine proper, whether it ends well or not, if no instruction that it
executes closes a loop. -/
theorem call_follows {code : Stream} {items : Heap → List Value} (hs : m.Proper strict)
    (hitems : ∀ v ∈ items m.heap, m.heap.Has v)
    (hcloses : strict → ∀ j n, CallExecutes code items m j n → ¬ j.2.op.Closes n) :
    m.Follows strict (last (call code items m)) := by
  have hentered : m.Follows strict (entered items m) := entered_follows hs hitems
  have hexecute : m.Follows strict (last (execute code (entered items m))) := by
    rw [execute, bind_apply]
    cases hjumps : code.jumps with
    | error e => exact hentered
    | ok jumps =>
      exact hentered.trans (run_follows jumps code 0 _ hentered.proper fun hstrict j n hj =>
        hcloses hstrict j n ⟨jumps, hjumps, hj⟩)
  rw [call_apply, bind_apply]
  cases hx : execute code (entered items m) with
  | error e m' =>
    rw [hx] at hexecute
    exact hexecute
  | ok u m' =>
    rw [hx] at hexecute
    simp only [checkBalanced, bind_apply, get_apply]
    split <;> exact hexecute

/-- The values that are assigned are those of an array, or the value itself. -/
theorem Proper.has_of_splat {v w : Value} (hs : m.Proper strict) (hv : m.heap.Has v)
    (hw : w ∈ v.splat m.heap) : m.heap.Has w := by
  cases v with
  | array handle => exact hs.heap.closed (.array handle) w hw
  | _ =>
    cases List.mem_singleton.1 hw
    exact hv

end Machine

/-! ## Values from documents -/

/-- The entries that are made of named values have these values. -/
theorem mem_of_keywordEntries {e : Key × Value} {members : List (String × Value)} :
    ∀ {found : Entries Key Value},
      e ∈ members.foldl (fun found entry => Entries.insert (.sym entry.1) entry.2 found) found →
      e ∈ found ∨ ∃ entry ∈ members, entry.2 = e.2 := by
  induction members with
  | nil => exact .inl
  | cons first rest ih =>
    intro found he
    rcases ih he with he | ⟨entry, hentry, he⟩
    · rcases Entries.mem_insert he with rfl | he
      · exact .inr ⟨first, List.mem_cons_self, rfl⟩
      · exact .inl he
    · exact .inr ⟨entry, List.mem_cons_of_mem _ hentry, he⟩

section Documents

variable {strict : Prop}

mutual
/-- The value of a document has new cells only. -/
theorem Value.ofJson_follows : ∀ {document : Json} {h h' : Heap} {v : Value}, h.Proper strict →
    Value.ofJson document h = .ok (v, h') → h.Follows strict h' ∧ h'.Has v
  | .null, h, _, _, hs, hv | .bool _, h, _, _, hs, hv | .str _, h, _, _, hs, hv => by
    cases hv
    exact ⟨.refl hs, trivial⟩
  | .int n, h, _, _, hs, hv => by
    rw [Value.ofJson] at hv
    cases hn : int64OfInt? n with
    | none => simp only [hn] at hv; cases hv
    | some n =>
      simp only [hn] at hv
      cases hv
      exact ⟨.refl hs, trivial⟩
  | .real .., _, _, _, _, hv | .broken, _, _, _, _, hv => by cases hv
  | .arr items, h, _, _, hs, hv => by
    rw [Value.ofJson] at hv
    obtain ⟨⟨values, heap⟩, hvalues, hv⟩ := ok_of_bind hv
    obtain ⟨hfollows, hhas⟩ := Value.ofItems_follows hs hvalues
    cases hv
    exact ⟨hfollows.trans (Heap.follows_newArray hfollows.proper hhas), Heap.has_array⟩
  | .obj members, h, _, _, hs, hv => by
    rw [Value.ofJson] at hv
    obtain ⟨⟨entries, heap⟩, hentries, hv⟩ := ok_of_bind hv
    obtain ⟨hfollows, hhas⟩ := Value.ofMembers_follows hs hentries
    cases hv
    refine ⟨hfollows.trans (Heap.follows_newHash hfollows.proper fun e he => ?_), Heap.has_hash⟩
    rcases mem_of_keywordEntries he with he | ⟨entry, hentry, he⟩
    · cases he
    · exact he ▸ hhas entry hentry

/-- The values of the items of an array. -/
theorem Value.ofItems_follows : ∀ {documents : List Json} {h h' : Heap} {values : List Value},
    h.Proper strict → Value.ofItems documents h = .ok (values, h') →
    h.Follows strict h' ∧ ∀ v ∈ values, h'.Has v
  | [], h, _, _, hs, hv => by
    cases hv
    exact ⟨.refl hs, List.forall_mem_nil _⟩
  | document :: rest, h, _, _, hs, hv => by
    rw [Value.ofItems] at hv
    obtain ⟨⟨v, heap⟩, hfirst, hv⟩ := ok_of_bind hv
    obtain ⟨⟨values, heap'⟩, hrest, hv⟩ := ok_of_bind hv
    obtain ⟨hfollows, hhas⟩ := Value.ofJson_follows hs hfirst
    obtain ⟨hfollows', hhas'⟩ := Value.ofItems_follows hfollows.proper hrest
    cases hv
    exact ⟨hfollows.trans hfollows', List.forall_mem_cons.2 ⟨hfollows'.has v hhas, hhas'⟩⟩

/-- The names and values of the members of an object. -/
theorem Value.ofMembers_follows : ∀ {documents : List (String × Json)} {h h' : Heap}
    {members : List (String × Value)}, h.Proper strict →
    Value.ofMembers documents h = .ok (members, h') →
    h.Follows strict h' ∧ ∀ e ∈ members, h'.Has e.2
  | [], h, _, _, hs, hv => by
    cases hv
    exact ⟨.refl hs, List.forall_mem_nil _⟩
  | (name, document) :: rest, h, _, _, hs, hv => by
    rw [Value.ofMembers] at hv
    obtain ⟨⟨v, heap⟩, hfirst, hv⟩ := ok_of_bind hv
    obtain ⟨⟨members, heap'⟩, hrest, hv⟩ := ok_of_bind hv
    obtain ⟨hfollows, hhas⟩ := Value.ofJson_follows hs hfirst
    obtain ⟨hfollows', hhas'⟩ := Value.ofMembers_follows hfollows.proper hrest
    cases hv
    exact ⟨hfollows.trans hfollows', List.forall_mem_cons.2 ⟨hfollows'.has v hhas, hhas'⟩⟩
end

end Documents

/-! ## Reachable machines -/

/-- `Reachable allowed m own`: the machine `m` can be reached from a fresh one by calls, and the
caller has the values `own`. They are built from documents, or are in values that the caller has,
and calls are given no others. The streams are arbitrary, the calls may end well or not, and every
instruction that they execute is allowed on the machine that it finds. -/
inductive Machine.Reachable (allowed : Op → Machine → Prop) : Machine → List Value → Prop
  | fresh {documents : List Json} {own : List Value} {heap : Heap} :
    Value.ofItems documents {} = .ok (own, heap) → Reachable allowed (Machine.fresh heap) own
  | built {m : Machine} {own : List Value} {document : Json} {v : Value} {heap : Heap} :
    Reachable allowed m own → Value.ofJson document m.heap = .ok (v, heap) →
    Reachable allowed { m with heap } (v :: own)
  | opened {m : Machine} {own : List Value} {v w : Value} : Reachable allowed m own → v ∈ own →
    w ∈ m.heap.parts v → Reachable allowed m (w :: own)
  | bound {m : Machine} {own arguments : List Value} {code : Stream} : Reachable allowed m own →
    arguments ⊆ own →
    (∀ j n, CallExecutes code (fun _ => arguments) m j n → allowed j.2.op n) →
    Reachable allowed (last (bindArguments code arguments m)) own
  | assigned {m : Machine} {own : List Value} {v : Value} {code : Stream} :
    Reachable allowed m own → v ∈ own →
    (∀ j n, CallExecutes code v.splat m j n → allowed j.2.op n) →
    Reachable allowed (last (assign code v m)) own

namespace Machine.Reachable

variable {allowed : Op → Machine → Prop} {m : Machine} {own : List Value} {strict : Prop}

/-- A machine that can be reached has the cells of its values and of those of its caller, and no
value contains itself if no instruction that is allowed closes a loop. -/
theorem proper (h : Reachable allowed m own)
    (hcloses : strict → ∀ op n, allowed op n → ¬ op.Closes n) :
    m.Proper strict ∧ ∀ v ∈ own, m.heap.Has v := by
  induction h with
  | @fresh documents own heap hown =>
    have hempty : Heap.Proper strict {} := Heap.proper_empty
    obtain ⟨hbuilt, hown⟩ := Value.ofItems_follows hempty hown
    have hheap : heap.Follows strict (heap.newObject { className := "main" }).2 :=
      Heap.follows_newObject hbuilt.proper (List.forall_mem_nil _)
    exact ⟨⟨hheap.proper, List.forall_mem_singleton.2 Heap.has_object⟩,
      fun v hv => hheap.has v (hown v hv)⟩
  | built _ hv ih =>
    obtain ⟨hs, hown⟩ := ih
    obtain ⟨hheap, hv⟩ := Value.ofJson_follows hs.heap hv
    exact ⟨(hs.of_heap hheap fun w hw => hheap.has w (hs.values w (mem_values_of_stack hw))).proper,
      List.forall_mem_cons.2 ⟨hv, fun w hw => hheap.has w (hown w hw)⟩⟩
  | opened _ hv hw ih =>
    obtain ⟨hs, hown⟩ := ih
    exact ⟨hs, List.forall_mem_cons.2 ⟨hs.heap.closed _ _ hw, hown⟩⟩
  | @bound m own arguments code _ hsub hallowed ih =>
    obtain ⟨hs, hown⟩ := ih
    have hcall : m.Follows strict (last (call code (fun _ => arguments) m)) :=
      call_follows hs (fun v hv => hown v (hsub hv)) fun hstrict j n hj =>
        hcloses hstrict _ _ (hallowed j n hj)
    exact ⟨hcall.proper, fun v hv => hcall.heap.has v (hown v hv)⟩
  | @assigned m own v code _ hv hallowed ih =>
    obtain ⟨hs, hown⟩ := ih
    have hcall : m.Follows strict (last (call code v.splat m)) :=
      call_follows hs (fun _ => hs.has_of_splat (hown v hv)) fun hstrict j n hj =>
        hcloses hstrict _ _ (hallowed j n hj)
    exact ⟨hcall.proper, fun v hv => hcall.heap.has v (hown v hv)⟩

end Machine.Reachable

/-- **Writing out values.** Of the values that a machine holds after whatever calls, those can be
written out that neither contain themselves nor have a value in them that does, and these are all of
them if no instruction was executed that stores a value in an object that is that value or in it. -/
theorem reachable_inspected {allowed : Op → Machine → Prop} {m : Machine} {own : List Value}
    (h : Reachable allowed m own) :
    (∀ v ∈ m.values, ((m.heap.inspect? v).isSome ↔ m.heap.Unlooped v) ∧
      ((∃ depth, (m.heap.inspectWithin? depth v).isSome) ↔ m.heap.Unlooped v)) ∧
    ((∀ op n, allowed op n → ¬ op.Closes n) →
      (∀ v, ¬ m.heap.Contains v v) ∧ ∀ v ∈ m.values, (m.heap.inspect? v).isSome) := by
  have hinspect : ∀ {strict : Prop}, m.Proper strict → ∀ v ∈ m.values,
      ((m.heap.inspect? v).isSome ↔ m.heap.Unlooped v) ∧
        ((∃ depth, (m.heap.inspectWithin? depth v).isSome) ↔ m.heap.Unlooped v) :=
    fun hs v hv => Heap.inspect?_isSome_iff hs.heap (hs.values v hv)
  have hclosed : m.Proper False := (h.proper False.elim).1
  refine ⟨hinspect hclosed, fun hcloses => ?_⟩
  have hs : m.Proper True := (h.proper fun _ => hcloses).1
  have hloops : ∀ v, ¬ m.heap.Contains v v := hs.heap.acyclic trivial
  exact ⟨hloops, fun v hv => (hinspect hs v hv).1.2 fun w _ => hloops w⟩

/-- `a, (b, *c)` is bound to `5` and `[6]`. -/
theorem nested_inspected :
    let list : Option ParamList := some ⟨[.required "a" {},
      .group [.required "b" {}, .rest (some "c") {}] {}], {}⟩
    ∃ code m, ParamList.compile? list false = .ok code ∧
      Reachable (fun op n => ¬ op.Closes n) m [.int 5, .array 0] ∧
      m.scope = [("a", .int 5), ("b", .int 6), ("c", .array 2)] ∧
      (∀ v, ¬ m.heap.Contains v v) ∧ ∀ v ∈ m.values, (m.heap.inspect? v).isSome := by
  intro list
  let code : Stream := [⟨.arrayShift, {}⟩, ⟨.localSet "a" false, {}⟩, ⟨.arrayShift, {}⟩,
    ⟨.dup, {}⟩, ⟨.toArray, {}⟩, ⟨.arrayShift, {}⟩, ⟨.localSet "b" true, {}⟩, ⟨.dup, {}⟩,
    ⟨.localSet "c" true, {}⟩, ⟨.pop, {}⟩, ⟨.pop, {}⟩, ⟨.pop, {}⟩]
  have hcode : ParamList.compile? list false = .ok code := by cbv
  have hfresh : Value.ofItems [.int 5, .arr [.int 6]] {} =
      .ok ([.int 5, .array 0], { arrays := #[[.int 6]] }) := by cbv
  have hplain : ∀ i ∈ code, ∀ n, i.op.stored? n = none := by simp [code, Op.stored?]
  have hcloses : ∀ m j n, CallExecutes code (fun _ => [.int 5, .array 0]) m j n →
      ¬ j.2.op.Closes n := by
    rintro m j n ⟨_, _, hj⟩ ⟨handle, v, hstored, -⟩
    rw [hplain j.2 (mem_of_visits hj) n] at hstored
    cases hstored
  have hreachable : Reachable (fun op n => ¬ op.Closes n) (last (bindArguments code
      [.int 5, .array 0] (Machine.fresh { arrays := #[[.int 6]] }))) [.int 5, .array 0] :=
    .bound (.fresh hfresh) (List.Subset.refl _) (hcloses _)
  refine ⟨code, _, hcode, hreachable, ?_, (reachable_inspected hreachable).2 fun _ _ => id⟩
  simp only [code]
  cbv

/-- `a = (self.x = self)`: the variable `a` and `self` are an object that contains itself. -/
theorem self_in_itself :
    let list : Option ParamList := some ⟨[.optional "a" (.call none "x=" [.self]) {}], {}⟩
    ∃ code m, ParamList.compile? list false = .ok code ∧
      bindArguments code [] (Machine.fresh {}) = .ok () m ∧ m.local? "a" = some m.selfValue ∧
      m.heap.Contains m.selfValue m.selfValue ∧
      ∀ depth, m.heap.inspectWithin? depth m.selfValue = none := by
  intro list
  let code : Stream := [⟨.arrayIsEmpty, {}⟩, ⟨.ifTrue, {}⟩, ⟨.pushSelf, {}⟩, ⟨.pushSelf, {}⟩,
    ⟨.setArgc 1, {}⟩, ⟨.send "x=" true false, {}⟩, ⟨.orElse, {}⟩, ⟨.arrayShift, {}⟩, ⟨.endIf, {}⟩,
    ⟨.localSet "a" false, {}⟩, ⟨.pop, {}⟩]
  have hcode : ParamList.compile? list false = .ok code := by cbv
  let heap : Heap := { arrays := #[[]], objects := #[⟨"main", [("@x", .object 0)]⟩] }
  have hrun : bindArguments code [] (Machine.fresh {}) =
      .ok () ⟨⟨heap, [("a", .object 0)], [], [], .object 0⟩, [], 1⟩ := by
    simp only [code, heap]
    cbv
  have hloop : heap.Contains (.object 0) (.object 0) := .single (List.mem_singleton_self _)
  refine ⟨code, _, hcode, hrun, rfl, hloop, fun depth => ?_⟩
  by_contra hsome
  exact Heap.not_contains_self (Option.isSome_iff_ne_none.2 hsome) hloop

end Formals
