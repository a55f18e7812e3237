import Formals.Proofs.Evaluation

/-!
# What actions leave alone

`Heap.Keeps` says which arrays and hashes a change of the heap leaves as they are; none ever goes
away. The evaluation of an expression leaves all of them alone, and the scopes too
(`Expr.eval_quiet`): it may allocate new cells and write instance variables. A local variable that
is set has its value then, whether or not the assignment stays in the innermost scope, and the
others keep theirs (`Env.local?_setLocal`).
-/

namespace Formals

/-! ## Entries -/

namespace Entries

variable {κ α : Type} [DecidableEq κ]

/-- What a key has after another one was given a value. -/
theorem get?_insert (key other : κ) (v : α) (entries : Entries κ α) :
    (entries.insert key v).get? other = if key = other then some v else entries.get? other := by
  induction entries with
  | nil => rfl
  | cons e rest ih =>
    obtain ⟨k, w⟩ := e
    by_cases hk : k = key
    · subst hk
      simp only [insert, if_true, get?]
      split <;> rfl
    · simp only [insert, if_neg hk, get?, ih]
      split
      · rename_i h
        rw [if_neg fun he => hk (h.trans he.symm)]
      · rfl

/-- A key without a value. -/
theorem get?_of_not_contains {key : κ} {entries : Entries κ α} (h : ¬ entries.contains key) :
    entries.get? key = none := by
  rwa [contains, Bool.not_eq_true, Option.isSome_eq_false_iff, Option.isNone_iff_eq_none] at h

section

variable {entries : Entries κ α} {key : κ} {value : α}

/-- A value that is found is in an entry with its key. -/
theorem mem_of_get? (h : entries.get? key = some value) : (key, value) ∈ entries := by
  induction entries with
  | nil => cases h
  | cons first rest ih =>
    obtain ⟨k, v⟩ := first
    rw [get?] at h
    split at h
    · rename_i hk
      cases h
      exact hk ▸ List.mem_cons_self
    · exact List.mem_cons_of_mem _ (ih h)

/-- The entries after one is set come from before, but for that one. -/
theorem mem_insert {entry : κ × α} (h : entry ∈ entries.insert key value) :
    entry = (key, value) ∨ entry ∈ entries := by
  induction entries with
  | nil => exact .inl (List.mem_singleton.1 h)
  | cons first rest ih =>
    obtain ⟨k, v⟩ := first
    rw [insert] at h
    split at h
    · rename_i hk
      exact (List.mem_cons.1 h).imp (fun h => hk ▸ h) (List.mem_cons_of_mem _)
    · rcases List.mem_cons.1 h with h | h
      · exact .inr (h ▸ List.mem_cons_self)
      · exact (ih h).imp_right (List.mem_cons_of_mem _)

/-- The entries after one is taken out come from before. -/
theorem mem_of_mem_erase {entry : κ × α} (h : entry ∈ entries.erase key) : entry ∈ entries := by
  induction entries with
  | nil => cases h
  | cons first rest ih =>
    obtain ⟨k, v⟩ := first
    rw [erase] at h
    split at h
    · exact List.mem_cons_of_mem _ h
    · exact (List.mem_cons.1 h).elim (· ▸ List.mem_cons_self) (List.mem_cons_of_mem _ <| ih ·)

end

end Entries

/-! ## Local variables -/

namespace Env

/-- The value of a variable in the first of some scopes that has it. -/
def lookup (name : String) (scopes : List Scope) : Option Value :=
  scopes.findSome? (Entries.get? name)

/-- A local variable is looked up in the own scope and then in those around it. -/
theorem local?_eq (env : Env) (name : String) :
    env.local? name = lookup name (env.scope :: env.outer) := rfl

/-- A variable is looked up in the first scope, and in the others if that does not have it. -/
theorem lookup_cons (name : String) (scope : Scope) (rest : List Scope) :
    lookup name (scope :: rest) = (scope.get? name).or (lookup name rest) := by
  rw [lookup, List.findSome?_cons, lookup]
  cases scope.get? name <;> rfl

/-- Assigning a variable in the scope that has it. -/
theorem lookup_assignIn? {name : String} {v : Value} {scopes scopes' : List Scope}
    (h : assignIn? name v scopes = some scopes') (x : String) :
    lookup x scopes' = if name = x then some v else lookup x scopes := by
  induction scopes generalizing scopes' with
  | nil => cases h
  | cons scope rest ih =>
    rw [assignIn?] at h
    split at h
    · cases h
      rw [lookup_cons, lookup_cons, Entries.get?_insert]
      split <;> rfl
    · rename_i hc
      obtain ⟨rest', hr, rfl⟩ := Option.map_eq_some_iff.1 h
      rw [lookup_cons, lookup_cons, ih hr]
      split
      · rename_i hx
        subst hx
        rw [Entries.get?_of_not_contains hc]
        rfl
      · rfl

/-- A variable that is set has its value, and the others have theirs. -/
theorem local?_setLocal (env : Env) (name : String) (v : Value) (localOnly : Bool) (x : String) :
    (env.setLocal name v localOnly).local? x = if name = x then some v else env.local? x := by
  have hdefine : (env.define name v).local? x = if name = x then some v else env.local? x := by
    rw [local?_eq, local?_eq, define, lookup_cons, lookup_cons, Entries.get?_insert]
    split <;> rfl
  unfold setLocal
  split
  · exact hdefine
  · rename_i hc
    cases ha : assignIn? name v env.outer with
    | none => exact hdefine
    | some outer =>
      simp only [local?_eq]
      rw [lookup_cons, lookup_cons, lookup_assignIn? ha]
      split
      · rename_i hx
        subst hx
        rw [Entries.get?_of_not_contains fun h => hc (Bool.or_eq_true_iff.2 (.inr h))]
        rfl
      · rfl

/-- Assigning a variable leaves the heap alone. -/
theorem heap_setLocal (env : Env) (name : String) (v : Value) (localOnly : Bool) :
    (env.setLocal name v localOnly).heap = env.heap := by
  unfold setLocal
  split
  · rfl
  · split <;> rfl

/-- Assigning a variable leaves `self` alone. -/
theorem selfValue_setLocal (env : Env) (name : String) (v : Value) (localOnly : Bool) :
    (env.setLocal name v localOnly).selfValue = env.selfValue := by
  unfold setLocal
  split
  · rfl
  · split <;> rfl

/-- Assigning a local variable leaves the global ones alone. -/
theorem globals_setLocal (env : Env) (name : String) (v : Value) (localOnly : Bool) :
    (env.setLocal name v localOnly).globals = env.globals := by
  unfold setLocal
  split
  · rfl
  · split <;> rfl

end Env

/-! ## Cells -/

namespace Heap

/-- The arrays and hashes with a property keep their contents, and none goes away. -/
structure Keeps (arrays hashes : Nat → Prop) (h h' : Heap) : Prop where
  arrays_le : h.arrays.size ≤ h'.arrays.size
  hashes_le : h.hashes.size ≤ h'.hashes.size
  arrayAt_eq : ∀ a < h.arrays.size, arrays a → h'.arrayAt a = h.arrayAt a
  hashAt_eq : ∀ b < h.hashes.size, hashes b → h'.hashAt b = h.hashAt b

/-- All arrays and hashes keep their contents, and there may be more. -/
abbrev Grows (h h' : Heap) : Prop := Keeps (fun _ => True) (fun _ => True) h h'

variable {arrays hashes arrays' hashes' : Nat → Prop} {h h' h'' : Heap}

/-- A heap keeps its own cells. -/
theorem Keeps.refl (h : Heap) : Keeps arrays hashes h h :=
  ⟨Nat.le_refl _, Nat.le_refl _, fun _ _ _ => rfl, fun _ _ _ => rfl⟩

/-- Two changes in a row keep what the second one keeps of what the first one does. -/
theorem Keeps.comp (a : Keeps arrays hashes h h') (b : Keeps arrays' hashes' h' h'')
    (ha : ∀ i < h.arrays.size, arrays i → arrays' i)
    (hb : ∀ i < h.hashes.size, hashes i → hashes' i) : Keeps arrays hashes h h'' where
  arrays_le := Nat.le_trans a.arrays_le b.arrays_le
  hashes_le := Nat.le_trans a.hashes_le b.hashes_le
  arrayAt_eq i hi hp := by
    rw [b.arrayAt_eq i (Nat.lt_of_lt_of_le hi a.arrays_le) (ha i hi hp), a.arrayAt_eq i hi hp]
  hashAt_eq i hi hp := by
    rw [b.hashAt_eq i (Nat.lt_of_lt_of_le hi a.hashes_le) (hb i hi hp), a.hashAt_eq i hi hp]

/-- Two changes in a row keep what both of them keep. -/
theorem Keeps.trans (a : Keeps arrays hashes h h') (b : Keeps arrays hashes h' h'') :
    Keeps arrays hashes h h'' := a.comp b (fun _ _ hi => hi) fun _ _ hi => hi

/-- A change that keeps some cells keeps fewer of them. It counts only which cells there were
before. -/
theorem Keeps.mono (k : Keeps arrays hashes h h')
    (ha : ∀ a < h.arrays.size, arrays' a → arrays a)
    (hb : ∀ b < h.hashes.size, hashes' b → hashes b) : Keeps arrays' hashes' h h' where
  arrays_le := k.arrays_le
  hashes_le := k.hashes_le
  arrayAt_eq i hi hp := k.arrayAt_eq i hi (ha i hi hp)
  hashAt_eq i hi hp := k.hashAt_eq i hi (hb i hi hp)

/-- What keeps everything keeps every part. -/
theorem Grows.keeps (g : Grows h h') : Keeps arrays hashes h h' :=
  g.mono (fun _ _ _ => trivial) (fun _ _ _ => trivial)

/-- A new array leaves all cells. -/
theorem grows_newArray (h : Heap) (items : List Value) : Grows h (h.newArray items).2 where
  arrays_le := by simp [newArray]
  hashes_le := Nat.le_refl _
  arrayAt_eq a ha _ := by simp [newArray, arrayAt, Array.getElem?_push, Nat.ne_of_lt ha]
  hashAt_eq _ _ _ := rfl

/-- A new array has the elements that it is made of. -/
theorem arrayAt_newArray (h : Heap) (items : List Value) :
    (h.newArray items).2.arrayAt h.arrays.size = items := by
  simp [newArray, arrayAt]

/-- A new hash leaves all cells. -/
theorem grows_newHash (h : Heap) (entries : Entries Key Value) : Grows h (h.newHash entries).2 where
  arrays_le := Nat.le_refl _
  hashes_le := by simp [newHash]
  arrayAt_eq _ _ _ := rfl
  hashAt_eq b hb _ := by simp [newHash, hashAt, Array.getElem?_push, Nat.ne_of_lt hb]

/-- A new hash has the entries that it is made of. -/
theorem hashAt_newHash (h : Heap) (entries : Entries Key Value) :
    (h.newHash entries).2.hashAt h.hashes.size = entries := by
  simp [newHash, hashAt]

/-- Other elements in an array leave all other cells. -/
theorem keeps_setArray (h : Heap) (q : Nat) (items : List Value) :
    Keeps (· ≠ q) (fun _ => True) h (h.setArray q items) where
  arrays_le := by simp [setArray]
  hashes_le := Nat.le_refl _
  arrayAt_eq a ha hq := by
    simp [setArray, arrayAt, Ne.symm hq]
  hashAt_eq _ _ _ := rfl

/-- An array that there is has the elements that are set. -/
theorem arrayAt_setArray {h : Heap} {q : Nat} (hq : q < h.arrays.size) (items : List Value) :
    (h.setArray q items).arrayAt q = items := by
  simp [setArray, arrayAt, hq]

/-- Other entries in a hash leave all other cells. -/
theorem keeps_setHash (h : Heap) (k : Nat) (entries : Entries Key Value) :
    Keeps (fun _ => True) (· ≠ k) h (h.setHash k entries) where
  arrays_le := Nat.le_refl _
  hashes_le := by simp [setHash]
  arrayAt_eq _ _ _ := rfl
  hashAt_eq b hb hk := by
    simp [setHash, hashAt, Ne.symm hk]

/-- A hash that there is has the entries that are set. -/
theorem hashAt_setHash {h : Heap} {k : Nat} (hk : k < h.hashes.size) (entries : Entries Key Value) :
    (h.setHash k entries).hashAt k = entries := by
  simp [setHash, hashAt, hk]

/-- An instance variable that is set leaves all arrays and hashes. -/
theorem grows_setVariable (h : Heap) (handle : Nat) (name : String) (v : Value) :
    Grows h (h.setVariable handle name v) :=
  ⟨Nat.le_refl _, Nat.le_refl _, fun _ _ _ => rfl, fun _ _ _ => rfl⟩

/-- An object with an instance variable set. -/
theorem objectAt_setVariable (h : Heap) (handle : Nat) (name : String) (v : Value) (o : Nat) :
    ((h.setVariable handle name v).objectAt o).className = (h.objectAt o).className ∧
      ∀ x, ¬ (o = handle ∧ x = name) →
        ((h.setVariable handle name v).objectAt o).ivars.get? x = (h.objectAt o).ivars.get? x := by
  unfold setVariable objectAt
  simp only [Array.getD_eq_getD_getElem?, Array.getElem?_setIfInBounds]
  by_cases ho : handle = o
  · subst ho
    by_cases hlt : handle < h.objects.size
    · simp only [if_true, if_pos hlt, Option.getD_some, true_and]
      intro x hx
      rw [Entries.get?_insert, if_neg fun hn => hx hn.symm]
    · simp [hlt]
  · simp [ho]

end Heap

/-! ## Expressions -/

/-- What a message does to the heap: a writer sets an instance variable, and no other message does
anything. -/
inductive Heap.WrittenBy (message : String) (h : Heap) : Heap → Prop
  | same : WrittenBy message h h
  | ivar {handle : Nat} {name : String} {v : Value} : writtenAttribute? message = some name →
    WrittenBy message h (h.setVariable handle ("@" ++ name) v)

/-- What a method leaves behind, past the check of its arguments. -/
theorem writtenBy_of_checkArity {message : String} {h : Heap} {n : Nat} {arguments : List Value}
    {r : Value × Heap} {f : Unit → Except RuntimeError (Value × Heap)}
    (hr : (checkArity arguments n >>= f) = .ok r) (hf : f () = .ok r → h.WrittenBy message r.2) :
    h.WrittenBy message r.2 := by
  obtain ⟨_, -, hr⟩ := ok_of_bind hr
  exact hf hr

/-- Methods only write instance variables. -/
theorem writtenBy_answer {h : Heap} {receiver : Value} {message : String} {arguments : List Value}
    {r : Value × Heap} (hr : answer h receiver message arguments = .ok r) :
    h.WrittenBy message r.2 := by
  cases receiver with
  | nil | bool | sym => cases hr
  | int n =>
    simp only [answer] at hr
    split at hr
    · cases hr
    · refine writtenBy_of_checkArity hr fun hr => ?_
      split at hr
      · obtain ⟨v, -, hr⟩ := ok_of_bind hr
        cases hr
        exact .same
      · cases hr
  | array handle | hash handle =>
    refine writtenBy_of_checkArity hr fun hr => ?_
    split at hr <;> cases hr <;> exact .same
  | str s =>
    simp only [answer] at hr
    split at hr
    · refine writtenBy_of_checkArity hr fun hr => ?_
      cases hr
      exact .same
    · refine writtenBy_of_checkArity hr fun hr => ?_
      cases hr
      exact .same
    · cases hr
  | object handle =>
    simp only [answer] at hr
    split at hr
    · rename_i hw
      refine writtenBy_of_checkArity hr fun hr => ?_
      cases hr
      exact .ivar hw
    · refine writtenBy_of_checkArity hr fun hr => ?_
      cases hr
      exact .same

/-- Sending a message only writes instance variables. -/
theorem writtenBy_dispatch {h : Heap} {receiver : Value} {message : String} {arguments : List Value}
    {r : Value × Heap} (hr : dispatch h receiver message arguments = .ok r) :
    h.WrittenBy message r.2 := by
  unfold dispatch at hr
  split at hr
  · refine writtenBy_of_checkArity hr fun hr => ?_
    cases hr
    exact .same
  · exact writtenBy_answer hr

/-- Messages leave the arrays and hashes alone. -/
theorem Heap.WrittenBy.grows {message : String} {h h' : Heap} (hw : h.WrittenBy message h') :
    h.Grows h' := by
  cases hw with
  | same => exact .refl h
  | ivar => exact grows_setVariable h ..

/-- An action that leaves the scopes, the global variables, the record of defaults, the arrays and
the hashes alone. -/
structure Quiet (t t' : Trail) : Prop where
  scopes : t'.scope = t.scope ∧ t'.outer = t.outer
  globals : t'.globals = t.globals
  defaults : t'.defaults = t.defaults
  heap : t.heap.Grows t'.heap

namespace Quiet

variable {t t' t'' : Trail}

/-- What does nothing is quiet. -/
theorem refl (t : Trail) : Quiet t t := ⟨⟨rfl, rfl⟩, rfl, rfl, .refl _⟩

/-- Two quiet actions in a row are quiet. -/
theorem trans (a : Quiet t t') (b : Quiet t' t'') : Quiet t t'' :=
  ⟨⟨b.scopes.1.trans a.scopes.1, b.scopes.2.trans a.scopes.2⟩, b.globals.trans a.globals,
    b.defaults.trans a.defaults, a.heap.trans b.heap⟩

/-- A quiet action leaves the local variables. -/
theorem local?_eq (a : Quiet t t') (name : String) : t'.local? name = t.local? name := by
  rw [Env.local?_eq, Env.local?_eq, a.scopes.1, a.scopes.2]

/-- Looking at the environment. -/
theorem of_read {α : Type} {f : Env → Except RuntimeError α} {a : α}
    (h : Act.read f t = .ok a t') : Quiet t t' := by
  unfold Act.read at h
  split at h <;> cases h
  exact refl t

/-- Making an array is quiet. -/
theorem of_newArray {items : List Value} {q : Nat} (h : Act.newArray items t = .ok q t') :
    Quiet t t' := by
  cases h
  exact ⟨⟨rfl, rfl⟩, rfl, rfl, Heap.grows_newArray _ _⟩

/-- Making a hash is quiet. -/
theorem of_newHash {entries : Entries Key Value} {k : Nat}
    (h : Act.newHash entries t = .ok k t') : Quiet t t' := by
  cases h
  exact ⟨⟨rfl, rfl⟩, rfl, rfl, Heap.grows_newHash _ _⟩

/-- Sending a message is quiet: it writes at most an instance variable. -/
theorem of_send {receiver v : Value} {message : String} {arguments : List Value}
    (h : Act.send receiver message arguments t = .ok v t') : Quiet t t' := by
  unfold Act.send at h
  split at h
  · rename_i hd
    cases h
    exact ⟨⟨rfl, rfl⟩, rfl, rfl, (writtenBy_dispatch hd).grows⟩
  · cases h

end Quiet

namespace Expr

mutual
/-- The evaluation of an expression is quiet. -/
theorem eval_quiet : ∀ {e : Expr} {t t' : Trail} {v : Value}, e.eval t = .ok v t' → Quiet t t'
  | nil, t, t', v, h | bool _, t, t', v, h | int _, t, t', v, h | str _, t, t', v, h
  | sym _, t, t', v, h => by
    cases h
    exact .refl t
  | self, t, t', v, h | localVar _, t, t', v, h | instanceVar _, t, t', v, h
  | globalVar _, t, t', v, h => by
    rw [eval] at h
    exact .of_read h
  | array elements, t, t', v, h => by
    rw [eval] at h
    obtain ⟨items, t₁, hi, h⟩ := bind_eq_ok.1 h
    obtain ⟨q, hq, -⟩ := map_eq_ok.1 h
    exact (evalList_quiet hi).trans (.of_newArray hq)
  | hash pairs, t, t', v, h => by
    rw [eval] at h
    obtain ⟨flat, t₁, hf, h⟩ := bind_eq_ok.1 h
    obtain ⟨k, hk, -⟩ := map_eq_ok.1 h
    obtain ⟨entries, t₂, he, hk⟩ := bind_eq_ok.1 hk
    exact (evalPairs_quiet hf).trans ((Quiet.of_read he).trans (.of_newHash hk))
  | call none method arguments, t, t', v, h => by
    rw [eval] at h
    obtain ⟨items, t₁, hi, h⟩ := bind_eq_ok.1 h
    obtain ⟨receiver, t₂, hr, h⟩ := bind_eq_ok.1 h
    exact (evalList_quiet hi).trans ((Quiet.of_read hr).trans (.of_send h))
  | call (some receiver) method arguments, t, t', v, h => by
    rw [eval] at h
    obtain ⟨items, t₁, hi, h⟩ := bind_eq_ok.1 h
    obtain ⟨r, t₂, hr, h⟩ := bind_eq_ok.1 h
    exact (evalList_quiet hi).trans ((eval_quiet hr).trans (.of_send h))

/-- The evaluation of some expressions is quiet. -/
theorem evalList_quiet : ∀ {es : List Expr} {t t' : Trail} {vs : List Value},
    evalList es t = .ok vs t' → Quiet t t'
  | [], t, t', vs, h => by
    cases h
    exact .refl t
  | e :: rest, t, t', vs, h => by
    rw [evalList] at h
    obtain ⟨v, t₁, hv, h⟩ := bind_eq_ok.1 h
    obtain ⟨vs', hr, -⟩ := map_eq_ok.1 h
    exact (eval_quiet hv).trans (evalList_quiet hr)

/-- The evaluation of some pairs is quiet. -/
theorem evalPairs_quiet : ∀ {ps : List (Expr × Expr)} {t t' : Trail} {vs : List Value},
    evalPairs ps t = .ok vs t' → Quiet t t'
  | [], t, t', vs, h => by
    cases h
    exact .refl t
  | (key, value) :: rest, t, t', vs, h => by
    rw [evalPairs] at h
    obtain ⟨k, t₁, hk, h⟩ := bind_eq_ok.1 h
    obtain ⟨v, t₂, hv, h⟩ := bind_eq_ok.1 h
    obtain ⟨vs', hr, -⟩ := map_eq_ok.1 h
    exact (eval_quiet hk).trans ((eval_quiet hv).trans (evalPairs_quiet hr))
end

end Expr

end Formals
