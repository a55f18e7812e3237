import Mathlib.Data.List.Perm.Subperm
import Mathlib.Logic.Relation
import Formals.Machine.Inspect
import Formals.Proofs.Frames

/-!
# Values in values

The cells of a heap have values in them, and a value may come to contain itself. `Heap.inspect?`
writes a value out exactly if neither it nor a value in it does (`Heap.inspect?_isSome_iff`): one of
as many cells as there are would otherwise be met twice.

New cells, and cells that lose values, make no value contain itself, and neither does an instance
variable that is set to a value in which the object is not (`Heap.Proper.change`).
-/

namespace Formals

/-- Whether a value is the handle of a cell. -/
def Value.isCell : Value → Bool
  | .array _ | .hash _ | .object _ => true
  | _ => false

namespace Heap

/-- The values directly in a value. -/
def parts (h : Heap) : Value → List Value
  | .array handle => h.arrayAt handle
  | .hash handle => (h.hashAt handle).map (·.2)
  | .object handle => (h.objectAt handle).ivars.map (·.2)
  | _ => []

/-- One value contains another one, at whatever depth. -/
def Contains (h : Heap) : Value → Value → Prop := Relation.TransGen fun v w => w ∈ h.parts v

/-- One value is another one or contains it. -/
def Reaches (h : Heap) : Value → Value → Prop := Relation.ReflTransGen fun v w => w ∈ h.parts v

/-- Neither a value nor any value in it contains itself. -/
def Unlooped (h : Heap) (v : Value) : Prop := ∀ w, h.Reaches v w → ¬ h.Contains w w

/-- Whether a heap has the cell of a value. Other values need none. -/
def Has (h : Heap) : Value → Prop
  | .array handle => handle < h.arrays.size
  | .hash handle => handle < h.hashes.size
  | .object handle => handle < h.objects.size
  | _ => True

/-- A heap that has the cells of all values in it, and, if it is strict, no value that contains
itself. -/
structure Proper (strict : Prop) (h : Heap) : Prop where
  closed : ∀ v, ∀ w ∈ h.parts v, h.Has w
  acyclic : strict → ∀ v, ¬ h.Contains v v

/-- A proper heap that has all cells that an earlier one had. -/
structure Follows (strict : Prop) (h h' : Heap) : Prop where
  proper : h'.Proper strict
  has : ∀ v, h.Has v → h'.Has v

variable {h h' : Heap} {u v w : Value} {strict : Prop} {depth : Nat}

/-- A heap has every value without a cell. -/
theorem has_of_plain (hv : v.isCell = false) : h.Has v := by
  cases v with
  | array | hash | object => cases hv
  | _ => trivial

/-- Only a value with a cell has other values in it. -/
theorem isCell_of_mem_parts (hw : w ∈ h.parts v) : v.isCell = true := by
  cases v with
  | array | hash | object => rfl
  | _ => cases hw

/-- A proper heap follows itself. -/
theorem Follows.refl (hs : h.Proper strict) : h.Follows strict h := ⟨hs, fun _ => id⟩

/-- What follows a heap that follows another one follows that, so that the steps of a run add up. -/
theorem Follows.trans {h'' : Heap} (hf : h.Follows strict h') (hf' : h'.Follows strict h'') :
    h.Follows strict h'' :=
  ⟨hf'.proper, fun v hv => hf'.has v (hf.has v hv)⟩

/-- A heap without cells. -/
theorem proper_empty : Proper strict {} where
  closed v w hw := by cases v <;> cases hw
  acyclic _ v hloop := by
    obtain ⟨w, hw, -⟩ := Relation.TransGen.head'_iff.1 hloop
    cases v <;> cases hw

/-- A heap has what is in the values that it has. -/
theorem Proper.has_of_reaches (hs : h.Proper strict) (hv : h.Has v) (hw : h.Reaches v w) :
    h.Has w := by
  induction hw with
  | refl => exact hv
  | tail _ hpart _ => exact hs.closed _ _ hpart

/-! ## Writing values out -/

/-- A partial function is defined for a list if it is defined for each item. -/
theorem isSome_mapM {α β : Type} {f : α → Option β} {xs : List α} :
    (xs.mapM f).isSome ↔ ∀ x ∈ xs, (f x).isSome := by
  induction xs with
  | nil => simp
  | cons x xs ih =>
    rw [List.mapM_cons, List.forall_mem_cons, ← ih]
    cases f x with
    | none => simp
    | some y => cases xs.mapM f <;> simp

/-- What is written around a text does not decide whether there is one. -/
theorem isSome_bind_some {α β : Type} {a? : Option α} {f : α → β} :
    (a?.bind fun a => some (f a)).isSome = a?.isSome := by
  cases a? <;> rfl

/-- A value without a cell is written out at any depth. -/
theorem isSome_inspect_plain (hv : v.isCell = false) : (h.inspectWithin? depth v).isSome := by
  cases v with
  | array | hash | object => cases hv
  | bool b => cases b <;> simp [inspectWithin?]
  | _ => simp [inspectWithin?]

/-- A value with a cell is not written out at depth zero, where the descent stops. -/
theorem inspect_zero (hv : v.isCell = true) : h.inspectWithin? 0 v = none := by
  cases v with
  | array | hash | object => simp [inspectWithin?]
  | _ => cases hv

/-- A value can be written out if the values directly in it can, one level less deep. -/
theorem isSome_inspect_succ : (h.inspectWithin? (depth + 1) v).isSome ↔
    ∀ w ∈ h.parts v, (h.inspectWithin? depth w).isSome := by
  cases hv : v.isCell with
  | false =>
    refine iff_of_true (isSome_inspect_plain hv) fun w hw => ?_
    rw [isCell_of_mem_parts hw] at hv
    cases hv
  | true =>
    cases v with
    | array => simp [inspectWithin?, parts, isSome_bind_some, isSome_mapM]
    | hash | object =>
      simpa [inspectWithin?, parts, isSome_bind_some, isSome_mapM] using forall_comm
    | _ => cases hv

/-- A value in a value that can be written out can be written out with less depth. -/
theorem exists_lt_of_contains (hv : (h.inspectWithin? depth v).isSome) (hw : h.Contains v w) :
    ∃ less < depth, (h.inspectWithin? less w).isSome := by
  have hpart : ∀ {depth v w}, (h.inspectWithin? depth v).isSome → w ∈ h.parts v →
      ∃ less < depth, (h.inspectWithin? less w).isSome := by
    intro depth v w hv hw
    cases depth with
    | zero =>
      rw [inspect_zero (isCell_of_mem_parts hw)] at hv
      cases hv
    | succ depth => exact ⟨depth, Nat.lt_succ_self _, isSome_inspect_succ.1 hv w hw⟩
  induction hw with
  | single hw => exact hpart hv hw
  | tail _ hw ih =>
    obtain ⟨less, hless, hv⟩ := ih
    obtain ⟨least, hleast, hw⟩ := hpart hv hw
    exact ⟨least, Nat.lt_trans hleast hless, hw⟩

/-- A value that can be written out does not contain itself: it would be written out with less depth
each time around. -/
theorem not_contains_self (hv : (h.inspectWithin? depth v).isSome) : ¬ h.Contains v v := by
  induction depth using Nat.strongRecOn with
  | _ depth ih =>
    intro hloop
    obtain ⟨less, hless, hv⟩ := exists_lt_of_contains hv hloop
    exact ih less hless hv hloop

/-- What can be written out has no loop in it. -/
theorem unlooped_of_inspect (hv : (h.inspectWithin? depth v).isSome) : h.Unlooped v := by
  intro w hw
  rcases Relation.reflTransGen_iff_eq_or_transGen.1 hw with rfl | hw
  · exact not_contains_self hv
  · obtain ⟨_, _, hw⟩ := exists_lt_of_contains hv hw
    exact not_contains_self hw

/-- The values of all cells. -/
def cells (h : Heap) : List Value :=
  (List.range h.arrays.size).map .array ++ (List.range h.hashes.size).map .hash ++
    (List.range h.objects.size).map .object

/-- The value of each cell that a heap has is among those of all cells. -/
theorem mem_cells (hcell : v.isCell = true) (hv : h.Has v) : v ∈ h.cells := by
  cases v with
  | array | hash | object => simpa [cells, Has] using hv
  | _ => cases hcell

/-- There are as many cells as the size of the heap says, which is the depth that values are written
out with. -/
theorem length_cells : h.cells.length = h.size := by
  simp [cells, size, Nat.add_assoc]

/-- A value that is not looped is none of the cells around it. -/
theorem nodup_cons_around {around : List Value} (hnodup : around.Nodup)
    (haround : ∀ u ∈ around, h.Contains u v) (hunlooped : h.Unlooped v) : (v :: around).Nodup :=
  List.nodup_cons.2 ⟨fun hv => hunlooped v .refl (haround v hv), hnodup⟩

/-- The cells around a value are all different, and so the depth that is left for it is enough. -/
theorem isSome_inspect_inside (hs : h.Proper strict) {around : List Value} (hnodup : around.Nodup)
    (hcells : around ⊆ h.cells) (haround : ∀ u ∈ around, h.Contains u v) (hv : h.Has v)
    (hunlooped : h.Unlooped v) (hdepth : h.size ≤ around.length + depth) :
    (h.inspectWithin? depth v).isSome := by
  induction depth generalizing around v with
  | zero =>
    cases hcell : v.isCell with
    | false => exact isSome_inspect_plain hcell
    | true =>
      have hall : v :: around ⊆ h.cells := List.cons_subset.2 ⟨mem_cells hcell hv, hcells⟩
      have hlength := ((nodup_cons_around hnodup haround hunlooped).subperm hall).length_le
      rw [length_cells, List.length_cons] at hlength
      omega
  | succ depth ih =>
    refine isSome_inspect_succ.2 fun w hw => ?_
    refine ih (nodup_cons_around hnodup haround hunlooped) ?_ ?_ (hs.closed v w hw) ?_ ?_
    · exact List.cons_subset.2 ⟨mem_cells (isCell_of_mem_parts hw) hv, hcells⟩
    · exact List.forall_mem_cons.2 ⟨.single hw, fun u hu => (haround u hu).tail hw⟩
    · exact fun x hx => hunlooped x (.head hw hx)
    · rw [List.length_cons]
      omega

/-- **Writing values out.** A value that a heap has can be written out if and only if neither it nor
any value in it contains itself. The number of cells is enough as a depth. -/
theorem inspect?_isSome_iff (hs : h.Proper strict) (hv : h.Has v) :
    ((h.inspect? v).isSome ↔ h.Unlooped v) ∧
      ((∃ depth, (h.inspectWithin? depth v).isSome) ↔ h.Unlooped v) := by
  have hinspect : h.Unlooped v → (h.inspect? v).isSome := fun hunlooped =>
    isSome_inspect_inside hs List.nodup_nil (List.nil_subset _) (List.forall_mem_nil _) hv hunlooped
      (by simp)
  exact ⟨⟨unlooped_of_inspect, hinspect⟩,
    fun ⟨_, hdepth⟩ => unlooped_of_inspect hdepth, fun h => ⟨_, hinspect h⟩⟩

/-! ## Changes of a heap -/

section Changes

variable (u : Value) (added : List Value)

/-- What a value contains after values were added to what is in `u`, it contained before, or `u` was
in it and one of those values leads to it. -/
theorem Contains.of_change (hparts : ∀ v, ∀ w ∈ h'.parts v, w ∈ h.parts v ∨ v = u ∧ w ∈ added)
    (hback : ∀ w ∈ added, ¬ h.Reaches w u) (hvw : h'.Contains v w) :
    h.Contains v w ∨ h.Reaches v u ∧ ∃ x ∈ added, h.Reaches x w := by
  induction hvw with
  | single hw =>
    rcases hparts _ _ hw with hw | ⟨rfl, hw⟩
    · exact .inl (.single hw)
    · exact .inr ⟨.refl, _, hw, .refl⟩
  | tail _ hw ih =>
    rcases hparts _ _ hw, ih with ⟨hw | ⟨rfl, hw⟩, hvw | ⟨hvu, x, hx, hxw⟩⟩
    · exact .inl (hvw.tail hw)
    · exact .inr ⟨hvu, x, hx, hxw.tail hw⟩
    · exact .inr ⟨hvw.to_reflTransGen, _, hw, .refl⟩
    · exact absurd hxw (hback x hx)

/-- **Changes.** A heap stays proper if it has the values that are added to what is in a value, and,
if it is strict, they do not lead back to that value. -/
theorem Proper.change (hs : h.Proper strict) (hhas : ∀ v, h.Has v → h'.Has v)
    (hparts : ∀ v, ∀ w ∈ h'.parts v, w ∈ h.parts v ∨ v = u ∧ w ∈ added)
    (hadded : ∀ w ∈ added, h.Has w) (hback : strict → ∀ w ∈ added, ¬ h.Reaches w u) :
    h.Follows strict h' := by
  refine ⟨⟨fun v w hw => ?_, fun hstrict v hloop => ?_⟩, hhas⟩
  · rcases hparts v w hw with hw | ⟨-, hw⟩
    · exact hhas w (hs.closed v w hw)
    · exact hhas w (hadded w hw)
  · rcases hloop.of_change u added hparts (hback hstrict) with hloop | ⟨hvu, x, hx, hxv⟩
    · exact hs.acyclic hstrict v hloop
    · exact hback hstrict x hx (hxv.trans hvu)

/-- Nothing that a heap has leads to a cell that it does not have yet. -/
theorem Proper.new (hs : h.Proper strict) (hhas : ∀ v, h.Has v → h'.Has v) (hu : ¬ h.Has u)
    (hparts : ∀ v, ∀ w ∈ h'.parts v, w ∈ h.parts v ∨ v = u ∧ w ∈ added)
    (hadded : ∀ w ∈ added, h.Has w) : h.Follows strict h' :=
  hs.change u added hhas hparts hadded fun _ w hw hreaches =>
    hu (hs.has_of_reaches (hadded w hw) hreaches)

/-- A heap stays proper if values are taken out of a cell. -/
theorem Proper.less (hs : h.Proper strict) (hhas : ∀ v, h.Has v → h'.Has v)
    (hparts : ∀ v, ∀ w ∈ h'.parts v, w ∈ h.parts v) : h.Follows strict h' :=
  hs.change .nil [] hhas (fun v w hw => .inl (hparts v w hw)) (List.forall_mem_nil _)
    fun _ => List.forall_mem_nil _

end Changes

section Operations

variable {items : List Value} {entries : Entries Key Value} {object : Object} {handle : Nat}
  {name : String}

/-- A heap with a new array has the cells that it had. -/
theorem has_newArray (hv : h.Has v) : (h.newArray items).2.Has v := by
  cases v with
  | array handle => exact Nat.lt_of_lt_of_le hv (grows_newArray h items).arrays_le
  | _ => exact hv

/-- A heap with a new array has the array. -/
theorem has_array : (h.newArray items).2.Has (h.newArray items).1 := by
  simp [newArray, Has]

/-- A new array may have any values that the heap has: none of them leads to a cell that was not
there. -/
theorem follows_newArray (hs : h.Proper strict) (hitems : ∀ w ∈ items, h.Has w) :
    h.Follows strict (h.newArray items).2 := by
  refine hs.new (h.newArray items).1 items (fun _ => has_newArray) (Nat.lt_irrefl _)
    (fun v w hw => ?_) hitems
  cases v with
  | array handle =>
    by_cases hnew : handle = h.arrays.size
    · subst hnew
      rw [parts, arrayAt_newArray] at hw
      exact .inr ⟨rfl, hw⟩
    · have hold : (h.newArray items).2.arrayAt handle = h.arrayAt handle := by
        simp [newArray, arrayAt, Array.getElem?_push, hnew]
      rw [parts, hold] at hw
      exact .inl hw
  | _ => exact .inl hw

/-- A heap with a new hash has the cells that it had. -/
theorem has_newHash (hv : h.Has v) : (h.newHash entries).2.Has v := by
  cases v with
  | hash handle => exact Nat.lt_of_lt_of_le hv (grows_newHash h entries).hashes_le
  | _ => exact hv

/-- A heap with a new hash has the hash. -/
theorem has_hash : (h.newHash entries).2.Has (h.newHash entries).1 := by
  simp [newHash, Has]

/-- A new hash may have any values that the heap has. -/
theorem follows_newHash (hs : h.Proper strict) (hentries : ∀ e ∈ entries, h.Has e.2) :
    h.Follows strict (h.newHash entries).2 := by
  refine hs.new (h.newHash entries).1 (entries.map (·.2)) (fun _ => has_newHash)
    (Nat.lt_irrefl _) (fun v w hw => ?_) (List.forall_mem_map.2 hentries)
  cases v with
  | hash handle =>
    by_cases hnew : handle = h.hashes.size
    · subst hnew
      rw [parts, hashAt_newHash] at hw
      exact .inr ⟨rfl, hw⟩
    · have hold : (h.newHash entries).2.hashAt handle = h.hashAt handle := by
        simp [newHash, hashAt, Array.getElem?_push, hnew]
      rw [parts, hold] at hw
      exact .inl hw
  | _ => exact .inl hw

/-- A heap with a new object has the cells that it had. -/
theorem has_newObject (hv : h.Has v) : (h.newObject object).2.Has v := by
  cases v with
  | object handle => exact Nat.lt_trans hv (by simp [newObject])
  | _ => exact hv

/-- A heap with a new object has the object. -/
theorem has_object : (h.newObject object).2.Has (h.newObject object).1 := by
  simp [newObject, Has]

/-- A new object may have any values that the heap has in its instance variables. -/
theorem follows_newObject (hs : h.Proper strict) (hivars : ∀ e ∈ object.ivars, h.Has e.2) :
    h.Follows strict (h.newObject object).2 := by
  refine hs.new (h.newObject object).1 (object.ivars.map (·.2)) (fun _ => has_newObject)
    (Nat.lt_irrefl _) (fun v w hw => ?_) (List.forall_mem_map.2 hivars)
  cases v with
  | object handle =>
    by_cases hnew : handle = h.objects.size
    · subst hnew
      have hown : (h.newObject object).2.objectAt h.objects.size = object := by
        simp [newObject, objectAt]
      rw [parts, hown] at hw
      exact .inr ⟨rfl, hw⟩
    · have hold : (h.newObject object).2.objectAt handle = h.objectAt handle := by
        simp [newObject, objectAt, Array.getElem?_push, hnew]
      rw [parts, hold] at hw
      exact .inl hw
  | _ => exact .inl hw

/-- Other elements in an array leave the cells that the heap has. -/
theorem has_setArray (hv : h.Has v) : (h.setArray handle items).Has v := by
  cases v with
  | array a => exact Nat.lt_of_lt_of_le hv (keeps_setArray h handle items).arrays_le
  | _ => exact hv

/-- An array may lose elements. -/
theorem follows_setArray (hs : h.Proper strict) (hitems : items ⊆ h.arrayAt handle) :
    h.Follows strict (h.setArray handle items) := by
  refine hs.less (fun _ => has_setArray) fun v w hw => ?_
  cases v with
  | array a =>
    simp only [parts, setArray, arrayAt, Array.getD_eq_getD_getElem?,
      Array.getElem?_setIfInBounds] at hw hitems ⊢
    split at hw
    · rename_i ha
      subst ha
      split at hw
      · exact hitems hw
      · cases hw
    · exact hw
  | _ => exact hw

/-- Other entries in a hash leave the cells that the heap has. -/
theorem has_setHash (hv : h.Has v) : (h.setHash handle entries).Has v := by
  cases v with
  | hash a => exact Nat.lt_of_lt_of_le hv (keeps_setHash h handle entries).hashes_le
  | _ => exact hv

/-- A hash may lose entries. -/
theorem follows_setHash (hs : h.Proper strict) (hentries : entries ⊆ h.hashAt handle) :
    h.Follows strict (h.setHash handle entries) := by
  refine hs.less (fun _ => has_setHash) fun v w hw => ?_
  cases v with
  | hash a =>
    simp only [parts, setHash, hashAt, Array.getD_eq_getD_getElem?,
      Array.getElem?_setIfInBounds] at hw hentries ⊢
    split at hw
    · rename_i ha
      subst ha
      split at hw
      · exact List.map_subset _ hentries hw
      · cases hw
    · exact hw
  | _ => exact hw

/-- An instance variable that is set leaves the cells that the heap has. -/
theorem has_setVariable (hv : h.Has v) : (h.setVariable handle name w).Has v := by
  cases v with
  | object a => simpa [setVariable, Has] using hv
  | _ => exact hv

/-- Setting an instance variable adds its value to the object, and to no other value. -/
theorem parts_setVariable (hw : w ∈ (h.setVariable handle name u).parts v) :
    w ∈ h.parts v ∨ v = .object handle ∧ w ∈ [u] := by
  cases v with
  | object a =>
    simp only [parts, setVariable, objectAt, Array.getD_eq_getD_getElem?,
      Array.getElem?_setIfInBounds] at hw ⊢
    split at hw
    · rename_i ha
      subst ha
      split at hw
      · obtain ⟨e, he, rfl⟩ := List.mem_map.1 hw
        rcases Entries.mem_insert he with rfl | he
        · exact .inr ⟨rfl, List.mem_singleton_self _⟩
        · exact .inl (List.mem_map_of_mem he)
      · cases hw
    · exact .inl hw
  | _ => exact .inl hw

/-- An instance variable may be set to a value in which the object is not. -/
theorem follows_setVariable (hs : h.Proper strict) (hv : h.Has v)
    (hback : strict → ¬ h.Reaches v (.object handle)) :
    h.Follows strict (h.setVariable handle name v) :=
  hs.change (.object handle) [v] (fun _ => has_setVariable) (fun _ _ => parts_setVariable)
    (List.forall_mem_singleton.2 hv) fun hstrict => List.forall_mem_singleton.2 (hback hstrict)

/-- Setting an instance variable of an object leaves what is in the other values. -/
theorem parts_setVariable_of_ne (hv : v ≠ .object handle) :
    (h.setVariable handle name w).parts v = h.parts v := by
  cases v with
  | object a =>
    have ha : handle ≠ a := fun ha => hv (congrArg Value.object ha.symm)
    simp [parts, setVariable, objectAt, ha]
  | _ => rfl

/-- The value of an instance variable that is set is in the object, if the heap has that. -/
theorem mem_parts_setVariable (ho : h.Has (.object handle)) :
    v ∈ (h.setVariable handle name v).parts (.object handle) := by
  have hlt : handle < h.objects.size := ho
  have hvalue : (name, v) ∈ (h.objectAt handle).ivars.insert name v :=
    Entries.mem_of_get? (by rw [Entries.get?_insert, if_pos rfl])
  have hobject : (h.setVariable handle name v).objectAt handle =
      { h.objectAt handle with ivars := (h.objectAt handle).ivars.insert name v } := by
    simp [setVariable, objectAt, hlt]
  rw [parts, hobject]
  exact List.mem_map_of_mem hvalue

/-- The way to an object goes on until it arrives there for the first time, and up to there no
instance variable of the object is on it. -/
theorem reaches_setVariable (hv : h.Reaches v (.object handle)) :
    (h.setVariable handle name w).Reaches v (.object handle) := by
  induction hv using Relation.ReflTransGen.head_induction_on with
  | refl => exact .refl
  | @head a b hstep _ ih =>
    by_cases ha : a = .object handle
    · rw [ha]
      exact .refl
    · refine .head ?_ ih
      rw [parts_setVariable_of_ne ha]
      exact hstep

/-- An object contains itself once it has an instance variable with a value that it is in. -/
theorem loop_setVariable (ho : h.Has (.object handle)) (hback : h.Reaches v (.object handle)) :
    (h.setVariable handle name v).Contains (.object handle) (.object handle) :=
  .head' (mem_parts_setVariable ho) (reaches_setVariable hback)

end Operations

end Heap

end Formals
