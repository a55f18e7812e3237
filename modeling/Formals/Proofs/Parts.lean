import Formals.Json.Value

/-!
# Parts of documents

A document has parts: the items of its arrays, the values of its members, and the parts of those.
Much of what is said of a document is said of each of its parts (`Json.Throughout`): that it is not
broken, that its members have different names, that its number is one of double precision. Sorting
moves the members of objects and drops those whose names are repeated, and so keeps what does not
depend on them (`Json.Throughout.normalize`).
-/

namespace Formals.Json

/-! ## Depth and sorting -/

/-- Items are as deep as the deepest of them. -/
theorem depthItems_le_iff {items : List Json} {d : Nat} :
    depthItems items ≤ d ↔ ∀ j ∈ items, j.depth ≤ d := by
  induction items with
  | nil => simp [depthItems]
  | cons j rest ih => rw [depthItems, Nat.max_le, ih, List.forall_mem_cons]

/-- Members are as deep as the deepest of their values. -/
theorem depthMembers_le_iff {members : List (String × Json)} {d : Nat} :
    depthMembers members ≤ d ↔ ∀ m ∈ members, m.2.depth ≤ d := by
  induction members with
  | nil => simp [depthMembers]
  | cons m rest ih => rw [depthMembers, Nat.max_le, ih, List.forall_mem_cons]

/-- What is among the members after one is put there, is that one or was there before. The converse
fails, since a member of the same name is replaced. -/
theorem mem_insertMember {name : String} {value : Json} {members : List (String × Json)}
    {m : String × Json} (h : m ∈ insertMember name value members) :
    m = (name, value) ∨ m ∈ members := by
  induction members with
  | nil => exact .inl (List.mem_singleton.1 h)
  | cons first rest ih =>
    obtain ⟨n, v⟩ := first
    rw [insertMember] at h
    split at h
    · exact (List.mem_cons.1 h).imp_right (List.mem_cons_of_mem _)
    · split at h
      · exact List.mem_cons.1 h
      · rcases List.mem_cons.1 h with h | h
        · exact .inr (h ▸ List.mem_cons_self)
        · exact (ih h).imp_right (List.mem_cons_of_mem _)

/-- Members whose names ascend. -/
def Ascending (members : List (String × Json)) : Prop := members.Pairwise fun m n => m.1 < n.1

/-- A member is put in its place: names that ascend still do. -/
theorem Ascending.insertMember {members : List (String × Json)} (h : Ascending members)
    (name : String) (value : Json) : Ascending (insertMember name value members) := by
  induction members with
  | nil => exact List.pairwise_singleton ..
  | cons first rest ih =>
    obtain ⟨n, v⟩ := first
    obtain ⟨hfirst, hrest⟩ := List.pairwise_cons.1 h
    rw [Json.insertMember]
    split
    case isTrue heq =>
      subst heq
      exact List.pairwise_cons.2 ⟨hfirst, hrest⟩
    case isFalse hne =>
      split
      case isTrue hlt =>
        refine List.pairwise_cons.2 ⟨fun m hm => ?_, h⟩
        rcases List.mem_cons.1 hm with rfl | hm
        · exact hlt
        · exact String.lt_trans hlt (hfirst m hm)
      case isFalse hge =>
        refine List.pairwise_cons.2 ⟨fun m hm => ?_, ih hrest⟩
        rcases mem_insertMember hm with rfl | hm
        · exact Classical.byContradiction fun hlt =>
            hne (String.le_antisymm (String.not_lt.1 hlt) (String.not_lt.1 hge))
        · exact hfirst m hm

/-- Sorted members are put together one by one. So what holds of no members and is kept when one of
the members is put among others holds of the sorted members. -/
theorem sortMembers_induction {motive : List (String × Json) → Prop}
    {members : List (String × Json)}
    (nil : motive []) (insert : ∀ m ∈ members, ∀ sorted, motive sorted →
      motive (insertMember m.1 m.2 sorted)) : motive (sortMembers members) := by
  have hfold : ∀ rest : List (String × Json), (∀ m ∈ rest, m ∈ members) → ∀ sorted, motive sorted →
      motive (rest.foldl (fun sorted m => insertMember m.1 m.2 sorted) sorted) := by
    intro rest hrest
    induction rest with
    | nil => exact fun _ h => h
    | cons m rest ih =>
      intro sorted h
      exact ih (fun n hn => hrest n (List.mem_cons_of_mem _ hn)) _
        (insert m (hrest m List.mem_cons_self) sorted h)
  exact hfold members (fun _ h => h) [] nil

/-- The names ascend once the members are sorted: each member is put where its name belongs among
those that are sorted already. -/
theorem ascending_sortMembers (members : List (String × Json)) : Ascending (sortMembers members) :=
  sortMembers_induction List.Pairwise.nil fun m _ _ h => h.insertMember m.1 m.2

/-- Sorting finds no other members. -/
theorem mem_sortMembers {members : List (String × Json)} {m : String × Json}
    (h : m ∈ sortMembers members) : m ∈ members := by
  refine sortMembers_induction (motive := fun sorted => ∀ m ∈ sorted, m ∈ members) nofun
    (fun n hn sorted hsorted m hm => ?_) m h
  rcases mem_insertMember hm with rfl | hm
  · exact hn
  · exact hsorted m hm

/-- Items are sorted one by one. The definition descends through them by itself, since documents
hold lists of documents. -/
theorem normalizeItems_eq_map (items : List Json) :
    normalizeItems items = items.map normalize := by
  induction items with
  | nil => rfl
  | cons j rest ih => rw [normalizeItems, ih, List.map_cons]

/-- The values of members are sorted one by one, and the names stay with their values. -/
theorem normalizeMembers_eq_map (members : List (String × Json)) :
    normalizeMembers members = members.map fun m => (m.1, m.2.normalize) := by
  induction members with
  | nil => rfl
  | cons m rest ih => rw [normalizeMembers, ih, List.map_cons]

/-- An object is sorted by sorting its values and then its members by their names. -/
theorem normalize_obj (members : List (String × Json)) : (obj members).normalize =
    obj (sortMembers (members.map fun m => (m.1, m.2.normalize))) := by
  rw [normalize, normalizeMembers_eq_map]

/-- An array is sorted by sorting its items, which stay where they are. -/
theorem normalize_arr (items : List Json) : (arr items).normalize = arr (items.map normalize) := by
  rw [normalize, normalizeItems_eq_map]

/-- What holds of a document if it holds of its items and of the values of its members holds of
every document. A document without such parts is as it is when it is sorted. -/
theorem parts_induction {motive : Json → Prop}
    (arr : ∀ items, (∀ j ∈ items, motive j) → motive (arr items))
    (obj : ∀ members, (∀ m ∈ members, motive m.2) → motive (obj members))
    (leaf : ∀ j, j.normalize = j → j.depth = 0 → motive j) (j : Json) : motive j := by
  refine normalize.induct motive (fun members => ∀ m ∈ members, motive m.2)
    (fun items => ∀ j ∈ items, motive j) arr obj (fun j harr hobj => ?_) nofun
    (fun j rest hj hrest => List.forall_mem_cons.2 ⟨hj, hrest⟩) nofun
    (fun name j rest hj hrest => List.forall_mem_cons.2 ⟨hj, hrest⟩) j
  cases j with
  | arr items => exact absurd rfl (harr items)
  | obj members => exact absurd rfl (hobj members)
  | _ => exact leaf _ rfl rfl

/-! ## What holds of all parts -/

/-- A document is a part of itself, and what is a part of an item or of the value of a member is a
part of the array or of the object. -/
inductive PartOf (k : Json) : Json → Prop
  | self : PartOf k k
  | item {items : List Json} {j : Json} : j ∈ items → PartOf k j → PartOf k (arr items)
  | member {members : List (String × Json)} {m : String × Json} :
    m ∈ members → PartOf k m.2 → PartOf k (obj members)

/-- Something holds of all parts of a document. -/
def Throughout (P : Json → Prop) (j : Json) : Prop := ∀ k, PartOf k j → P k

section

variable {P Q : Json → Prop} {j : Json}

/-- What holds throughout a document holds of the document. -/
theorem Throughout.own (h : j.Throughout P) : P j := h j .self

/-- What holds throughout an array holds of it and throughout its items. -/
@[simp] theorem throughout_arr {items : List Json} :
    (arr items).Throughout P ↔ P (arr items) ∧ ∀ j ∈ items, j.Throughout P := by
  refine ⟨fun h => ⟨h.own, fun j hj k hk => h k (.item hj hk)⟩, fun ⟨hown, hitems⟩ k hk => ?_⟩
  cases hk with
  | self => exact hown
  | item hj hk => exact hitems _ hj k hk

/-- What holds throughout an object holds of it and throughout the values of its members. -/
@[simp] theorem throughout_obj {members : List (String × Json)} :
    (obj members).Throughout P ↔ P (obj members) ∧ ∀ m ∈ members, m.2.Throughout P := by
  refine ⟨fun h => ⟨h.own, fun m hm k hk => h k (.member hm hk)⟩, fun ⟨hown, hvalues⟩ k hk => ?_⟩
  cases hk with
  | self => exact hown
  | member hm hk => exact hvalues _ hm k hk

/-- A document that is neither array nor object has no other parts. -/
theorem throughout_leaf (hj : j.depth = 0) : j.Throughout P ↔ P j := by
  refine ⟨Throughout.own, fun h k hk => ?_⟩
  cases hk with
  | self => exact h
  | item | member => cases hj

@[simp] theorem throughout_null : null.Throughout P ↔ P null := throughout_leaf rfl

@[simp] theorem throughout_bool (b : Bool) : (bool b).Throughout P ↔ P (bool b) :=
  throughout_leaf rfl

@[simp] theorem throughout_int (n : Int) : (int n).Throughout P ↔ P (int n) := throughout_leaf rfl

@[simp] theorem throughout_real (negative : Bool) (x : Double) :
    (real negative x).Throughout P ↔ P (real negative x) := throughout_leaf rfl

@[simp] theorem throughout_str (s : String) : (str s).Throughout P ↔ P (str s) :=
  throughout_leaf rfl

@[simp] theorem throughout_broken : broken.Throughout P ↔ P broken := throughout_leaf rfl

/-- **Sorting.** What holds throughout a document still does when it is sorted, provided that it
does not depend on the parts of arrays and that objects whose names ascend have it. Of the documents
without parts something weaker may be asked. -/
theorem Throughout.normalize (leaf : ∀ k, k.depth = 0 → P k → Q k) (arr : ∀ items, Q (arr items))
    (obj : ∀ members, Ascending members → Q (obj members)) (h : j.Throughout P) :
    j.normalize.Throughout Q := by
  induction j using parts_induction with
  | arr items ih =>
    rw [normalize_arr, throughout_arr]
    refine ⟨arr _, fun k hk => ?_⟩
    obtain ⟨item, hitem, rfl⟩ := List.mem_map.1 hk
    exact ih item hitem ((throughout_arr.1 h).2 item hitem)
  | obj members ih =>
    rw [normalize_obj, throughout_obj]
    refine ⟨obj _ (ascending_sortMembers _), fun k hk => ?_⟩
    obtain ⟨m, hm, rfl⟩ := List.mem_map.1 (mem_sortMembers hk)
    exact ih m hm ((throughout_obj.1 h).2 m hm)
  | leaf j hsame hdepth =>
    rw [hsame]
    exact (throughout_leaf hdepth).2 (leaf j hdepth h.own)

end

/-! ## Soundness -/

/-- Items are sound if each of them is. The check descends through them by itself, as sorting does.
-/
theorem soundItems_eq_all (items : List Json) : soundItems items = items.all sound := by
  induction items with
  | nil => rfl
  | cons j rest ih => rw [soundItems, ih, List.all_cons]

/-- Members are sound if the value of each of them is; of their names nothing is asked here. -/
theorem soundMembers_eq_all (members : List (String × Json)) :
    soundMembers members = members.all fun m => m.2.sound := by
  induction members with
  | nil => rfl
  | cons m rest ih => rw [soundMembers, ih, List.all_cons]

/-- A document is sound if no part of it is broken. -/
theorem sound_iff {j : Json} : j.sound = true ↔ j.Throughout (· ≠ broken) := by
  induction j using parts_induction with
  | arr items ih =>
    rw [sound, soundItems_eq_all, List.all_eq_true, throughout_arr, forall₂_congr ih]
    exact (and_iff_right nofun).symm
  | obj members ih =>
    rw [sound, soundMembers_eq_all, List.all_eq_true, throughout_obj, forall₂_congr ih]
    exact (and_iff_right nofun).symm
  | leaf j _ hdepth =>
    rw [throughout_leaf hdepth]
    cases j with
    | arr | obj => cases hdepth
    | broken => exact ⟨nofun, fun h => absurd rfl h⟩
    | _ => exact ⟨nofun, fun _ => rfl⟩

/-- An array is sound if its items are. -/
theorem sound_arr {items : List Json} :
    (arr items).sound = true ↔ ∀ j ∈ items, j.sound = true := by
  simp only [sound_iff, throughout_arr, ne_eq, reduceCtorEq, not_false_eq_true, true_and]

/-- An object is sound if the values of its members are. -/
theorem sound_obj {members : List (String × Json)} :
    (obj members).sound = true ↔ ∀ m ∈ members, m.2.sound = true := by
  simp only [sound_iff, throughout_obj, ne_eq, reduceCtorEq, not_false_eq_true, true_and]

/-- Sorting breaks nothing. -/
theorem sound_normalize {j : Json} (h : j.sound = true) : j.normalize.sound = true :=
  sound_iff.2 ((sound_iff.1 h).normalize (fun _ _ hk => hk) nofun fun _ _ => nofun)

end Formals.Json
