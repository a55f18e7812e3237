/-!
# Windows

A `Window` is what lies between two cursors of a list. Taking an item at an end moves the cursor of
that end over it, and the item taken last there is put back by moving the cursor back; the list
never changes. `restore_take` says that putting back undoes taking.
-/

namespace Formals

/-- An end of a list. -/
inductive Side where
  | left
  | right
  deriving DecidableEq, Repr, Inhabited

/-- The other end. -/
def Side.flip : Side → Side
  | left => right
  | right => left

/-- The items of a list from position `head` up to, and without, position `tail`. -/
structure Window (α : Type) where
  items : List α
  head : Nat
  tail : Nat
  head_le : head ≤ tail
  tail_le : tail ≤ items.length
  deriving Repr

namespace Window

variable {α : Type}

/-- The window from which nothing is taken yet. -/
def ofList (items : List α) : Window α :=
  ⟨items, 0, items.length, Nat.zero_le _, Nat.le_refl _⟩

/-- How many items are left. -/
def length (w : Window α) : Nat := w.tail - w.head

/-- Whether nothing is left. -/
def isEmpty (w : Window α) : Bool := w.tail ≤ w.head

/-- The items that are left. -/
def remaining (w : Window α) : List α := (w.items.take w.tail).drop w.head

/-- Takes the item at an end. -/
def take (w : Window α) (side : Side) : Option (α × Window α) :=
  if h : w.head < w.tail then
    match side with
    | .left => some (w.items.get ⟨w.head, Nat.lt_of_lt_of_le h w.tail_le⟩,
        { w with head := w.head + 1, head_le := h })
    | .right => some (w.items.get ⟨w.tail - 1, by have := w.tail_le; omega⟩,
        { w with
          tail := w.tail - 1
          head_le := Nat.le_sub_one_of_lt h
          tail_le := Nat.le_trans (Nat.sub_le ..) w.tail_le })
  else none

/-- Puts back the item taken last at an end. Where nothing was taken there is nothing to put
back. -/
def restore (w : Window α) : Side → Window α
  | .left => { w with head := w.head - 1, head_le := Nat.le_trans (Nat.sub_le ..) w.head_le }
  | .right =>
    if h : w.tail < w.items.length then
      { w with tail := w.tail + 1, head_le := Nat.le_succ_of_le w.head_le, tail_le := h }
    else w

/-- Whether one of the items left has a property. -/
def any (w : Window α) (p : α → Bool) : Bool := w.remaining.any p

variable {w w' : Window α} {side : Side} {x : α}

@[simp] theorem length_ofList (items : List α) : (ofList items).length = items.length := rfl

@[simp] theorem remaining_ofList (items : List α) : (ofList items).remaining = items := by
  rw [remaining, ofList, List.take_length, List.drop_zero]

theorem length_remaining (w : Window α) : w.remaining.length = w.length := by
  rw [remaining, List.length_drop, List.length_take, Nat.min_eq_left w.tail_le, length]

theorem isEmpty_remaining (w : Window α) : w.remaining.isEmpty = w.isEmpty := by
  rw [Bool.eq_iff_iff, List.isEmpty_iff, ← List.length_eq_zero_iff, length_remaining, length,
    isEmpty, decide_eq_true_eq, Nat.sub_eq_zero_iff_le]

/-- What taking an item does: it moves one cursor over the item. -/
theorem take_eq_some (h : w.take side = some (x, w')) :
    w'.items = w.items ∧ w.head < w.tail ∧
      match side with
      | .left => w'.head = w.head + 1 ∧ w'.tail = w.tail ∧ w.items[w.head]? = some x
      | .right => w'.head = w.head ∧ w'.tail + 1 = w.tail ∧ w.items[w'.tail]? = some x := by
  unfold take at h
  split at h
  · rename_i hlt
    cases side with
    | left =>
      cases h
      exact ⟨rfl, hlt, rfl, rfl, by simp⟩
    | right =>
      cases h
      exact ⟨rfl, hlt, rfl, Nat.sub_add_cancel (Nat.zero_lt_of_lt hlt), by simp⟩
  · cases h

/-- Putting back what was taken gives the window from before. -/
theorem restore_take (h : w.take side = some (x, w')) : w'.restore side = w := by
  obtain ⟨items, head, tail, hhead, htail⟩ := w
  obtain ⟨items', head', tail', hhead', htail'⟩ := w'
  obtain ⟨rfl, hlt, h⟩ := take_eq_some h
  dsimp only at *
  cases side with
  | left =>
    obtain ⟨rfl, rfl, -⟩ := h
    rfl
  | right =>
    obtain ⟨rfl, rfl, -⟩ := h
    exact dif_pos htail

/-- An item is taken off an end of what is left. -/
theorem remaining_of_take (h : w.take side = some (x, w')) :
    (side = .left ∧ w.remaining = x :: w'.remaining) ∨
      (side = .right ∧ w.remaining = w'.remaining ++ [x]) := by
  obtain ⟨hitems, hlt, h⟩ := take_eq_some h
  simp only [remaining, hitems]
  cases side with
  | left =>
    obtain ⟨hhead, htail, hx⟩ := h
    rw [hhead, htail, List.drop_eq_getElem?_toList_append, List.getElem?_take_of_lt hlt, hx]
    exact .inl ⟨rfl, rfl⟩
  | right =>
    obtain ⟨hhead, htail, hx⟩ := h
    have hlast := w.tail_le
    rw [hhead, ← htail, List.take_add_one, hx,
      List.drop_append_of_le_length (by rw [List.length_take]; omega)]
    exact .inr ⟨rfl, rfl⟩

/-- Nothing can be taken exactly where nothing is left. -/
theorem take_eq_none_iff : w.take side = none ↔ w.remaining = [] := by
  constructor
  · intro h
    unfold take at h
    split at h
    · cases side <;> cases h
    · exact List.drop_eq_nil_of_le
        (Nat.le_trans (List.length_take_le ..) (Nat.le_of_not_lt ‹_›))
  · intro h
    cases ht : w.take side with
    | none => rfl
    | some taken =>
      rcases remaining_of_take ht with ⟨-, hw⟩ | ⟨-, hw⟩ <;> simp [h] at hw

/-- The first item that is left can be taken from the left. -/
theorem take_left {rest : List α} (h : w.remaining = x :: rest) :
    ∃ w', w.take .left = some (x, w') ∧ w'.remaining = rest := by
  cases ht : w.take .left with
  | none => cases h.symm.trans (take_eq_none_iff.1 ht)
  | some taken =>
    rcases remaining_of_take ht with ⟨-, hw⟩ | ⟨hside, -⟩
    · obtain ⟨rfl, rfl⟩ := List.cons.inj (h.symm.trans hw)
      exact ⟨_, rfl, rfl⟩
    · cases hside

/-- The last item that is left can be taken from the right. -/
theorem take_right {init : List α} (h : w.remaining = init ++ [x]) :
    ∃ w', w.take .right = some (x, w') ∧ w'.remaining = init := by
  cases ht : w.take .right with
  | none => simp [take_eq_none_iff.1 ht] at h
  | some taken =>
    rcases remaining_of_take ht with ⟨hside, -⟩ | ⟨-, hw⟩
    · cases hside
    · obtain ⟨rfl, hx⟩ := List.append_inj' (h.symm.trans hw) rfl
      obtain rfl := List.singleton_inj.1 hx
      exact ⟨_, rfl, rfl⟩

/-- Taking an item leaves one item less. -/
theorem length_of_take (h : w.take side = some (x, w')) :
    w.length = w'.length + 1 := by
  obtain ⟨-, hlt, h⟩ := take_eq_some h
  simp only [length]
  cases side <;> obtain ⟨hhead, htail, -⟩ := h <;> omega

end Window
end Formals
