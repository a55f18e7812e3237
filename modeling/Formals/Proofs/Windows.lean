import Formals.Binding.Window

/-!
# Windows as double-ended queues

Whoever uses a window takes items at its ends, and puts back only what the call before took
(`UndoesTakes`). Such calls find in a window what they find in a plain list that loses its ends and
can go back by one call (`Deque`), and the cursors count what was taken and not put back, so that
they neither cross nor leave the list (`window_is_deque`).
-/

namespace Formals.Window

variable {α : Type}

/-! ## Calls -/

/-- A call takes the item at an end, or puts back the one that was taken there. -/
inductive Call where
  | take (side : Side)
  | restore (side : Side)
  deriving DecidableEq, Repr

/-- What calls give, each beside the call, and the state after them. -/
def Call.run {σ : Type} (act : σ → Call → Option α × σ) (s : σ) :
    List Call → List (Call × Option α) × σ
  | [] => ([], s)
  | c :: calls =>
    let next := act s c
    let later := run act next.2 calls
    ((c, next.1) :: later.1, later.2)

/-- What a call gives, and the window after it. -/
def call (w : Window α) : Call → Option α × Window α
  | .take side =>
    match w.take side with
    | some (x, w') => (some x, w')
    | none => (none, w)
  | .restore side => (none, w.restore side)

/-- The end at which taking takes an item, if it takes one. -/
def taking? (w : Window α) (side : Side) : Option Side := (w.take side).map fun _ => side

/-- Every item is put back directly after it was taken, and where it was taken. The call before the
first one took an item at the end `last`, if it took one. -/
def UndoesTakes (w : Window α) (last : Option Side) : List Call → Prop
  | [] => True
  | .take side :: calls => UndoesTakes (w.call (.take side)).2 (w.taking? side) calls
  | .restore side :: calls => last = some side ∧ UndoesTakes (w.restore side) none calls

/-- A plain list as a double-ended queue: what it holds, and what it held before the last call. -/
structure Deque (α : Type) where
  items : List α
  before : List α

/-- What a call gives, and the queue after it: an end is removed, or the last call is undone. -/
def Deque.call (q : Deque α) : Call → Option α × Deque α
  | .take .left => (q.items.head?, ⟨q.items.tail, q.items⟩)
  | .take .right => (q.items.getLast?, ⟨q.items.dropLast, q.items⟩)
  | .restore _ => (none, ⟨q.before, q.before⟩)

/-- What is taken at an end and not put back, in the order in which it was taken, after one more
call. -/
def keepAt (side : Side) (taken : List α) : Call × Option α → List α
  | (.take s, item) => if s = side then taken ++ item.toList else taken
  | (.restore s, _) => if s = side then taken.dropLast else taken

/-- What was taken at an end and not put back. -/
def takenAt (side : Side) (log : List (Call × Option α)) : List α := log.foldl (keepAt side) []

/-! ## What lies outside -/

/-- The items that a window has left behind at an end, the one taken last at the end. -/
def outside (w : Window α) : Side → List α
  | .left => w.items.take w.head
  | .right => (w.items.drop w.tail).reverse

/-- A window and what lies outside of it make up the list. -/
theorem outside_append_remaining (w : Window α) :
    w.outside .left ++ w.remaining ++ (w.outside .right).reverse = w.items := by
  have hleft : w.items.take w.head = (w.items.take w.tail).take w.head := by
    rw [List.take_take, Nat.min_eq_left w.head_le]
  rw [outside, outside, List.reverse_reverse, remaining, hleft, List.take_append_drop,
    List.take_append_drop]

/-- As many items lie outside on the left as the left cursor says. -/
theorem length_outside_left (w : Window α) : (w.outside .left).length = w.head := by
  rw [outside, List.length_take, Nat.min_eq_left (Nat.le_trans w.head_le w.tail_le)]

/-- As many items lie outside on the right as there are from the right cursor on. -/
theorem length_outside_right (w : Window α) :
    w.tail + (w.outside .right).length = w.items.length := by
  rw [outside, List.length_reverse, List.length_drop, Nat.add_sub_cancel' w.tail_le]

variable {w w' : Window α} {side : Side} {x : α}

/-- An item that is taken lies outside then. -/
theorem outside_of_take (h : w.take side = some (x, w')) (s : Side) :
    w'.outside s = if side = s then w.outside s ++ [x] else w.outside s := by
  obtain ⟨hitems, -, h⟩ := take_eq_some h
  cases side with
  | left =>
    obtain ⟨hhead, htail, hx⟩ := h
    cases s with
    | left => simp [outside, hitems, hhead, List.take_add_one, hx]
    | right => simp [outside, hitems, htail]
  | right =>
    obtain ⟨hhead, htail, hx⟩ := h
    cases s with
    | left => simp [outside, hitems, hhead]
    | right => simp [outside, hitems, htail, List.drop_eq_getElem?_toList_append (i := w'.tail), hx]

/-- The cursor of an end has moved, so that it can move back without leaving the list. -/
def Moved (w : Window α) : Side → Prop
  | .left => 0 < w.head
  | .right => w.tail < w.items.length

/-- The cursor that has taken an item has moved. -/
theorem moved_of_take (h : w.take side = some (x, w')) : w'.Moved side := by
  obtain ⟨hitems, -, h⟩ := take_eq_some h
  have htail := w.tail_le
  cases side with
  | left =>
    rw [Moved, h.1]
    exact Nat.succ_pos _
  | right =>
    rw [Moved, hitems]
    omega

/-! ## One call -/

/-- No call changes the list below a window. -/
theorem items_call (w : Window α) (c : Call) : (w.call c).2.items = w.items := by
  cases c with
  | take side =>
    rw [call]
    cases h : w.take side with
    | none => rfl
    | some taken => exact (take_eq_some h).1
  | restore side =>
    cases side with
    | left => rfl
    | right =>
      rw [call, restore]
      split <;> rfl

/-- Taking an item from a queue that holds what a window holds. -/
theorem Deque.call_of_take (h : w.take side = some (x, w')) (before : List α) :
    Deque.call ⟨w.remaining, before⟩ (.take side) = (some x, ⟨w'.remaining, w.remaining⟩) := by
  rcases remaining_of_take h with ⟨rfl, hw⟩ | ⟨rfl, hw⟩
  · simp [Deque.call, hw]
  · simp [Deque.call, hw]

/-- Where a window has nothing to take, neither has the queue. -/
theorem Deque.call_of_exhausted (h : w.take side = none) (before : List α) :
    Deque.call ⟨w.remaining, before⟩ (.take side) = (none, ⟨w.remaining, w.remaining⟩) := by
  rw [take_eq_none_iff.1 h]
  cases side <;> rfl

/-- A window holds what a queue holds, and where the last call took an item, undoing it leads both
back to the same items. -/
structure Matches (last : Option Side) (w : Window α) (q : Deque α) : Prop where
  remaining : w.remaining = q.items
  undo : ∀ side ∈ last, ∃ (w₀ : Window α) (x : α),
    w₀.take side = some (x, w) ∧ w₀.remaining = q.before

variable {q : Deque α} {last : Option Side}

/-- Taking an item finds the same in a window and in a queue. -/
theorem Matches.take (h : Matches last w q) (side : Side) :
    (w.call (.take side)).1 = (q.call (.take side)).1 ∧
      Matches (w.taking? side) (w.call (.take side)).2 (q.call (.take side)).2 ∧
      ∀ s, (w.call (.take side)).2.outside s =
        keepAt s (w.outside s) (.take side, (w.call (.take side)).1) := by
  obtain ⟨items, before⟩ := q
  obtain rfl : w.remaining = items := h.remaining
  rw [call, taking?]
  cases ht : w.take side with
  | none =>
    rw [Deque.call_of_exhausted ht]
    exact ⟨rfl, ⟨rfl, nofun⟩, fun s => by simp [keepAt]⟩
  | some taken =>
    obtain ⟨x, w'⟩ := taken
    rw [Deque.call_of_take ht]
    refine ⟨rfl, ⟨rfl, ?_⟩, fun s => by simp [keepAt, outside_of_take ht]⟩
    intro s hs
    obtain rfl : side = s := Option.some.inj hs
    exact ⟨w, x, ht, rfl⟩

/-- Putting back an item that was just taken undoes the last call of a queue. -/
theorem Matches.restore (h : Matches (some side) w q) :
    Matches none (w.restore side) (q.call (.restore side)).2 ∧
      ∀ s, (w.restore side).outside s = keepAt s (w.outside s) (.restore side, none) := by
  obtain ⟨w₀, x, ht, hbefore⟩ := h.undo side rfl
  rw [restore_take ht]
  refine ⟨⟨hbefore, nofun⟩, fun s => ?_⟩
  rw [keepAt, outside_of_take ht]
  split
  · rw [List.dropLast_concat]
  · rfl

/-! ## All calls -/

/-- Calls find the same in a window and in a queue, and leave the same in both. -/
theorem Matches.run {calls : List Call} (h : Matches last w q) (hcalls : UndoesTakes w last calls) :
    (Call.run call w calls).1 = (Call.run Deque.call q calls).1 ∧
      (Call.run call w calls).2.remaining = (Call.run Deque.call q calls).2.items ∧
      (Call.run call w calls).2.items = w.items ∧
      ∀ side, (Call.run call w calls).1.foldl (keepAt side) (w.outside side) =
        (Call.run call w calls).2.outside side := by
  induction calls generalizing last w q with
  | nil => exact ⟨rfl, h.remaining, rfl, fun _ => rfl⟩
  | cons c calls ih =>
    have hitems := items_call w c
    cases c with
    | take side =>
      obtain ⟨hgiven, hnext, houtside⟩ := h.take side
      obtain ⟨hlog, hremaining, hlist, hkeep⟩ := ih hnext hcalls
      refine ⟨?_, hremaining, hlist.trans hitems, fun s => ?_⟩
      · simp only [Call.run, hgiven, hlog]
      · simp only [Call.run, List.foldl_cons, ← houtside, hkeep]
    | restore side =>
      obtain ⟨rfl, hcalls⟩ := hcalls
      obtain ⟨hnext, houtside⟩ := h.restore
      obtain ⟨hlog, hremaining, hlist, hkeep⟩ := ih hnext hcalls
      refine ⟨?_, hremaining, hlist.trans hitems, fun s => ?_⟩
      · simp only [Call.run, call, Deque.call, hlog]
      · simp only [Call.run, call, List.foldl_cons, ← houtside, hkeep]

/-- **Windows.** After calls that put back only what the call before took, the list is the same, and
the cursors stand in it one behind the other, as far from its ends as the number of items taken
there and not put back. Every call gave what it gives in a plain list, which the items left are, and
there are as many as the window says. From here on nothing can be taken only if nothing is left, and
the cursor that takes an item can move back over it, which leads back to the same window. What was
taken from the left, what is left, and what was taken from the right, the last one first, is the
whole list. -/
theorem window_is_deque {items : List α} {calls : List Call}
    (h : UndoesTakes (ofList items) none calls) :
    let log := (Call.run call (ofList items) calls).1
    let w := (Call.run call (ofList items) calls).2
    let plain := Call.run Deque.call ⟨items, items⟩ calls
    (w.items = items ∧ w.head ≤ w.tail ∧ w.tail ≤ items.length) ∧
      (w.head = (takenAt .left log).length ∧
        w.tail + (takenAt .right log).length = items.length) ∧
      log = plain.1 ∧ w.remaining = plain.2.items ∧
      w.length = w.remaining.length ∧ w.isEmpty = w.remaining.isEmpty ∧
      (∀ side, w.take side = none ↔ w.remaining = []) ∧
      (∀ side x w', w.take side = some (x, w') → w'.Moved side ∧ w'.restore side = w) ∧
      takenAt .left log ++ w.remaining ++ (takenAt .right log).reverse = items := by
  intro log w plain
  have hstart : Matches none (ofList items) (⟨items, items⟩ : Deque α) :=
    ⟨remaining_ofList items, nofun⟩
  obtain ⟨hlog, hremaining, hitems, hkeep⟩ := hstart.run h
  have hleft : takenAt .left log = w.outside .left := hkeep .left
  have hright : takenAt .right log = w.outside .right := by
    rw [← hkeep .right, outside, ofList, List.drop_length]
    rfl
  have hitems : w.items = items := hitems
  rw [hleft, hright]
  refine ⟨⟨hitems, w.head_le, hitems ▸ w.tail_le⟩, ⟨w.length_outside_left.symm, ?_⟩, hlog,
    hremaining, w.length_remaining.symm, w.isEmpty_remaining.symm, fun _ => take_eq_none_iff,
    fun _ _ _ ht => ⟨moved_of_take ht, restore_take ht⟩, ?_⟩
  · rw [w.length_outside_right, hitems]
  · rw [w.outside_append_remaining, hitems]

/-- Three items are taken, one of them twice, and then there is none. -/
theorem window_is_deque_three :
    let calls : List Call := [.take .left, .take .right, .restore .right, .take .right,
      .take .right, .take .left]
    let log := (Call.run call (ofList ["a", "b", "c"]) calls).1
    UndoesTakes (ofList ["a", "b", "c"]) none calls ∧
      log.map Prod.snd = [some "a", some "c", none, some "c", some "b", none] ∧
      takenAt .left log ++ [] ++ (takenAt .right log).reverse = ["a", "b", "c"] := by
  intro calls log
  have hcalls : UndoesTakes (ofList ["a", "b", "c"]) none calls := ⟨rfl, trivial⟩
  exact ⟨hcalls, rfl, (window_is_deque hcalls).2.2.2.2.2.2.2.2⟩

end Formals.Window
