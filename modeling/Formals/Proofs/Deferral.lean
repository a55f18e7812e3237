import Formals.Proofs.Plans

/-!
# When a level has an order

The loop that plans a level either binds an item or puts one back, and it may put back only so many
in a row. `Rounds` is that loop, round by round, and `exists_rounds` bounds how many it takes. It
finds no order exactly for levels that are `Locked`: an item that optional ones wait for stands
between two of them, so that binding is sent from either end to the other (`stuck_eq_none_iff`).
-/

namespace Formals

variable {α : Type} {part : α → Part}

/-! ## Taking items -/

namespace Window

variable {w w' : Window α} {side : Side} {x : α}

/-- What is left once an item is taken was left before, in the same order. -/
theorem sublist_of_take (h : w.take side = some (x, w')) : w'.remaining.Sublist w.remaining := by
  rcases remaining_of_take h with ⟨-, hw⟩ | ⟨-, hw⟩
  · exact hw ▸ List.sublist_cons_self ..
  · exact hw ▸ List.sublist_append_left ..

/-- What is left and not the item taken is still left. -/
theorem mem_of_mem_remaining (h : w.take side = some (x, w')) {y : α} (hy : y ∈ w.remaining)
    (hne : y ≠ x) : y ∈ w'.remaining := by
  rcases remaining_of_take h with ⟨-, hw⟩ | ⟨-, hw⟩
  · rw [hw] at hy
    exact (List.mem_cons.1 hy).resolve_left hne
  · rw [hw] at hy
    exact (List.mem_append.1 hy).resolve_right fun h => hne (List.mem_singleton.1 h)

end Window

namespace Plan

/-! ## Rounds -/

/-- `Rounds part n d s w p`: after `d` items were put back in a row, the loop goes through `n`
rounds from a state and a window on, and ends with the plan `p`. -/
inductive Rounds (part : α → Part) : Nat → Nat → LevelState → Window α → Plan α → Prop
  | done {d : Nat} {s : LevelState} {w : Window α} : w.take s.side = none →
    Rounds part 0 d s w ⟨[], s, none⟩
  | defer {n d : Nat} {s : LevelState} {w w' : Window α} {x : α} {p : Plan α} :
    w.take s.side = some (x, w') → Defers part s x w' → d < maxDeferrals →
    Rounds part n (d + 1) s.flip w p → Rounds part (n + 1) d s w p
  | stuck {d : Nat} {s : LevelState} {w w' : Window α} {x : α} :
    w.take s.side = some (x, w') → Defers part s x w' → ¬ d < maxDeferrals →
    Rounds part 1 d s w ⟨[], s, some x⟩
  | bind {n d : Nat} {s : LevelState} {w w' : Window α} {x : α} {p : Plan α} :
    w.take s.side = some (x, w') → ¬ Defers part s x w' →
    Rounds part n 0 (s.after (part x)) w' p → Rounds part (n + 1) d s w (cons (s, x) p)

/-- The loop ends with the plan of a window, and each item costs at most three rounds: it is put
back twice and then bound. -/
theorem exists_rounds (part : α → Part) (d : Nat) (s : LevelState) (w : Window α) :
    ∃ n ≤ 3 * w.length - min d maxDeferrals, Rounds part n d s w (ofWindow part d s w) := by
  induction d, s, w using ofWindow_induction part with
  | none d s w h =>
    rw [ofWindow_eq, h]
    exact ⟨0, Nat.zero_le _, .done h⟩
  | defer d s w x w' h hd hlt ih =>
    obtain ⟨n, hn, hrounds⟩ := ih
    have hlength := Window.length_of_take h
    rw [ofWindow_eq, h]
    simp only [if_pos hd, if_pos hlt]
    rw [maxDeferrals] at hlt hn ⊢
    exact ⟨n + 1, by omega, .defer h hd hlt hrounds⟩
  | stuck d s w x w' h hd hlt =>
    have hlength := Window.length_of_take h
    rw [ofWindow_eq, h]
    simp only [if_pos hd, if_neg hlt]
    exact ⟨1, by rw [maxDeferrals]; omega, .stuck h hd hlt⟩
  | bind d s w x w' h hd ih =>
    obtain ⟨n, hn, hrounds⟩ := ih
    have hlength := Window.length_of_take h
    rw [ofWindow_eq, h]
    simp only [if_neg hd]
    rw [maxDeferrals] at hn ⊢
    exact ⟨n + 1, by omega, .bind h hd hrounds⟩

/-- Unless the loop gets stuck, it binds what was left, each item once. -/
theorem Rounds.perm {n d : Nat} {s : LevelState} {w : Window α} {p : Plan α}
    (h : Rounds part n d s w p) (hs : p.stuck = none) :
    (p.steps.map Prod.snd).Perm w.remaining := by
  induction h with
  | done ht => rw [Window.take_eq_none_iff.1 ht, List.map_nil]
  | defer _ _ _ _ ih => exact ih hs
  | stuck => cases hs
  | bind ht _ _ ih =>
    rw [cons, List.map_cons]
    rcases Window.remaining_of_take ht with ⟨-, hw⟩ | ⟨-, hw⟩ <;> rw [hw]
    · exact (ih hs).cons _
    · exact ((ih hs).cons _).trans (List.perm_append_singleton ..).symm

/-- A plan that is not stuck has each item of its level once. -/
theorem perm_ofList {items : List α} (h : (ofList part items).stuck = none) :
    ((ofList part items).steps.map Prod.snd).Perm items := by
  obtain ⟨n, -, hrounds⟩ := exists_rounds part 0 {} (Window.ofList items)
  have hperm := hrounds.perm h
  rwa [Window.remaining_ofList] at hperm

/-! ## Locked levels -/

/-- An item that optional ones wait for stands between two of them. -/
def Locked (part : α → Part) (items : List α) : Prop :=
  ∃ x y z, [x, y, z].Sublist items ∧ part x = .optional ∧ (part y).isAwaited = true ∧
    part z = .optional

/-- Without optional items there are no two of them. -/
theorem not_locked (hpart : ∀ x, part x ≠ .optional) (items : List α) : ¬ Locked part items := by
  rintro ⟨x, -, -, -, hx, -⟩
  exact hpart x hx

/-- A level that is locked is locked from the other end too. -/
theorem Locked.reverse {items : List α} (h : Locked part items) : Locked part items.reverse := by
  obtain ⟨x, y, z, hsub, hx, hy, hz⟩ := h
  exact ⟨z, y, x, hsub.reverse, hz, hy, hx⟩

/-- An item at the left end that is not optional does not matter. -/
theorem Locked.of_cons {x : α} {items : List α} (hx : part x ≠ .optional)
    (h : Locked part (x :: items)) : Locked part items := by
  obtain ⟨a, y, z, hsub, ha, hy, hz⟩ := h
  cases hsub with
  | cons _ hsub => exact ⟨a, y, z, hsub, ha, hy, hz⟩
  | cons_cons _ _ => exact absurd ha hx

/-- An item at the right end that is not optional does not matter. -/
theorem Locked.of_concat {x : α} {items : List α} (hx : part x ≠ .optional)
    (h : Locked part (items ++ [x])) : Locked part items := by
  have hreverse := h.reverse
  rw [List.reverse_concat] at hreverse
  simpa using (hreverse.of_cons hx).reverse

/-- Some item of a locked level is waited for. -/
theorem Locked.any_isAwaited {items : List α} (h : Locked part items) :
    items.any (fun y => (part y).isAwaited) = true := by
  obtain ⟨x, y, z, hsub, -, hy, -⟩ := h
  exact List.any_eq_true.2 ⟨y, hsub.subset (by simp), hy⟩

/-- A level that has the items of a locked one, in their order, is locked. -/
theorem Locked.mono {items others : List α} (h : Locked part items) (hsub : items.Sublist others) :
    Locked part others := by
  obtain ⟨x, y, z, hitems, hparts⟩ := h
  exact ⟨x, y, z, hitems.trans hsub, hparts⟩

/-- Binding an item leaves a locked level locked. -/
theorem Locked.of_take {w w' : Window α} {s : LevelState} {x : α}
    (h : w.take s.side = some (x, w')) (hd : ¬ Defers part s x w') (hl : Locked part w.remaining) :
    Locked part w'.remaining := by
  have hx : part x ≠ .optional := by
    intro hx
    -- An optional item is bound only when nothing is awaited any more.
    refine hd ⟨hx, .inl ?_⟩
    obtain ⟨y, hy, ha⟩ := List.any_eq_true.1 hl.any_isAwaited
    have hne : y ≠ x := by
      rintro rfl
      rw [hx] at ha
      cases ha
    exact List.any_eq_true.2 ⟨y, Window.mem_of_mem_remaining h hy hne, ha⟩
  rcases Window.remaining_of_take h with ⟨-, hw⟩ | ⟨-, hw⟩
  · exact (hw ▸ hl).of_cons hx
  · exact (hw ▸ hl).of_concat hx

/-- The loop finds no order for a locked level. -/
theorem stuck_of_locked {d : Nat} {s : LevelState} {w : Window α} (hl : Locked part w.remaining) :
    (ofWindow part d s w).stuck ≠ none := by
  induction d, s, w using ofWindow_induction part with
  | none d s w h =>
    obtain ⟨x, y, z, hsub, -⟩ := hl
    rw [Window.take_eq_none_iff.1 h] at hsub
    cases hsub
  | defer d s w x w' h hd hlt ih =>
    rw [ofWindow_eq, h]
    simp only [if_pos hd, if_pos hlt]
    exact ih hl
  | stuck d s w x w' h hd hlt =>
    rw [ofWindow_eq, h]
    simp only [if_pos hd, if_neg hlt]
    nofun
  | bind d s w x w' h hd ih =>
    rw [ofWindow_eq, h]
    simp only [if_neg hd]
    exact ih (hl.of_take h hd)

/-! ## Levels without an order -/

/-- The item at the left end waits for another one. -/
def WaitsLeft (part : α → Part) (w : Window α) : Prop :=
  ∃ x rest, w.remaining = x :: rest ∧ part x = .optional ∧
    rest.any (fun y => (part y).isAwaited) = true

/-- The item at the right end waits to be bound from the left. -/
def WaitsRight (part : α → Part) (w : Window α) : Prop :=
  ∃ rest z, w.remaining = rest ++ [z] ∧ part z = .optional

/-- Where an optional item waits at the left end and another one stands at the right end, the level
is locked: what the one waits for is between them. -/
theorem Locked.of_waits {w : Window α} (hl : WaitsLeft part w) (hr : WaitsRight part w) :
    Locked part w.remaining := by
  obtain ⟨x, rest, hw, hx, hany⟩ := hl
  obtain ⟨rest', z, hw', hz⟩ := hr
  obtain ⟨y, hy, ha⟩ := List.any_eq_true.1 hany
  cases rest' with
  | nil =>
    rw [hw] at hw'
    obtain ⟨-, rfl⟩ := List.cons_eq_cons.1 hw'
    cases hy
  | cons x' middle =>
    rw [hw, List.cons_append] at hw'
    obtain ⟨rfl, rfl⟩ := List.cons_eq_cons.1 hw'
    have hy : y ∈ middle := by
      rcases List.mem_append.1 hy with hy | hy
      · exact hy
      · rw [List.mem_singleton.1 hy, hz] at ha
        cases ha
    refine ⟨x, y, z, ?_, hx, ha, hz⟩
    rw [hw]
    exact .cons_cons _ ((List.singleton_sublist.2 hy).append (.refl [z]))

/-- What is known of the ends after `d` items were put back in a row. -/
def PutBack (part : α → Part) (d : Nat) (s : LevelState) (w : Window α) : Prop :=
  (0 < d → (s.side = .right → WaitsLeft part w) ∧ (s.side = .left → WaitsRight part w)) ∧
    (1 < d → WaitsLeft part w ∧ WaitsRight part w)

/-- Nothing is known of the ends before an item is put back. -/
theorem putBack_zero (s : LevelState) (w : Window α) : PutBack part 0 s w := ⟨nofun, nofun⟩

/-- When one more item is put back, what it waits for is known of its end, and what was known of the
other end still holds. -/
theorem PutBack.defer {d : Nat} {s : LevelState} {w w' : Window α} {x : α}
    (h : w.take s.side = some (x, w')) (hd : Defers part s x w') (hp : PutBack part d s w) :
    PutBack part (d + 1) s.flip w := by
  obtain ⟨hx, hwaits⟩ := hd
  rcases Window.remaining_of_take h with ⟨hs, hw⟩ | ⟨hs, hw⟩
  · have hl : WaitsLeft part w := ⟨x, _, hw, hx, hwaits.resolve_right (by rw [hs]; nofun)⟩
    exact ⟨fun _ => ⟨fun _ => hl, by rw [LevelState.flip, hs]; nofun⟩,
      fun hpos => ⟨hl, (hp.1 (by omega)).2 hs⟩⟩
  · have hr : WaitsRight part w := ⟨_, x, hw, hx⟩
    exact ⟨fun _ => ⟨by rw [LevelState.flip, hs]; nofun, fun _ => hr⟩,
      fun hpos => ⟨(hp.1 (by omega)).1 hs, hr⟩⟩

/-- A level for which the loop finds no order is locked. -/
theorem locked_of_stuck {d : Nat} {s : LevelState} {w : Window α} (hp : PutBack part d s w)
    (h : (ofWindow part d s w).stuck ≠ none) : Locked part w.remaining := by
  induction d, s, w using ofWindow_induction part with
  | none d s w ht =>
    rw [ofWindow_eq, ht] at h
    exact absurd rfl h
  | defer d s w x w' ht hd hlt ih =>
    rw [ofWindow_eq, ht] at h
    simp only [if_pos hd, if_pos hlt] at h
    exact ih (hp.defer ht hd) h
  | stuck d s w x w' ht hd hlt =>
    obtain ⟨hl, hr⟩ := hp.2 (by rw [maxDeferrals] at hlt; omega)
    exact .of_waits hl hr
  | bind d s w x w' ht hd ih =>
    rw [ofWindow_eq, ht] at h
    simp only [if_neg hd] at h
    exact (ih (putBack_zero _ _) h).mono (Window.sublist_of_take ht)

/-- **Orders.** The loop finds no order exactly for locked levels. -/
theorem stuck_eq_none_iff {items : List α} :
    (ofList part items).stuck = none ↔ ¬ Locked part items := by
  have hleft := Window.remaining_ofList items
  constructor
  · exact fun h hl => stuck_of_locked (w := Window.ofList items) (hleft.symm ▸ hl) h
  · exact fun hl => Classical.byContradiction fun h =>
      hl (hleft ▸ locked_of_stuck (putBack_zero {} (Window.ofList items)) h)

/-- If there is an order for a level, then every item of it is bound. -/
theorem mem_steps_ofList {items : List α} (h : (ofList part items).stuck = none) {x : α}
    (hx : x ∈ items) : ∃ s, (s, x) ∈ (ofList part items).steps := by
  obtain ⟨⟨s, _⟩, hstep, rfl⟩ := List.mem_map.1 ((perm_ofList h).mem_iff.2 hx)
  exact ⟨s, hstep⟩

end Plan

end Formals
