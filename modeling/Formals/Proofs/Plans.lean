import Formals.Binding.Plan

/-!
# What a plan is

A plan depends only on the parts that the items of a window play (`ofWindow_map`). Its steps are
items of the window, and every step begins where the step before it ends, up to the side that
binding faces (`Linked`).
-/

namespace Formals

variable {α β : Type}

/-! ## Windows and functions -/

namespace Window

/-- A window with its items replaced. -/
def map (f : α → β) (w : Window α) : Window β :=
  ⟨w.items.map f, w.head, w.tail, w.head_le, by rw [List.length_map]; exact w.tail_le⟩

/-- Taking an item commutes with replacing the items. -/
theorem take_map (f : α → β) (w : Window α) (side : Side) :
    (w.map f).take side = (w.take side).map fun taken => (f taken.1, taken.2.map f) := by
  by_cases h : w.head < w.tail
  · cases side <;> simp [take, map, h]
  · simp [take, map, h]

/-- The items that are left are replaced where they are. -/
theorem remaining_map (f : α → β) (w : Window α) :
    (w.map f).remaining = w.remaining.map f := by
  simp [remaining, map, List.map_drop, List.map_take]

/-- The window of a list with its items replaced is that of the other list. -/
theorem map_ofList (f : α → β) (items : List α) : (ofList items).map f = ofList (items.map f) := by
  simp [ofList, map]

/-- An item taken was left, and so are the items that are left then. -/
theorem mem_of_take {w w' : Window α} {side : Side} {x : α} (h : w.take side = some (x, w')) :
    x ∈ w.remaining ∧ ∀ y ∈ w'.remaining, y ∈ w.remaining := by
  rcases remaining_of_take h with ⟨-, hw⟩ | ⟨-, hw⟩
  · rw [hw]
    exact ⟨List.mem_cons_self, fun y hy => List.mem_cons_of_mem _ hy⟩
  · rw [hw]
    exact ⟨List.mem_concat_self, fun y hy => List.mem_append_left _ hy⟩

end Window

/-! ## One round of a plan -/

namespace Plan

/-- A plan with its items replaced. -/
def map (f : α → β) (p : Plan α) : Plan β :=
  ⟨p.steps.map fun step => (step.1, f step.2), p.final, p.stuck.map f⟩

/-- A plan with one more step in front. -/
def cons (step : LevelState × α) (p : Plan α) : Plan α := { p with steps := step :: p.steps }

/-- Whether an item is put back. -/
def Defers (part : α → Part) (s : LevelState) (x : α) (w : Window α) : Prop :=
  part x = .optional ∧ (w.any (fun y => (part y).isAwaited) ∨ s.side = .right)

instance (part : α → Part) (s : LevelState) (x : α) (w : Window α) :
    Decidable (Defers part s x w) := by
  unfold Defers
  exact inferInstance

/-- One round: the item at the end that binding faces is put back, or it is bound. -/
theorem ofWindow_eq (part : α → Part) (deferrals : Nat) (s : LevelState) (w : Window α) :
    ofWindow part deferrals s w =
      match w.take s.side with
      | none => ⟨[], s, none⟩
      | some (x, w') =>
        if Defers part s x w' then
          if deferrals < maxDeferrals then ofWindow part (deferrals + 1) s.flip w
          else ⟨[], s, some x⟩
        else cons (s, x) (ofWindow part 0 (s.after (part x)) w') := by
  rw [ofWindow]
  split
  · rename_i h
    rw [h]
  · rename_i x w' h
    rw [h, Window.restore_take h]
    rfl

/-- The cases of a plan: nothing is left, an item is put back for the other end, no more item may be
put back, or an item is bound. -/
theorem ofWindow_induction (part : α → Part) {motive : Nat → LevelState → Window α → Prop}
    (none : ∀ d s w, w.take s.side = none → motive d s w)
    (defer : ∀ d s w x w', w.take s.side = some (x, w') → Defers part s x w' → d < maxDeferrals →
      motive (d + 1) s.flip w → motive d s w)
    (stuck : ∀ d s w x w', w.take s.side = some (x, w') → Defers part s x w' → ¬ d < maxDeferrals →
      motive d s w)
    (bind : ∀ d s w x w', w.take s.side = some (x, w') → ¬ Defers part s x w' →
      motive 0 (s.after (part x)) w' → motive d s w) (d : Nat) (s : LevelState) (w : Window α) :
    motive d s w := by
  fun_induction ofWindow part d s w with
  | case1 d s w h => exact none d s w h
  | case2 d s w x w' h hd hlt ih =>
    rw [Window.restore_take h] at ih
    exact defer d s w x w' h hd hlt ih
  | case3 d s w x w' h hd hlt => exact stuck d s w x w' h hd hlt
  | case4 d s w x w' h hd _ ih => exact bind d s w x w' h hd ih

/-! ## The parts decide -/

/-- Whether an item is put back depends only on the parts that the items play. -/
theorem defers_map (f : α → β) (part : β → Part) (s : LevelState) (x : α) (w : Window α) :
    Defers part s (f x) (w.map f) ↔ Defers (part ∘ f) s x w := by
  simp only [Defers, Window.any, Window.remaining_map, List.any_map, Function.comp_def]

/-- The plan for other items that play the same parts. -/
theorem ofWindow_map (f : α → β) (part : β → Part) (d : Nat) (s : LevelState) (w : Window α) :
    ofWindow part d s (w.map f) = (ofWindow (part ∘ f) d s w).map f := by
  induction d, s, w using ofWindow_induction (part ∘ f) with
  | none d s w h =>
    rw [ofWindow_eq, ofWindow_eq (part ∘ f), Window.take_map, h]
    rfl
  | defer d s w x w' h hd hlt ih =>
    rw [ofWindow_eq, ofWindow_eq (part ∘ f), Window.take_map, h]
    simp only [Option.map_some, defers_map, if_pos hd, if_pos hlt]
    exact ih
  | stuck d s w x w' h hd hlt =>
    rw [ofWindow_eq, ofWindow_eq (part ∘ f), Window.take_map, h]
    simp only [Option.map_some, defers_map, if_pos hd, if_neg hlt]
    rfl
  | bind d s w x w' h hd ih =>
    rw [ofWindow_eq, ofWindow_eq (part ∘ f), Window.take_map, h]
    simp only [Option.map_some, defers_map, if_neg hd]
    rw [show s.after (part (f x)) = s.after ((part ∘ f) x) from rfl, ih]
    rfl

/-- The plan for a level with other items that play the same parts. -/
theorem ofList_map (f : α → β) (part : β → Part) (items : List α) :
    ofList part (items.map f) = (ofList (part ∘ f) items).map f := by
  rw [ofList, ← Window.map_ofList]
  exact ofWindow_map f part 0 {} (Window.ofList items)

/-- Every step binds an item that was left. -/
theorem mem_of_mem_steps {part : α → Part} {d : Nat} {s : LevelState} {w : Window α}
    {step : LevelState × α} (h : step ∈ (ofWindow part d s w).steps) : step.2 ∈ w.remaining := by
  induction d, s, w using ofWindow_induction part with
  | none d s w ht =>
    rw [ofWindow_eq, ht] at h
    cases h
  | defer d s w x w' ht hd hlt ih =>
    rw [ofWindow_eq, ht] at h
    simp only [if_pos hd, if_pos hlt] at h
    exact ih h
  | stuck d s w x w' ht hd hlt =>
    rw [ofWindow_eq, ht] at h
    simp only [if_pos hd, if_neg hlt] at h
    cases h
  | bind d s w x w' ht hd ih =>
    rw [ofWindow_eq, ht] at h
    simp only [if_neg hd] at h
    obtain ⟨hx, hw⟩ := Window.mem_of_take ht
    rcases List.mem_cons.1 h with rfl | h
    · exact hx
    · exact hw _ (ih h)

/-- Every step for a level binds an item of it. -/
theorem mem_of_mem_ofList {part : α → Part} {items : List α} {step : LevelState × α}
    (h : step ∈ (ofList part items).steps) : step.2 ∈ items := by
  rw [← Window.remaining_ofList items]
  exact mem_of_mem_steps h

/-! ## The states of a plan -/

/-- The steps follow one another: each begins in the state that the one before it leaves, up to
the side. -/
def Linked (part : α → Part) : LevelState → List (LevelState × α) → LevelState → Prop
  | s, [], final => ∃ side, final = { s with side }
  | s, (s', x) :: rest, final =>
    (∃ side, s' = { s with side }) ∧ Linked part (s'.after (part x)) rest final

/-- Turning to the other end before the first step. -/
theorem Linked.of_flip {part : α → Part} {s final : LevelState} :
    ∀ {steps : List (LevelState × α)}, Linked part s.flip steps final → Linked part s steps final
  | [], h => h
  | (_, _) :: _, h => h

/-- The steps of a plan follow one another. -/
theorem linked_ofWindow (part : α → Part) (d : Nat) (s : LevelState) (w : Window α) :
    Linked part s (ofWindow part d s w).steps (ofWindow part d s w).final := by
  induction d, s, w using ofWindow_induction part with
  | none d s w h =>
    rw [ofWindow_eq, h]
    exact ⟨s.side, rfl⟩
  | defer d s w x w' h hd hlt ih =>
    rw [ofWindow_eq, h]
    simp only [if_pos hd, if_pos hlt]
    exact ih.of_flip
  | stuck d s w x w' h hd hlt =>
    rw [ofWindow_eq, h]
    simp only [if_pos hd, if_neg hlt]
    exact ⟨s.side, rfl⟩
  | bind d s w x w' h hd ih =>
    rw [ofWindow_eq, h]
    simp only [if_neg hd]
    exact ⟨⟨s.side, rfl⟩, ih⟩

/-- What turning to the other end keeps, and every step keeps, holds where each step begins and in
the end. -/
theorem Linked.kept {part : α → Part} {s final : LevelState} {steps : List (LevelState × α)}
    (hl : Linked part s steps final) (kind : LevelState → Prop)
    (hside : ∀ s side, kind s → kind { s with side })
    (hafter : ∀ step ∈ steps, ∀ s, kind s → kind (s.after (part step.2))) (hs : kind s) :
    (∀ step ∈ steps, kind step.1) ∧ kind final := by
  induction steps generalizing s with
  | nil =>
    obtain ⟨side, rfl⟩ := hl
    exact ⟨nofun, hside s side hs⟩
  | cons step steps ih =>
    obtain ⟨⟨side, hstep⟩, hl⟩ := hl
    have hfirst : kind step.1 := hstep ▸ hside s side hs
    obtain ⟨hrest, hfinal⟩ := ih hl (fun step hmem => hafter step (List.mem_cons_of_mem _ hmem))
      (hafter step List.mem_cons_self _ hfirst)
    exact ⟨List.forall_mem_cons.2 ⟨hfirst, hrest⟩, hfinal⟩

/-- The steps for a level follow one another. -/
theorem linked_ofList (part : α → Part) (items : List α) :
    Linked part {} (ofList part items).steps (ofList part items).final :=
  linked_ofWindow part 0 {} (Window.ofList items)

end Plan

end Formals
