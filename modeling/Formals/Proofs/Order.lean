import Formals.Binding.Checking
import Formals.Proofs.Plans
import Mathlib.Data.List.Induction

/-!
# The order of a level

A level that passes the check has a `Shape`: required parameters, optional ones, required ones, a
rest, required ones again, keywords and a keyword rest, each perhaps missing. `Shape.turns` is the
order in which such a level is bound, and from which side each item is taken, and `turns_eq` says
that it is what the plan does: what comes before the first optional parameter or the rest is bound
from the left; if there is an optional parameter and something that it waits for, or a rest, then
the others are bound from the right, up to the rest or to the optional parameters, which come last.
-/

namespace Formals

variable {α : Type}

/-! ## Plans by their turns -/

namespace Plan

/-- The items that are bound, each with the side that binding faces. -/
def turns (p : Plan α) : List (Side × α) := p.steps.map fun step => (step.1.side, step.2)

/-- `Orders part d side items ts`: from a state that faces `side`, and after `d` items were put back
in a row, the items are bound in the order `ts`. -/
def Orders (part : α → Part) (d : Nat) (side : Side) (items : List α)
    (ts : List (Side × α)) : Prop :=
  ∀ s w, s.side = side → w.remaining = items →
    (ofWindow part d s w).turns = ts ∧ (ofWindow part d s w).stuck = none

variable {part : α → Part} {d : Nat} {x : α} {items : List α} {ts : List (Side × α)}

/-- The side that binding faces after an item. -/
def sideAfter (side : Side) : Part → Side
  | .rest => side.flip
  | _ => side

/-- Where binding goes on after an item depends on the side that it faces and on the part of the
item. -/
theorem side_after (s : LevelState) (p : Part) : (s.after p).side = sideAfter s.side p := by
  cases p <;> rfl

/-- Only a rest makes binding face the other side. -/
theorem sideAfter_of_ne_rest {p : Part} (hp : p ≠ .rest) (side : Side) :
    sideAfter side p = side := by
  cases p <;> first | rfl | exact absurd rfl hp

/-- Where no items are left none are bound. -/
theorem orders_nil (side : Side) : Orders part d side [] [] := by
  intro s w _ hw
  rw [ofWindow_eq, Window.take_eq_none_iff.2 hw]
  exact ⟨rfl, rfl⟩

/-- An item at the left end is bound unless it waits for another one. -/
theorem orders_left (hx : part x = .optional → items.any (fun y => (part y).isAwaited) = false)
    (h : Orders part 0 (sideAfter .left (part x)) items ts) :
    Orders part d .left (x :: items) ((.left, x) :: ts) := by
  intro s w hs hw
  obtain ⟨w', htake, hw'⟩ := Window.take_left hw
  have hnot : ¬ Defers part s x w' := by
    rintro ⟨hp, ha | hr⟩
    · rw [Window.any, hw', hx hp] at ha
      cases ha
    · rw [hs] at hr
      cases hr
  obtain ⟨ht, hst⟩ := h (s.after (part x)) w' (by rw [side_after, hs]) hw'
  rw [ofWindow_eq, hs, htake]
  simp only [if_neg hnot]
  refine ⟨?_, hst⟩
  rw [turns, cons, List.map_cons, hs]
  exact congrArg _ ht

/-- An item at the right end is bound unless it is optional. -/
theorem orders_right (hx : part x ≠ .optional)
    (h : Orders part 0 (sideAfter .right (part x)) items ts) :
    Orders part d .right (items ++ [x]) ((.right, x) :: ts) := by
  intro s w hs hw
  obtain ⟨w', htake, hw'⟩ := Window.take_right hw
  have hnot : ¬ Defers part s x w' := fun hd => hx hd.1
  obtain ⟨ht, hst⟩ := h (s.after (part x)) w' (by rw [side_after, hs]) hw'
  rw [ofWindow_eq, hs, htake]
  simp only [if_neg hnot]
  refine ⟨?_, hst⟩
  rw [turns, cons, List.map_cons, hs]
  exact congrArg _ ht

/-- An optional item at the left end is put back while another one is awaited. -/
theorem orders_defer_left (hx : part x = .optional)
    (ha : items.any (fun y => (part y).isAwaited) = true) (hd : d < maxDeferrals)
    (h : Orders part (d + 1) .right (x :: items) ts) : Orders part d .left (x :: items) ts := by
  intro s w hs hw
  obtain ⟨w', htake, hw'⟩ := Window.take_left hw
  have hdefer : Defers part s x w' := ⟨hx, .inl (by rw [Window.any, hw', ha])⟩
  rw [ofWindow_eq, hs, htake]
  simp only [if_pos hdefer, if_pos hd]
  exact h s.flip w (by rw [LevelState.flip, hs]; rfl) hw

/-- An optional item at the right end is put back. -/
theorem orders_defer_right (hx : part x = .optional) (hd : d < maxDeferrals)
    (h : Orders part (d + 1) .left (items ++ [x]) ts) :
    Orders part d .right (items ++ [x]) ts := by
  intro s w hs hw
  obtain ⟨w', htake, hw'⟩ := Window.take_right hw
  have hdefer : Defers part s x w' := ⟨hx, .inr hs⟩
  rw [ofWindow_eq, hs, htake]
  simp only [if_pos hdefer, if_pos hd]
  exact h s.flip w (by rw [LevelState.flip, hs]; rfl) hw

/-! ## Runs of items -/

/-- Items that neither wait nor turn binding around are bound from the left. -/
theorem orders_left_append {xs : List α} (hx : ∀ x ∈ xs, part x ≠ .optional ∧ part x ≠ .rest)
    (h : Orders part 0 .left items ts) :
    Orders part 0 .left (xs ++ items) (xs.map (Prod.mk .left) ++ ts) := by
  induction xs with
  | nil => exact h
  | cons x xs ih =>
    obtain ⟨⟨ho, hr⟩, hx⟩ := List.forall_mem_cons.1 hx
    refine orders_left (fun h => absurd h ho) ?_
    rw [sideAfter_of_ne_rest hr]
    exact ih hx

/-- Items that neither wait nor turn binding around are bound from the right. -/
theorem orders_right_append {xs : List α} (hx : ∀ x ∈ xs, part x ≠ .optional ∧ part x ≠ .rest)
    (h : ∀ d < maxDeferrals, Orders part d .right items ts) {d : Nat} (hd : d < maxDeferrals) :
    Orders part d .right (items ++ xs) (xs.reverse.map (Prod.mk .right) ++ ts) := by
  induction xs using List.reverseRecOn generalizing d with
  | nil => simpa using h d hd
  | append_singleton xs x ih =>
    obtain ⟨ho, hr⟩ := hx x (by simp)
    rw [← List.append_assoc, List.reverse_concat, List.map_cons, List.cons_append]
    refine orders_right ho ?_
    rw [sideAfter_of_ne_rest hr]
    exact ih (fun y hy => hx y (List.mem_append_left _ hy)) (by decide)

/-- Optional items for which nothing is awaited are bound from the left. -/
theorem orders_optionals {xs : List α} (hx : ∀ x ∈ xs, part x = .optional)
    (ha : items.any (fun y => (part y).isAwaited) = false)
    (h : ∀ d, Orders part d .left items ts) (d : Nat) :
    Orders part d .left (xs ++ items) (xs.map (Prod.mk .left) ++ ts) := by
  induction xs generalizing d with
  | nil => exact h d
  | cons x xs ih =>
    obtain ⟨hp, hx⟩ := List.forall_mem_cons.1 hx
    have hxs : xs.any (fun y => (part y).isAwaited) = false := by
      rw [List.any_eq_false]
      intro y hy
      rw [hx y hy]
      decide
    have hboth : (xs ++ items).any (fun y => (part y).isAwaited) = false := by
      rw [List.any_append, hxs, ha]
      rfl
    refine orders_left (fun _ => hboth) ?_
    rw [hp]
    exact ih hx 0

end Plan

/-! ## Shapes -/

/-- The shape of a level that passes the check. -/
structure Shape (part : α → Part) (items : List α) where
  leading : List α
  optionals : List α
  middle : List α
  rest : Option α
  tail : List α
  keywords : List α
  keywordRest : Option α
  items_eq : items = leading ++ (optionals ++ (middle ++ (rest.toList ++
    (tail ++ (keywords ++ keywordRest.toList)))))
  part_leading : ∀ x ∈ leading, part x = .positional
  part_optionals : ∀ x ∈ optionals, part x = .optional
  part_middle : ∀ x ∈ middle, part x = .positional
  part_rest : ∀ x ∈ rest, part x = .rest
  part_tail : ∀ x ∈ tail, part x = .positional
  part_keywords : ∀ x ∈ keywords, part x = .keyword
  part_keywordRest : ∀ x ∈ keywordRest, part x = .keywordRest
  middle_nil : optionals = [] → middle = []
  tail_nil : rest = none → tail = []

namespace Shape

variable {part : α → Part} {items : List α}

/-- What takes from the keyword hash. -/
def hashed (s : Shape part items) : List α := s.keywords ++ s.keywordRest.toList

/-- What stands behind the rest, or behind the place where it would stand. -/
def behind (s : Shape part items) : List α := s.tail ++ s.hashed

/-- Whether the optional parameters wait for another one. -/
def awaits (s : Shape part items) : Bool := !(s.middle ++ s.behind).isEmpty

/-- Items that are bound from one side, one after the other. -/
def sided (side : Side) (xs : List α) : List (Side × α) := xs.map (Prod.mk side)

/-- The order in which a level is bound, and the side from which each item is taken. -/
def turns (s : Shape part items) : List (Side × α) :=
  sided .left s.leading ++
    if s.optionals.isEmpty then
      match s.rest with
      | none => sided .left s.behind
      | some r => (.left, r) :: sided .right s.behind.reverse
    else if s.awaits then
      sided .right s.behind.reverse ++ (sided .right s.rest.toList ++
        (sided .right s.middle.reverse ++ sided .left s.optionals))
    else sided .left s.optionals ++ sided .left s.rest.toList

/-- No item behind the middle of a level is optional or a rest. -/
theorem part_behind (s : Shape part items) :
    ∀ x ∈ s.behind, part x ≠ .optional ∧ part x ≠ .rest := by
  intro x hx
  simp only [behind, hashed, List.mem_append, Option.mem_toList] at hx
  rcases hx with hx | hx | hx
  · rw [s.part_tail x hx]
    decide
  · rw [s.part_keywords x hx]
    decide
  · rw [s.part_keywordRest x hx]
    decide

/-- Optional items wait for all items in the middle and behind it. -/
theorem isAwaited_behind (s : Shape part items) : ∀ x ∈ s.middle ++ s.behind,
    (part x).isAwaited = true := by
  intro x hx
  simp only [behind, hashed, List.mem_append, Option.mem_toList] at hx
  rcases hx with hx | hx | hx | hx
  · rw [s.part_middle x hx]
    rfl
  · rw [s.part_tail x hx]
    rfl
  · rw [s.part_keywords x hx]
    rfl
  · rw [s.part_keywordRest x hx]
    rfl

/-- Optional items alone are bound from the left. -/
theorem orders_optionals_left (s : Shape part items) (d : Nat) :
    Plan.Orders part d .left s.optionals (sided .left s.optionals) := by
  have := Plan.orders_optionals s.part_optionals (List.any_nil ..)
    (fun d => Plan.orders_nil (d := d) .left) d
  rwa [List.append_nil, List.append_nil] at this

/-- Optional items alone are bound from the left, also if binding faces the right end. -/
theorem orders_optionals_right (s : Shape part items) {d : Nat} (hd : d < Plan.maxDeferrals) :
    Plan.Orders part d .right s.optionals (sided .left s.optionals) := by
  have hleft := s.orders_optionals_left (d + 1)
  rcases List.eq_nil_or_concat s.optionals with h | ⟨init, x, h⟩
  · rw [h]
    exact Plan.orders_nil .right
  · have hx := s.part_optionals x (by simp [h])
    rw [h, List.concat_eq_append] at hleft ⊢
    exact Plan.orders_defer_right hx hd hleft

/-- Required items behind optional ones are bound before them, from the right. -/
theorem orders_middle_right (s : Shape part items) {d : Nat} (hd : d < Plan.maxDeferrals) :
    Plan.Orders part d .right (s.optionals ++ s.middle)
      (sided .right s.middle.reverse ++ sided .left s.optionals) :=
  Plan.orders_right_append (fun x hx => by rw [s.part_middle x hx]; decide)
    (fun _ => s.orders_optionals_right) hd

/-- Required items behind optional ones, from a state that faces the left end. -/
theorem orders_middle_left (s : Shape part items) :
    Plan.Orders part 0 .left (s.optionals ++ s.middle)
      (sided .right s.middle.reverse ++ sided .left s.optionals) := by
  cases ho : s.optionals with
  | nil =>
    rw [s.middle_nil ho]
    exact Plan.orders_nil .left
  | cons x others =>
    cases hm : s.middle with
    | nil =>
      have := s.orders_optionals_left 0
      rwa [← ho, List.append_nil]
    | cons y ys =>
      have hy : (others ++ s.middle).any (fun y => (part y).isAwaited) = true := by
        rw [List.any_eq_true]
        exact ⟨y, by simp [hm], s.isAwaited_behind y (by simp [hm])⟩
      have := s.orders_middle_right (d := 1) (by decide)
      rw [← hm, List.cons_append]
      rw [ho, List.cons_append] at this
      exact Plan.orders_defer_left (s.part_optionals x (by simp [ho])) hy (by decide) this

/-- The items in front of those that are bound from the right. -/
theorem orders_front (s : Shape part items) {d : Nat} (hd : d < Plan.maxDeferrals) :
    Plan.Orders part d .right (s.optionals ++ (s.middle ++ s.rest.toList))
      (sided .right s.rest.toList ++
        (sided .right s.middle.reverse ++ sided .left s.optionals)) := by
  cases hr : s.rest with
  | none => simpa [sided] using s.orders_middle_right hd
  | some r =>
    have hp := s.part_rest r (by simp [hr])
    rw [← List.append_assoc]
    refine Plan.orders_right (by rw [hp]; decide) ?_
    rw [hp]
    exact s.orders_middle_left

/-- A level whose optional parameters have to wait. -/
theorem orders_awaiting (s : Shape part items) (ho : s.optionals ≠ []) (ha : s.awaits) :
    Plan.Orders part 0 .left (s.optionals ++ (s.middle ++ (s.rest.toList ++ s.behind)))
      (sided .right s.behind.reverse ++ (sided .right s.rest.toList ++
        (sided .right s.middle.reverse ++ sided .left s.optionals))) := by
  have hright := Plan.orders_right_append s.part_behind (fun _ => s.orders_front)
    (show 1 < Plan.maxDeferrals by decide)
  simp only [List.append_assoc] at hright
  obtain ⟨x, others, hx⟩ := List.exists_cons_of_ne_nil ho
  have hany : (others ++ (s.middle ++ (s.rest.toList ++ s.behind))).any
      (fun y => (part y).isAwaited) = true := by
    obtain ⟨y, ys, hy⟩ := List.exists_cons_of_ne_nil (l := s.middle ++ s.behind)
      (by simpa [awaits] using ha)
    have hmem : y ∈ s.middle ++ s.behind := by simp [hy]
    refine List.any_eq_true.2 ⟨y, ?_, s.isAwaited_behind y hmem⟩
    simp only [List.mem_append] at hmem ⊢
    rcases hmem with h | h <;> simp [h]
  rw [hx] at hright ⊢
  exact Plan.orders_defer_left (s.part_optionals x (by simp [hx])) hany (by decide) hright

/-- A level whose optional parameters do not have to wait. -/
theorem orders_ready (s : Shape part items) (ha : s.awaits = false) :
    Plan.Orders part 0 .left (s.optionals ++ (s.middle ++ (s.rest.toList ++ s.behind)))
      (sided .left s.optionals ++ sided .left s.rest.toList) := by
  have hnil : s.middle ++ s.behind = [] := by simpa [awaits] using ha
  obtain ⟨hm, hb⟩ := List.append_eq_nil_iff.1 hnil
  rw [hm, hb, List.nil_append, List.append_nil]
  cases hr : s.rest with
  | none => exact Plan.orders_optionals s.part_optionals rfl (fun _ => Plan.orders_nil .left) 0
  | some r =>
    have hp := s.part_rest r (by simp [hr])
    refine Plan.orders_optionals s.part_optionals ?_ (fun d => ?_) 0
    · simp [hp, Part.isAwaited]
    · refine Plan.orders_left (fun h => by rw [hp] at h; cases h) ?_
      exact Plan.orders_nil _

/-- A level without optional parameters, past its leading ones. -/
theorem orders_plain (s : Shape part items) (ho : s.optionals = []) :
    Plan.Orders part 0 .left (s.optionals ++ (s.middle ++ (s.rest.toList ++ s.behind)))
      (match s.rest with
      | none => sided .left s.behind
      | some r => (.left, r) :: sided .right s.behind.reverse) := by
  rw [ho, s.middle_nil ho, List.nil_append, List.nil_append]
  cases hr : s.rest with
  | none =>
    have := Plan.orders_left_append s.part_behind (Plan.orders_nil .left)
    rwa [List.append_nil, List.append_nil] at this
  | some r =>
    have hp := s.part_rest r (by simp [hr])
    refine Plan.orders_left (fun h => by rw [hp] at h; cases h) ?_
    rw [hp]
    have := Plan.orders_right_append s.part_behind (fun d _ => Plan.orders_nil (d := d) .right)
      (show 0 < Plan.maxDeferrals by decide)
    rwa [List.append_nil, List.nil_append] at this

/-- **The order of a level.** The plan for a level is the order of its shape, and it leaves out
nothing. -/
theorem turns_eq (s : Shape part items) :
    (Plan.ofList part items).turns = s.turns ∧ (Plan.ofList part items).stuck = none := by
  have hl : ∀ x ∈ s.leading, part x ≠ .optional ∧ part x ≠ .rest := fun x hx => by
    rw [s.part_leading x hx]
    decide
  refine Plan.orders_left_append hl ?_ {} (Window.ofList items) rfl
    ((Window.remaining_ofList items).trans s.items_eq)
  cases ho : s.optionals with
  | nil =>
    rw [List.isEmpty_nil, if_pos rfl, ← ho]
    exact s.orders_plain ho
  | cons x others =>
    rw [List.isEmpty_cons, if_neg Bool.false_ne_true, ← ho]
    cases ha : s.awaits with
    | true => exact s.orders_awaiting (by simp [ho]) ha
    | false => exact s.orders_ready ha

/-! ## The stages of a level -/

/-- The turns of a level in stages: the required items in front, those that take from the keyword
hash, the required items behind, from the right, and the optional items. The rest has its turn
before, between or after these. -/
structure Stages (s : Shape part items) where
  side : Side
  hashed : List α
  early : List (Side × α)
  midway : List (Side × α)
  late : List (Side × α)
  turns_eq : s.turns = sided .left s.leading ++ (early ++ (sided side hashed ++
    (sided .right s.tail.reverse ++ (midway ++ (sided .right s.middle.reverse ++
      (sided .left s.optionals ++ late))))))
  hashed_perm : hashed.Perm s.hashed
  rest_eq : (early ++ (midway ++ late)).map Prod.snd = s.rest.toList

/-- Turns of two stretches from one side are turns of the whole from that side. -/
theorem sided_append (side : Side) (a b : List α) :
    sided side (a ++ b) = sided side a ++ sided side b := List.map_append

/-- The turns of a stretch are turns of its items. -/
theorem snd_sided (side : Side) (a : List α) : (sided side a).map Prod.snd = a := by
  rw [sided, List.map_map]
  exact List.map_id a

/-- Every level is bound in stages. -/
theorem exists_stages (s : Shape part items) : Nonempty (Stages s) := by
  by_cases ho : s.optionals = []
  · have hm := s.middle_nil ho
    cases hr : s.rest with
    | none =>
      refine ⟨⟨.left, s.hashed, [], [], [], ?_, .refl _, by rw [hr]; rfl⟩⟩
      simp [turns, behind, ho, hm, hr, s.tail_nil hr, sided]
    | some r =>
      refine ⟨⟨.right, s.hashed.reverse, [(.left, r)], [], [], ?_, s.hashed.reverse_perm,
        by rw [hr]; rfl⟩⟩
      simp [turns, behind, ho, hm, hr, sided]
  · have hne : s.optionals.isEmpty = false := List.isEmpty_eq_false_iff.2 ho
    cases ha : s.awaits with
    | true =>
      refine ⟨⟨.right, s.hashed.reverse, [], sided .right s.rest.toList, [], ?_,
        s.hashed.reverse_perm, by simp [snd_sided]⟩⟩
      simp [turns, behind, hne, ha, sided]
    | false =>
      have hnil : s.middle ++ s.behind = [] := by simpa [awaits] using ha
      obtain ⟨hm, hb⟩ := List.append_eq_nil_iff.1 hnil
      obtain ⟨ht, hh⟩ := List.append_eq_nil_iff.1 hb
      refine ⟨⟨.left, [], [], [], sided .left s.rest.toList, ?_, by rw [hh],
        by simp [snd_sided]⟩⟩
      simp [turns, hne, ha, hm, ht, sided]

/-- Every item of a level has one turn. -/
theorem turns_perm (s : Shape part items) : (s.turns.map Prod.snd).Perm items := by
  classical
  obtain ⟨st⟩ := s.exists_stages
  refine List.perm_iff_count.2 fun x => ?_
  have hitems := congrArg (List.count x) s.items_eq
  have hhashed := st.hashed_perm.count_eq x
  have hrest := congrArg (List.count x) st.rest_eq
  simp only [hashed, List.map_append, List.count_append] at hitems hhashed hrest
  rw [st.turns_eq]
  simp only [List.map_append, snd_sided, List.count_append, List.count_reverse]
  omega

/-- Every item of a level has one step. -/
theorem steps_perm (s : Shape part items) :
    ((Plan.ofList part items).steps.map Prod.snd).Perm items := by
  have hperm := s.turns_perm
  rwa [← s.turns_eq.1, Plan.turns, List.map_map] at hperm

end Shape

/-! ## Accepted levels -/

/-- The parts may come in this order from a phase on. -/
def Phase.Accepts : Phase → List Part → Prop
  | _, [] => True
  | phase, p :: ps => ∃ next : Phase, phase.next p = .ok next ∧ next.Accepts ps

section

variable {part : α → Part} {x : α} {items : List α}

/-- What a phase accepts begins with a part that it passes, and the next phase accepts the
others. -/
theorem Phase.accepts_cons {phase : Phase} {p : Part} (hp : part x = p)
    (h : phase.Accepts ((x :: items).map part)) :
    ∃ next : Phase, phase.next p = .ok next ∧ next.Accepts (items.map part) := hp ▸ h

/-- Items that take from the keyword hash: keywords, and then perhaps a keyword rest. -/
structure Hashed (part : α → Part) (items : List α) where
  keywords : List α
  keywordRest : Option α
  items_eq : items = keywords ++ keywordRest.toList
  part_keywords : ∀ x ∈ keywords, part x = .keyword
  part_keywordRest : ∀ x ∈ keywordRest, part x = .keywordRest

/-- A level may have no items that take from the keyword hash. -/
theorem hashed_nil : Nonempty (Hashed part []) := ⟨⟨[], none, rfl, nofun, nofun⟩⟩

/-- Nothing comes behind a keyword rest. -/
theorem eq_nil_of_closed (h : Phase.closed.Accepts (items.map part)) : items = [] := by
  cases items with
  | nil => rfl
  | cons x items =>
    obtain ⟨next, hn, -⟩ := Phase.accepts_cons rfl h
    cases hp : part x <;> rw [hp] at hn <;> cases hn

/-- What comes behind a keyword takes from the keyword hash. -/
theorem hashed_of_keywords (h : Phase.keywords.Accepts (items.map part)) :
    Nonempty (Hashed part items) := by
  induction items with
  | nil => exact hashed_nil
  | cons x items ih =>
    cases hp : part x with
    | keyword =>
      obtain ⟨_, ⟨⟩, h⟩ := Phase.accepts_cons hp h
      obtain ⟨⟨ks, k, rfl, hks, hk⟩⟩ := ih h
      exact ⟨⟨x :: ks, k, rfl, List.forall_mem_cons.2 ⟨hp, hks⟩, hk⟩⟩
    | keywordRest =>
      obtain ⟨_, ⟨⟩, h⟩ := Phase.accepts_cons hp h
      rw [eq_nil_of_closed h]
      exact ⟨⟨[], some x, rfl, nofun, fun y hy => by cases hy; exact hp⟩⟩
    | positional | optional | rest => obtain ⟨_, ⟨⟩, -⟩ := Phase.accepts_cons hp h

/-- Where a keyword or a keyword rest stands, the items from there on take from the keyword hash. -/
theorem hashed_cons {phase : Phase} (hp : part x = .keyword ∨ part x = .keywordRest)
    (h : phase.Accepts ((x :: items).map part)) : Nonempty (Hashed part (x :: items)) := by
  apply hashed_of_keywords
  rcases hp with hp | hp <;> obtain ⟨next, hn, h⟩ := Phase.accepts_cons hp h <;>
    cases phase <;> cases hn <;> exact ⟨_, by rw [hp]; rfl, h⟩

/-- What comes behind a rest: required items, and then those that take from the keyword hash. -/
theorem exists_tail (h : Phase.afterRest.Accepts (items.map part)) : ∃ tail hashed,
    items = tail ++ hashed ∧ (∀ x ∈ tail, part x = .positional) ∧
      Nonempty (Hashed part hashed) := by
  induction items with
  | nil => exact ⟨[], [], rfl, nofun, hashed_nil⟩
  | cons x items ih =>
    cases hp : part x with
    | positional =>
      obtain ⟨_, ⟨⟩, h⟩ := Phase.accepts_cons hp h
      obtain ⟨tail, hashed, rfl, ht, hh⟩ := ih h
      exact ⟨x :: tail, hashed, rfl, List.forall_mem_cons.2 ⟨hp, ht⟩, hh⟩
    | keyword => exact ⟨[], _, rfl, nofun, hashed_cons (.inl hp) h⟩
    | keywordRest => exact ⟨[], _, rfl, nofun, hashed_cons (.inr hp) h⟩
    | optional | rest => obtain ⟨_, ⟨⟩, -⟩ := Phase.accepts_cons hp h

/-- What stands behind the optional items: required ones, perhaps a rest, and what comes then. -/
structure Rear (part : α → Part) (items : List α) where
  middle : List α
  rest : Option α
  tail : List α
  hashed : List α
  items_eq : items = middle ++ (rest.toList ++ (tail ++ hashed))
  part_middle : ∀ x ∈ middle, part x = .positional
  part_rest : ∀ x ∈ rest, part x = .rest
  part_tail : ∀ x ∈ tail, part x = .positional
  tail_nil : rest = none → tail = []
  hashed_ok : Nonempty (Hashed part hashed)

/-- A rear may have only items that take from the keyword hash. -/
theorem rear_of_hashed (h : Nonempty (Hashed part items)) :
    ∃ r : Rear part items, r.middle = [] :=
  ⟨⟨[], none, [], items, rfl, nofun, nofun, nofun, fun _ => rfl, h⟩, rfl⟩

/-- From a rest on. -/
theorem rear_of_rest (hp : part x = .rest) (h : Phase.afterRest.Accepts (items.map part)) :
    ∃ r : Rear part (x :: items), r.middle = [] := by
  obtain ⟨tail, hashed, rfl, ht, hh⟩ := exists_tail h
  exact ⟨⟨[], some x, tail, hashed, rfl, nofun, fun y hy => by cases hy; exact hp, ht, nofun, hh⟩,
    rfl⟩

/-- From a required item on, behind the optional ones. -/
def Rear.cons (r : Rear part items) (hp : part x = .positional) : Rear part (x :: items) where
  middle := x :: r.middle
  rest := r.rest
  tail := r.tail
  hashed := r.hashed
  items_eq := congrArg _ r.items_eq
  part_middle := List.forall_mem_cons.2 ⟨hp, r.part_middle⟩
  part_rest := r.part_rest
  part_tail := r.part_tail
  tail_nil := r.tail_nil
  hashed_ok := r.hashed_ok

/-- What comes behind a required item that stands behind optional ones. -/
theorem rear_of_trailing (h : Phase.trailing.Accepts (items.map part)) :
    Nonempty (Rear part items) := by
  induction items with
  | nil => exact (rear_of_hashed hashed_nil).nonempty
  | cons x items ih =>
    cases hp : part x with
    | positional =>
      obtain ⟨_, ⟨⟩, h⟩ := Phase.accepts_cons hp h
      obtain ⟨r⟩ := ih h
      exact ⟨r.cons hp⟩
    | rest =>
      obtain ⟨_, ⟨⟩, h⟩ := Phase.accepts_cons hp h
      exact (rear_of_rest hp h).nonempty
    | keyword => exact (rear_of_hashed (hashed_cons (.inl hp) h)).nonempty
    | keywordRest => exact (rear_of_hashed (hashed_cons (.inr hp) h)).nonempty
    | optional => obtain ⟨_, ⟨⟩, -⟩ := Phase.accepts_cons hp h

/-- What comes behind an optional item: more of them, and then a rear. -/
theorem exists_optionals (h : Phase.optionals.Accepts (items.map part)) : ∃ optionals rear,
    items = optionals ++ rear ∧ (∀ x ∈ optionals, part x = .optional) ∧
      Nonempty (Rear part rear) := by
  induction items with
  | nil => exact ⟨[], [], rfl, nofun, (rear_of_hashed hashed_nil).nonempty⟩
  | cons x items ih =>
    cases hp : part x with
    | optional =>
      obtain ⟨_, ⟨⟩, h⟩ := Phase.accepts_cons hp h
      obtain ⟨optionals, rear, rfl, ho, hr⟩ := ih h
      exact ⟨x :: optionals, rear, rfl, List.forall_mem_cons.2 ⟨hp, ho⟩, hr⟩
    | positional =>
      obtain ⟨_, ⟨⟩, h⟩ := Phase.accepts_cons hp h
      obtain ⟨r⟩ := rear_of_trailing h
      exact ⟨[], _, rfl, nofun, ⟨r.cons hp⟩⟩
    | rest =>
      obtain ⟨_, ⟨⟩, h⟩ := Phase.accepts_cons hp h
      exact ⟨[], _, rfl, nofun, (rear_of_rest hp h).nonempty⟩
    | keyword =>
      exact ⟨[], _, rfl, nofun, (rear_of_hashed (hashed_cons (.inl hp) h)).nonempty⟩
    | keywordRest =>
      exact ⟨[], _, rfl, nofun, (rear_of_hashed (hashed_cons (.inr hp) h)).nonempty⟩

/-- Optional items with their rear are a shape, and so is a rear without required items in front. -/
theorem shape_of_rear (optionals : List α) {rear : List α}
    (ho : ∀ x ∈ optionals, part x = .optional)
    (r : Rear part rear) (hm : optionals = [] → r.middle = []) :
    Nonempty (Shape part (optionals ++ rear)) := by
  obtain ⟨hashed⟩ := r.hashed_ok
  exact ⟨{
    leading := []
    optionals
    middle := r.middle
    rest := r.rest
    tail := r.tail
    keywords := hashed.keywords
    keywordRest := hashed.keywordRest
    items_eq := by rw [List.nil_append, ← hashed.items_eq, ← r.items_eq]
    part_leading := nofun
    part_optionals := ho
    part_middle := r.part_middle
    part_rest := r.part_rest
    part_tail := r.part_tail
    part_keywords := hashed.part_keywords
    part_keywordRest := hashed.part_keywordRest
    middle_nil := hm
    tail_nil := r.tail_nil }⟩

/-- **Accepted levels have a shape.** -/
theorem exists_shape (h : Phase.leading.Accepts (items.map part)) :
    Nonempty (Shape part items) := by
  induction items with
  | nil =>
    obtain ⟨r, hr⟩ : ∃ r : Rear part [], r.middle = [] := rear_of_hashed hashed_nil
    exact shape_of_rear [] nofun r fun _ => hr
  | cons x items ih =>
    cases hp : part x with
    | positional =>
      obtain ⟨_, ⟨⟩, h⟩ := Phase.accepts_cons hp h
      obtain ⟨s⟩ := ih h
      exact ⟨{ s with
        leading := x :: s.leading
        items_eq := congrArg _ s.items_eq
        part_leading := List.forall_mem_cons.2 ⟨hp, s.part_leading⟩ }⟩
    | optional =>
      obtain ⟨_, ⟨⟩, h⟩ := Phase.accepts_cons hp h
      obtain ⟨optionals, rear, rfl, ho, ⟨r⟩⟩ := exists_optionals h
      exact shape_of_rear (x :: optionals) (List.forall_mem_cons.2 ⟨hp, ho⟩) r nofun
    | rest =>
      obtain ⟨_, ⟨⟩, h⟩ := Phase.accepts_cons hp h
      obtain ⟨r, hr⟩ := rear_of_rest hp h
      exact shape_of_rear [] nofun r fun _ => hr
    | keyword =>
      obtain ⟨r, hr⟩ := rear_of_hashed (hashed_cons (.inl hp) h)
      exact shape_of_rear [] nofun r fun _ => hr
    | keywordRest =>
      obtain ⟨r, hr⟩ := rear_of_hashed (hashed_cons (.inr hp) h)
      exact shape_of_rear [] nofun r fun _ => hr

end

/-! ## Accepted lists -/

mutual
/-- A parameter that the check lets pass: the levels inside keep the order, and only the outermost
level has keywords. -/
def Param.Accepted (inGroup : Bool) : Param → Prop
  | .group children _ =>
    Phase.leading.Accepts (children.map Param.part) ∧ Param.AllAccepted true children
  | .keyword .. | .keywordRest .. => inGroup = false
  | _ => True

/-- All of some parameters are accepted. -/
def Param.AllAccepted (inGroup : Bool) : List Param → Prop
  | [] => True
  | p :: ps => p.Accepted inGroup ∧ Param.AllAccepted inGroup ps
end

/-- Some parameters are accepted if each of them is. -/
theorem Param.allAccepted_iff {inGroup : Bool} {ps : List Param} :
    Param.AllAccepted inGroup ps ↔ ∀ p ∈ ps, p.Accepted inGroup := by
  induction ps with
  | nil => simp [Param.AllAccepted]
  | cons p ps ih => simp [Param.AllAccepted, ih]

/-- Every outcome of a check has a property. -/
def Checker.Yields {β : Type} (x : Checker β) (P : β → Prop) : Prop :=
  ∀ (s s' : NameTable) (b : β), x s = .ok (b, s') → P b

namespace Checker.Yields

variable {β γ : Type} {P : β → Prop} {Q : γ → Prop}

/-- A check with nothing left to do yields what it has. -/
theorem pure {b : β} (h : P b) : Yields (Pure.pure b) P := by
  rintro s s' b' ⟨⟩
  exact h

/-- A check that fails yields nothing. -/
theorem throw {e : BindError} : Yields (throw e) P := by
  rintro s s' b' ⟨⟩

/-- What comes behind a failure yields nothing. -/
theorem refused {e : BindError} {f : γ → Checker β} : Yields (MonadExcept.throw e >>= f) P := by
  rintro s s' b' ⟨⟩

/-- A check that needs no table of names yields what it gives by itself. -/
theorem lift {x : Except BindError β} (h : ∀ b, x = .ok b → P b) :
    Yields (liftM x) P := by
  intro s s' b hb
  cases x with
  | error e => cases hb
  | ok b' =>
    cases hb
    exact h _ rfl

/-- Two checks in a row yield what the second one does with what the first one yields. -/
theorem bind {x : Checker β} {f : β → Checker γ} (hx : Yields x P)
    (hf : ∀ b, P b → Yields (f b) Q) : Yields (x >>= f) Q := by
  intro s s' c hc
  cases h : x s with
  | error e =>
    simp only [Bind.bind, StateT.bind, Except.bind, h] at hc
    cases hc
  | ok outcome =>
    obtain ⟨b, s₁⟩ := outcome
    simp only [Bind.bind, StateT.bind, Except.bind, h] at hc
    exact hf b (hx _ _ _ h) _ _ _ hc

/-- What follows an outcome that does not matter. -/
theorem after {x : Checker β} {f : β → Checker γ} (hf : ∀ b, Yields (f b) Q) :
    Yields (x >>= f) Q :=
  bind (P := fun _ => True) (fun _ _ _ _ => trivial) fun b _ => hf b

end Checker.Yields

open Checker

/-- What a marker stands for is accepted. -/
theorem checkMarker_accepted (text : String) (span : Span) (inGroup : Bool) :
    Yields (checkMarker text span inGroup) (Param.Accepted inGroup) := by
  unfold checkMarker
  split
  · split
    · exact .refused
    · refine .after fun _ => .pure ?_
      cases inGroup with
      | true => contradiction
      | false => rfl
  · exact .after fun _ => .pure trivial
  · exact .after fun _ => .pure trivial

mutual
/-- Parameters that pass the check are accepted. -/
theorem ParamNode.check_accepted (parent : Span) (inGroup : Bool) : ∀ node : ParamNode,
    Yields (node.check parent inGroup) (Param.Accepted inGroup)
  | .marker text => by
    rw [check]
    exact checkMarker_accepted text parent inGroup
  | .required name span | .optional name _ span | .rest name span | .attr _ _ span => by
    rw [check]
    exact .after fun _ => .pure trivial
  | .keyword name default span => by
    rw [check]
    cases inGroup with
    | true => exact .refused
    | false => exact .after fun _ => .pure rfl
  | .keywordRest name span => by
    rw [check]
    cases inGroup with
    | true => exact .refused
    | false => exact .after fun _ => .pure rfl
  | .group children span => by
    rw [check]
    split
    · exact .refused
    · exact .bind (ParamNode.checkLevel_accepted span true children .leading) fun ps hps =>
        .pure hps
  | .malformed raw => by
    rw [check]
    exact .throw

/-- A level that passes the check keeps the order, and its parameters are accepted. -/
theorem ParamNode.checkLevel_accepted (parent : Span) (inGroup : Bool) :
    ∀ (nodes : List ParamNode) (phase : Phase),
      Yields (ParamNode.checkLevel parent inGroup phase nodes) fun ps =>
        phase.Accepts (ps.map Param.part) ∧ Param.AllAccepted inGroup ps
  | [], phase => by
    rw [checkLevel]
    exact .pure ⟨trivial, trivial⟩
  | node :: others, phase => by
    rw [checkLevel]
    refine .bind (ParamNode.check_accepted parent inGroup node) fun p hp => ?_
    refine .bind (.lift fun _ h => h) fun phase' hphase => ?_
    refine .bind (ParamNode.checkLevel_accepted parent inGroup others phase') fun ps hps => ?_
    have hnext : phase.next p.part = .ok phase' := by
      unfold Phase.pass at hphase
      cases hn : phase.next p.part with
      | ok next =>
        rw [hn] at hphase
        cases hphase
        rfl
      | error e =>
        rw [hn] at hphase
        cases hphase
    exact .pure ⟨⟨phase', hnext, hps.1⟩, hp, hps.2⟩
end

/-- The parameters of a list that passes the check keep the order, and are accepted. -/
theorem ParamList.check?_accepted {list : Option ParamList} {ps : List Param}
    (h : ParamList.check? list = .ok ps) :
    Phase.leading.Accepts (ps.map Param.part) ∧ Param.AllAccepted false ps := by
  cases list with
  | none =>
    cases h
    exact ⟨trivial, trivial⟩
  | some list =>
    rw [ParamList.check?, StateT.run'] at h
    cases hr : ParamNode.checkLevel list.span false .leading list.nodes {} with
    | error e =>
      rw [hr] at h
      cases h
    | ok outcome =>
      rw [hr] at h
      cases h
      exact ParamNode.checkLevel_accepted list.span false list.nodes .leading {} _ _ hr

end Formals
