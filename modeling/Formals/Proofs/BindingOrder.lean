import Formals.Proofs.KeywordCode
import Mathlib.Data.List.FinRange
import Mathlib.Data.List.Sort

/-!
# The order in which a level is bound

The loop that plans a level takes items from both ends and puts some of them back. What it has bound
is always a front and a back of the level (`Rounds.segment`), and no item is lost or bound twice
(`Rounds.perm`). Optional items are bound last, from the left, and in the order of their declaration
(`Rounds.waits`, `Rounds.optionals`, `Rounds.side`).

`BoundOnce` says this of a level of parameters and its code, in terms of positions in the level, and
`levels_bound_once` of every level of parameters that are compiled.
-/

namespace Formals

namespace Plan

variable {α : Type} {part : α → Part}

/-! ## What the loop binds -/

namespace Rounds

variable {n d : Nat} {s : LevelState} {w : Window α} {p : Plan α}

/-- The loop faces the left end when it binds an optional item. -/
theorem side (h : Rounds part n d s w p) :
    ∀ step ∈ p.steps, part step.2 = .optional → step.1.side = .left := by
  induction h with
  | done | stuck => exact nofun
  | defer _ _ _ _ ih => exact ih
  | @bind _ _ s _ _ x _ ht hd _ ih =>
    refine List.forall_mem_cons.2 ⟨fun hx => ?_, ih⟩
    cases hside : s.side with
    | left => rfl
    | right => exact absurd ⟨hx, .inr hside⟩ hd

/-- What the loop has bound after any number of steps is a front and a back of what was left. -/
theorem segment (h : Rounds part n d s w p) (k : Nat) : ∃ front mid back,
    w.remaining = front ++ mid ++ back ∧
      ((p.steps.take k).map Prod.snd).Perm (front ++ back) := by
  induction h generalizing k with
  | @done _ _ w _ | @stuck _ _ w _ _ =>
    exact ⟨[], w.remaining, [], by simp, by simp⟩
  | defer _ _ _ _ ih => exact ih k
  | @bind _ _ _ w _ x _ ht _ _ ih =>
    cases k with
    | zero => exact ⟨[], w.remaining, [], by simp, by simp⟩
    | succ k =>
      obtain ⟨front, mid, back, hw', hperm⟩ := ih k
      rw [cons, List.take_succ_cons, List.map_cons]
      rcases Window.remaining_of_take ht with ⟨-, hw⟩ | ⟨-, hw⟩
      · exact ⟨x :: front, mid, back, by rw [hw, hw']; rfl, hperm.cons x⟩
      · refine ⟨front, mid, back ++ [x], by rw [hw, hw', List.append_assoc], ?_⟩
        rw [← List.append_assoc]
        exact (hperm.cons x).trans (List.perm_append_singleton ..).symm

/-- The loop binds nothing but what was left. -/
theorem mem_remaining (h : Rounds part n d s w p) : ∀ step ∈ p.steps, step.2 ∈ w.remaining := by
  intro step hstep
  obtain ⟨front, mid, back, hw, hperm⟩ := h.segment p.steps.length
  rw [List.take_length] at hperm
  have hmem := hperm.mem_iff.1 (List.mem_map_of_mem hstep)
  rw [List.mem_append] at hmem
  rw [hw, List.mem_append, List.mem_append]
  exact hmem.imp_left .inl

/-- Once the loop has bound an optional item, nothing is left that optional items wait for. -/
theorem waits (h : Rounds part n d s w p) : p.steps.Pairwise fun a b =>
    part a.2 = .optional → (part b.2).isAwaited = false := by
  induction h with
  | done | stuck => exact .nil
  | defer _ _ _ _ ih => exact ih
  | bind ht hd hrounds ih =>
    refine List.pairwise_cons.2 ⟨fun step hstep hx => ?_, ih⟩
    refine Bool.eq_false_iff.2 fun ha => hd ⟨hx, .inl ?_⟩
    exact List.any_eq_true.2 ⟨_, hrounds.mem_remaining step hstep, ha⟩

/-- Unless the loop gets stuck, it binds the optional items as they come. -/
theorem optionals (h : Rounds part n d s w p) (hs : p.stuck = none) :
    (p.steps.map Prod.snd).filter (fun x => part x = .optional) =
      w.remaining.filter fun x => part x = .optional := by
  induction h with
  | done ht => rw [Window.take_eq_none_iff.1 ht, List.map_nil]
  | defer _ _ _ _ ih => exact ih hs
  | stuck => cases hs
  | @bind _ _ s _ _ x _ ht hd hrounds ih =>
    rw [cons, List.map_cons, List.filter_cons, ih hs]
    rcases Window.remaining_of_take ht with ⟨-, hw⟩ | ⟨hside, hw⟩ <;> rw [hw]
    · rw [List.filter_cons]
    · have hx : ¬ part x = .optional := fun hx => hd ⟨hx, .inr hside⟩
      simp [hx]

end Rounds

end Plan

/-! ## Positions -/

/-- The positions of a level that are no part of a front and a back of it lie in between. -/
theorem mem_segment {n : Nat} {front mid back : List (Fin n)}
    (h : List.finRange n = front ++ mid ++ back) (i : Fin n) :
    i ∈ mid ↔ front.length ≤ i ∧ i < front.length + mid.length := by
  have hat : ∀ k : Nat, (List.finRange n)[k]? = some i ↔ k = i := by
    intro k
    rw [List.getElem?_eq_some_iff]
    constructor
    · rintro ⟨hk, rfl⟩
      rw [List.getElem_finRange]
      rfl
    · rintro rfl
      exact ⟨by rw [List.length_finRange]; exact i.isLt, by rw [List.getElem_finRange]; rfl⟩
  rw [h, List.append_assoc] at hat
  constructor
  · intro hi
    obtain ⟨j, hj⟩ := List.getElem?_of_mem hi
    obtain ⟨hlt, -⟩ := List.getElem?_eq_some_iff.1 hj
    have hpos := (hat (front.length + j)).1 (by
      rw [List.getElem?_append_right (Nat.le_add_right ..), Nat.add_sub_cancel_left,
        List.getElem?_append_left hlt, hj])
    omega
  · rintro ⟨hlo, hhi⟩
    have hmid := (hat i).2 rfl
    rw [List.getElem?_append_right hlo, List.getElem?_append_left (by omega)] at hmid
    exact List.mem_of_getElem? hmid

/-- `BoundOnce localOnly level code order`: the parameters of a level are bound once, in a certain
order, and so does the code. The order gives each parameter by its position in the level, with the
state in which it is bound. -/
structure BoundOnce (localOnly : Bool) (level : List Param) (code : Stream)
    (order : List (LevelState × Fin level.length)) : Prop where
  /-- The loop binds the parameters at these positions, in these states. -/
  steps : (Plan.ofList Param.part level).steps = order.map fun step => (step.1, level.get step.2)
  /-- The code is the code for each of them, in this order, and then takes the level from the
  stack. -/
  code : ∃ codes closing, code = codes.flatten ++ closing ∧
    List.Forall₂ (fun step own => ((level.get step.2).piece localOnly).code step.1 = .ok own) order
      codes
  /-- Every parameter of the level is bound once. -/
  once : (order.map Prod.snd).Perm (List.finRange level.length)
  /-- Behind an optional parameter comes no required and no keyword parameter, and no optional one
  that is declared before it. -/
  optionals : order.Pairwise fun a b => (level.get a.2).part = .optional →
    (level.get b.2).isRequiredPositional = false ∧ (level.get b.2).isKeyword = false ∧
      ((level.get b.2).part = .optional → a.2 < b.2)
  /-- An optional parameter takes its value from the left. -/
  shifts : ∀ step ∈ order, ∀ name default span,
    level.get step.2 = .optional name default span → step.1.side = .left ∧
      ∀ own, ((level.get step.2).piece localOnly).code step.1 = .ok own →
        ∃ absent, default.lower span = .ok absent ∧
          own = step.1.unstageCode span ++ [⟨.arrayIsEmpty, span⟩, ⟨.ifTrue, span⟩] ++ absent ++
            [⟨.orElse, span⟩, ⟨.arrayShift, span⟩, ⟨.endIf, span⟩, setParam name localOnly span]
  /-- What is not bound yet, after any number of steps, is a segment of the level. -/
  segment : ∀ k, ∃ lo hi, ∀ i : Fin level.length,
    i ∉ (order.take k).map Prod.snd ↔ lo ≤ i.val ∧ i.val < hi

/-- What is no optional parameter's to wait for. -/
theorem Param.not_awaited {p : Param} (h : p.part.isAwaited = false) :
    p.isRequiredPositional = false ∧ p.isKeyword = false := by
  unfold isRequiredPositional isKeyword
  cases hp : p.part <;> rw [hp] at h <;> first | decide | cases h

/-- The order of the plan of the positions of a level. -/
def bindingOrder (level : List Param) : List (LevelState × Fin level.length) :=
  (Plan.ofList (Param.part ∘ level.get) (List.finRange level.length)).steps

section

variable {localOnly : Bool} {level : List Param} {code : Stream}

/-- A level is planned as its positions are. -/
theorem plan_positions (level : List Param) : Plan.ofList Param.part level =
    (Plan.ofList (Param.part ∘ level.get) (List.finRange level.length)).map level.get := by
  conv_lhs => rw [← List.map_get_finRange level, Plan.ofList_map]

/-- The loop does not get stuck on the positions of a level that is compiled. -/
theorem stuck_positions (h : levelCode (Param.pieces localOnly level) = .ok code) :
    (Plan.ofList (Param.part ∘ level.get) (List.finRange level.length)).stuck = none := by
  rw [Param.pieces_eq] at h
  have hnone := stuck_of_levelCode (Param.piece_part localOnly) h
  rw [plan_positions] at hnone
  exact Option.map_eq_none_iff.1 hnone

/-- The code of a level is the code of its parameters in the order of binding, and then takes the
level from the stack. -/
theorem code_bindingOrder (h : levelCode (Param.pieces localOnly level) = .ok code) :
    ∃ codes closing, code = codes.flatten ++ closing ∧
      List.Forall₂ (fun step own => ((level.get step.2).piece localOnly).code step.1 = .ok own)
        (bindingOrder level) codes := by
  have hpieces : Param.pieces localOnly level =
      (List.finRange level.length).map fun i => (level.get i).piece localOnly := by
    conv_lhs => rw [Param.pieces_eq, ← List.map_get_finRange level, List.map_map]
    rfl
  have hpart : ∀ i, ((level.get i).piece localOnly).part = (Param.part ∘ level.get) i :=
    fun i => Param.piece_part localOnly (level.get i)
  rw [hpieces] at h
  obtain ⟨codes, span, hcodes, rfl⟩ := levelCode_ok hpart h
  exact ⟨codes, _, rfl, forall₂_of_mapM_ok hcodes⟩

/-- A level that is compiled is bound once, in the order of the plan of its positions. -/
theorem boundOnce (h : levelCode (Param.pieces localOnly level) = .ok code) :
    BoundOnce localOnly level code (bindingOrder level) := by
  obtain ⟨n, -, hrounds⟩ := Plan.exists_rounds (Param.part ∘ level.get) 0 {}
    (Window.ofList (List.finRange level.length))
  have hstuck := stuck_positions h
  have hleft := Window.remaining_ofList (List.finRange level.length)
  refine ⟨by rw [plan_positions]; rfl, code_bindingOrder h, hleft ▸ hrounds.perm hstuck, ?_, ?_,
    fun k => ?_⟩
  · -- the optional positions are bound in the order in which they are left at the start
    have hascend : ((bindingOrder level).map Prod.snd |>.filter
        fun i => (Param.part ∘ level.get) i = .optional).Pairwise (· < ·) := by
      rw [bindingOrder, Plan.ofList, hrounds.optionals hstuck, hleft]
      exact (List.sortedLT_finRange _).pairwise.filter _
    rw [List.pairwise_filter, List.pairwise_map] at hascend
    refine (hrounds.waits.and hascend).imp ?_
    rintro a b ⟨hwaits, hascend⟩ ha
    obtain ⟨hrequired, hkeyword⟩ := Param.not_awaited (hwaits ha)
    exact ⟨hrequired, hkeyword, fun hb => hascend (decide_eq_true ha) (decide_eq_true hb)⟩
  · rintro step hstep name default span hp
    have hpart : (level.get step.2).part = .optional := by rw [hp]; rfl
    refine ⟨hrounds.side step hstep hpart, fun own hown => ?_⟩
    rw [hp] at hown
    obtain ⟨absent, ha, rfl⟩ := Param.optional_code hown
    exact ⟨absent, ha, by simp [setParam]⟩
  · -- what is bound is a front and a back, so that the positions in between are left
    obtain ⟨front, mid, back, hall, hperm⟩ := hrounds.segment k
    rw [hleft] at hall
    refine ⟨front.length, front.length + mid.length, fun i => ?_⟩
    have hbound : i ∈ ((bindingOrder level).take k).map Prod.snd ↔ i ∈ front ++ back :=
      hperm.mem_iff
    have hmem : i ∈ front ++ mid ++ back := hall ▸ List.mem_finRange i
    have hnodup : (front ++ mid ++ back).Nodup := hall ▸ List.nodup_finRange _
    rw [← mem_segment hall i, hbound]
    simp only [List.nodup_append, List.mem_append] at hmem hnodup ⊢
    grind

end

/-- **The order of binding.** In the code for parameters, whatever they are, every level is bound
once: each parameter of it once, the optional ones last, from left to right and from the left end of
the sequence, and what is not bound yet is always a segment of the level. -/
theorem levels_bound_once {ps : List Param} {localOnly : Bool} {code : Stream}
    (h : bindParams ps localOnly = .ok code) {level : List Param}
    (hlevel : Param.IsLevel level ps) : ∃ flag own,
      levelCode (Param.pieces flag level) = .ok own ∧ own <:+: code ∧
        BoundOnce flag level own (bindingOrder level) := by
  rw [bindParams] at h
  induction hlevel generalizing localOnly code with
  | outer => exact ⟨localOnly, code, h, List.infix_rfl, boundOnce h⟩
  | inner hgroup _ ih =>
    obtain ⟨inner, hinner, hinfix⟩ := infix_of_group h hgroup
    obtain ⟨flag, own, hown, hpart, honce⟩ := ih hinner
    exact ⟨flag, own, hown, hpart.trans hinfix, honce⟩

/-- `*r, a = 1, b = 2, k:, *s` is bound from both ends, and its optional parameters in the end: the
first rest turns to the right end, the second one back, `a` waits for `k`, and `b` is sent back to
the left. -/
theorem optionals_between_rests_bound :
    let level : List Param := [.rest (some "r") {}, .optional "a" (.int 1) {},
      .optional "b" (.int 2) {}, .keyword "k" none {}, .rest (some "s") {}]
    (bindingOrder level).map (fun step => step.2.val) = [0, 4, 3, 1, 2] ∧
      ∃ code, bindParams level true = .ok code ∧ ∃ flag own,
        levelCode (Param.pieces flag level) = .ok own ∧ own <:+: code ∧
          BoundOnce flag level own (bindingOrder level) := by
  intro level
  have hcode : bindParams level true = .ok [⟨.dup, {}⟩, ⟨.localSet "r" true, {}⟩, ⟨.dup, {}⟩,
      ⟨.localSet "s" true, {}⟩, ⟨.stageKeywords, {}⟩, ⟨.takeKeyword "k", {}⟩,
      ⟨.localSet "k" true, {}⟩, ⟨.checkKeywords, {}⟩, ⟨.pop, {}⟩, ⟨.arrayIsEmpty, {}⟩,
      ⟨.ifTrue, {}⟩, ⟨.pushInt 1, {}⟩, ⟨.orElse, {}⟩, ⟨.arrayShift, {}⟩, ⟨.endIf, {}⟩,
      ⟨.localSet "a" true, {}⟩, ⟨.arrayIsEmpty, {}⟩, ⟨.ifTrue, {}⟩, ⟨.pushInt 2, {}⟩,
      ⟨.orElse, {}⟩, ⟨.arrayShift, {}⟩, ⟨.endIf, {}⟩, ⟨.localSet "b" true, {}⟩, ⟨.pop, {}⟩] := by
    cbv
  exact ⟨by cbv, _, hcode, levels_bound_once hcode .outer⟩

end Formals
