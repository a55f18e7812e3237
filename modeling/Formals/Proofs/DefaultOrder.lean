import Formals.Proofs.Compiling
import Formals.Proofs.Definedness

/-!
# The order of defaults
-/

namespace Formals

open Machine

namespace Param

/-- Whenever binding can get to a default, the names that are declared before its parameter are
bound. -/
def InOrder (ps : List Param) : Prop :=
  ∀ pre x post d, levelSlots [] ps = pre ++ x :: post → Slot.Passable [] pre →
    x.param.default? = some d → ∀ n ∈ x.earlier, n ∉ x.param.names → n ∈ Slot.names pre

/-- Every default reads only names that are declared before its parameter. -/
def ReadsEarlier (ps : List Param) : Prop :=
  ∀ x ∈ levelSlots [] ps, ∀ d, x.param.default? = some d → ∀ n, d.readsLocal n = true →
    n ∈ x.earlier

/-- A default that has code does not read its own parameter. -/
theorem readsLocal_eq_false {name : String} {default : Expr} {span : Span} {code : Stream}
    (h : defaultCode name default span = .ok code) : default.readsLocal name = false := by
  unfold defaultCode at h
  split at h
  · cases h
  · rename_i hreads
    exact Bool.not_eq_true _ ▸ hreads

/-- No default that has code reads its own parameter. -/
theorem Lowers.not_circular {p : Param} {earlier : List String} (h : p.Lowers) :
    ∀ x ∈ p.slots earlier, ∀ d, x.param.default? = some d → ∀ n ∈ x.param.names,
      d.readsLocal n = false := by
  induction p generalizing earlier with
  | group children span ih =>
    intro x hx d hd n hn
    rw [slots, ← levelSlots, levelSlots_eq] at hx
    obtain ⟨step, hstep, hx⟩ := List.mem_flatMap.1 hx
    have hmem := mem_of_mem_placedSteps hstep
    exact ih _ hmem (allLower_iff.1 h _ hmem) x hx d hd n hn
  | optional name default span =>
    obtain ⟨code, hcode⟩ := h
    intro x hx d hd n hn
    obtain rfl := List.mem_singleton.1 hx
    obtain rfl := Option.some.inj hd
    obtain rfl := List.mem_singleton.1 hn
    exact readsLocal_eq_false hcode
  | keyword name default span =>
    intro x hx d hd n hn
    obtain rfl := List.mem_singleton.1 hx
    obtain rfl : default = some d := hd
    obtain ⟨code, hcode⟩ := h
    obtain rfl := List.mem_singleton.1 hn
    exact readsLocal_eq_false hcode
  | _ =>
    intro x hx d hd n hn
    obtain rfl := List.mem_singleton.1 hx
    cases hd

/-- The slots of a parameter before one of them take no keyword. -/
theorem passable_slots {p : Param} {earlier : List String} (hacc : p.Accepted false)
    {pre post : List Slot} {x : Slot} (hsplit : p.slots earlier = pre ++ x :: post)
    (taken : List Key) : Slot.Passable taken pre := by
  cases p with
  | group children span =>
    refine Slot.passable_of_keys (List.filterMap_eq_nil_iff.2 fun y hy => ?_)
    have hkeys := keys_slots (group children span) earlier hacc
    rw [hsplit] at hkeys
    exact List.filterMap_eq_nil_iff.1 hkeys y (List.mem_append_left _ hy)
  | _ =>
    have hone : [Slot.mk _ earlier] = pre ++ x :: post := hsplit
    cases pre with
    | nil => trivial
    | cons y pre => simp at hone

end Param

/-- A call does not fail with an undefined variable if the defaults read only names that are
declared before and bound before. -/
theorem bindArguments_ne_undefined {list : Option ParamList} {localOnly : Bool} {code : Stream}
    {ps : List Param} {arguments : List Value} {m : Machine}
    (hc : ParamList.compile? list localOnly = .ok code) (hps : ParamList.check? list = .ok ps)
    (hattr : Param.AllNoAttr ps) (horder : Param.InOrder ps) (hreads : Param.ReadsEarlier ps)
    (hempty : ∀ n, m.local? n = none) (hsound : m.heap.Sound)
    (hargs : ∀ v ∈ arguments, v.Within m.heap) (n : String) (m' : Machine) :
    bindArguments code arguments m ≠ .error (.undefinedVariable n) m' := by
  intro hrun
  obtain ⟨ps', hps', hr⟩ := compile_params_realizes hc
  obtain rfl : ps' = ps := Except.ok.inj (hps'.symm.trans hps)
  obtain ⟨hacc, hall⟩ := ParamList.check?_accepted hps
  have haccepted := Param.allAccepted_iff.1 hall
  obtain ⟨shape⟩ := exists_shape hacc
  have hcall : call code (fun _ => arguments) m = .error (.undefinedVariable n) m' := hrun
  obtain ⟨t, hact⟩ := act_of_call_error hr hcall
  rw [callAct_apply] at hact
  have hdefines : (m.toEnv.entered fun _ => arguments).Defines [] := fun n => by
    rw [show (m.toEnv.entered fun _ => arguments).local? n = none from hempty n]
    simp
  obtain ⟨front, step, back, k₁, t₁, hsplit, hfront, pre, x, post, d, hslots, hd, hread, hnot⟩ :=
    levelAct_undefined (fun p hp => Param.task_blames p (haccepted p hp)) hall hattr
    hdefines [] hact
  have hmem : ∀ y ∈ front ++ step :: back, y.2.2 ∈ ps' := fun y hy =>
    Param.mem_of_mem_placedSteps (hsplit ▸ hy)
  have hpassable : Slot.Passable [] (front.flatMap Param.stepSlots) := by
    have hrunning := shape.running_entered m.toEnv arguments fun _ => ⟨hsound, hargs⟩
    rw [Param.steps_eq [], hsplit, List.map_append] at hrunning
    exact hrunning.passable hsound .nil nofun
      (fun y hy => haccepted _ (hmem y (List.mem_append_left _ hy))) hfront
  have hlevel : Param.levelSlots [] ps' = (front.flatMap Param.stepSlots ++ pre) ++ x ::
      (post ++ back.flatMap Param.stepSlots) := by
    rw [Param.levelSlots_eq, hsplit, List.flatMap_append, List.flatMap_cons, hslots]
    simp
  have hx : x ∈ Param.levelSlots [] ps' := by
    rw [hlevel]
    simp
  have hown : n ∉ x.param.names := fun hn => by
    have hstep := haccepted _ (hmem step (by simp))
    have hlower := Param.allLower_iff.1 ((compile_ok_iff hps).1 ⟨code, hc⟩) _ (hmem step (by simp))
    have hin : x ∈ step.2.2.slots step.2.1 := by
      show x ∈ Param.stepSlots step
      rw [hslots]
      simp
    have hfalse := hlower.not_circular x hin d hd n hn
    rw [hread] at hfalse
    cases hfalse
  have hbound := horder _ x _ d hlevel (Slot.passable_append.2 ⟨hpassable,
    Param.passable_slots (haccepted _ (hmem step (by simp))) hslots _⟩) hd n
    (hreads x hx d hd n hread) hown
  rw [Slot.names_append] at hbound
  exact hnot hbound

end Formals
