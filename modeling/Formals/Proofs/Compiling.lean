import Formals.Proofs.Deferral
import Formals.Proofs.Levels
import Formals.Proofs.Lowering
import Formals.Proofs.Order
import Mathlib.Data.List.Forall2

/-!
# Which lists are compiled

Parameters are compiled exactly if no level among them is locked and every default and every
attribute has code (`bindParams_ok_iff`). A list that passes the check has no locked level, so that
of its own a default that reads its parameter is all that can keep it from being compiled
(`bindParams_ok_iff_ordered`).
-/

namespace Formals

/-- A computation of which the last step is to return something ends well if the rest does. -/
theorem exists_ok_iff {ε α β : Type} {x : Except ε α} {f : α → β} :
    (∃ b, (do return f (← x)) = (Except.ok b : Except ε β)) ↔ ∃ a, x = .ok a := by
  cases x with
  | ok a => exact ⟨fun _ => ⟨a, rfl⟩, fun _ => ⟨f a, rfl⟩⟩
  | error e => exact ⟨nofun, nofun⟩

/-- A computation for every item of a list ends well if each of them does. -/
theorem mapM_ok_iff {ε α β : Type} {f : α → Except ε β} {xs : List α} :
    (∃ ys, xs.mapM f = .ok ys) ↔ ∀ x ∈ xs, ∃ y, f x = .ok y := by
  induction xs with
  | nil => exact ⟨fun _ => nofun, fun _ => ⟨[], rfl⟩⟩
  | cons x xs ih =>
    rw [List.mapM_cons]
    constructor
    · rintro ⟨ys, h⟩
      obtain ⟨y, hy, h⟩ := ok_of_bind h
      obtain ⟨zs, hz, -⟩ := ok_of_bind h
      rintro x' (_ | ⟨_, hx⟩)
      · exact ⟨y, hy⟩
      · exact ih.1 ⟨zs, hz⟩ x' hx
    · intro h
      obtain ⟨y, hy⟩ := h x List.mem_cons_self
      obtain ⟨zs, hz⟩ := ih.2 fun x' hx => h x' (List.mem_cons_of_mem _ hx)
      rw [hy, hz]
      exact ⟨_, rfl⟩

/-- The results of a computation for every item of a list are those for the items in order. -/
theorem forall₂_of_mapM_ok {ε α β : Type} {f : α → Except ε β} {xs : List α} {ys : List β}
    (h : xs.mapM f = .ok ys) : List.Forall₂ (fun x y => f x = .ok y) xs ys := by
  induction xs generalizing ys with
  | nil =>
    cases h
    exact .nil
  | cons x xs ih =>
    rw [List.mapM_cons] at h
    obtain ⟨y, hy, h⟩ := ok_of_bind h
    obtain ⟨zs, hz, h⟩ := ok_of_bind h
    cases h
    exact .cons hy (ih hz)

/-- In lists that are related item by item, every item of the first one has a related one. -/
theorem exists_of_forall₂ {α β : Type} {R : α → β → Prop} {xs : List α} {ys : List β}
    (h : List.Forall₂ R xs ys) : ∀ x ∈ xs, ∃ y ∈ ys, R x y := by
  induction h with
  | nil => exact nofun
  | cons hxy _ ih =>
    refine List.forall_mem_cons.2 ⟨⟨_, List.mem_cons_self, hxy⟩, fun x hx => ?_⟩
    obtain ⟨y, hy, hr⟩ := ih x hx
    exact ⟨y, List.mem_cons_of_mem _ hy, hr⟩

/-- A result of a computation for every item of a list is one for some item. -/
theorem exists_of_mem_mapM_ok {ε α β : Type} {f : α → Except ε β} {xs : List α} {ys : List β}
    (h : xs.mapM f = .ok ys) : ∀ y ∈ ys, ∃ x ∈ xs, f x = .ok y :=
  exists_of_forall₂ (forall₂_of_mapM_ok h).flip

/-- An error of a computation for every item of a list is one for some item. -/
theorem mapM_error {ε α β : Type} {f : α → Except ε β} {xs : List α} {e : ε}
    (h : xs.mapM f = .error e) : ∃ x ∈ xs, f x = .error e := by
  induction xs with
  | nil => cases h
  | cons x xs ih =>
    rw [List.mapM_cons] at h
    rcases error_of_bind h with h | ⟨y, -, h⟩
    · exact ⟨x, List.mem_cons_self, h⟩
    · obtain ⟨x', hx', h⟩ := ih (error_of_bind_pure h)
      exact ⟨x', List.mem_cons_of_mem _ hx', h⟩

/-! ## Levels -/

namespace Param

/-- A level of some parameters: their own, or that of a group at some depth. -/
inductive IsLevel (level : List Param) : List Param → Prop
  | outer : IsLevel level level
  | inner {ps children : List Param} {span : Span} : group children span ∈ ps →
    IsLevel level children → IsLevel level ps

mutual
/-- Every level in a parameter has a property. -/
def Inside (P : List Param → Prop) : Param → Prop
  | .group children _ => P children ∧ AllInside P children
  | .required .. | .optional .. | .rest .. | .keyword .. | .keywordRest .. | .attr .. => True

/-- Every level in some parameters has a property. -/
def AllInside (P : List Param → Prop) : List Param → Prop
  | [] => True
  | p :: ps => p.Inside P ∧ AllInside P ps
end

variable {P : List Param → Prop}

/-- Every level in some parameters has a property if every level in each of them has. -/
theorem allInside_iff {ps : List Param} : AllInside P ps ↔ ∀ p ∈ ps, p.Inside P := by
  induction ps with
  | nil => simp [AllInside]
  | cons p ps ih => simp [AllInside, ih]

/-- A property of all levels of the groups that a parameter can be is one of every level in it. -/
theorem inside_of_isLevel {p : Param}
    (h : ∀ children span, p = group children span → ∀ level, IsLevel level children → P level) :
    p.Inside P := by
  induction p with
  | group children span ih =>
    refine ⟨h children span rfl _ .outer, allInside_iff.2 fun p hp => ih p hp ?_⟩
    rintro inner span' rfl level hlevel
    exact h children span rfl level (.inner hp hlevel)
  | _ => trivial

/-- Every level of some parameters has a property if their own and those in them have. -/
theorem forall_isLevel_iff {ps : List Param} :
    (∀ level, IsLevel level ps → P level) ↔ P ps ∧ AllInside P ps := by
  constructor
  · intro h
    refine ⟨h ps .outer, allInside_iff.2 fun p hp => inside_of_isLevel ?_⟩
    rintro children span rfl level hlevel
    exact h level (.inner hp hlevel)
  · rintro ⟨hps, hin⟩ level hlevel
    induction hlevel with
    | outer => exact hps
    | inner hgroup _ ih =>
      have hgroup := allInside_iff.1 hin _ hgroup
      exact ih hgroup.1 hgroup.2

/-- No item that optional parameters wait for stands between two of them. -/
def Ordered (ps : List Param) : Prop := ¬ Plan.Locked part ps

end Param

mutual
/-- A parameter has code: its default or its attribute has, or the parameters of the group have. -/
def Param.Lowers : Param → Prop
  | .optional name default span | .keyword name (some default) span =>
    ∃ code, defaultCode name default span = .ok code
  | .group children _ => Param.AllLower children
  | .attr receiver writer span => ∃ code, writeAttribute receiver writer span = .ok code
  | .required .. | .rest .. | .keyword _ none _ | .keywordRest .. => True

/-- All of some parameters have code. -/
def Param.AllLower : List Param → Prop
  | [] => True
  | p :: ps => p.Lowers ∧ Param.AllLower ps
end

/-- Some parameters have code if each of them has. -/
theorem Param.allLower_iff {ps : List Param} : Param.AllLower ps ↔ ∀ p ∈ ps, p.Lowers := by
  induction ps with
  | nil => simp [Param.AllLower]
  | cons p ps ih => simp [Param.AllLower, ih]

/-! ## Levels that have code -/

section

variable {ι : Type} {part : ι → Part} {pieceOf : ι → Piece} {items : List ι}

/-- A level of items has code if it has an order and each item has code in whatever state. -/
theorem levelCode_map_ok_iff (hpart : ∀ i, (pieceOf i).part = part i) {P : ι → Prop}
    (hp : ∀ i ∈ items, ∀ s, (∃ code, (pieceOf i).code s = .ok code) ↔ P i) :
    (∃ code, levelCode (items.map pieceOf) = .ok code) ↔
      ¬ Plan.Locked part items ∧ ∀ i ∈ items, P i := by
  obtain ⟨span, hcode⟩ := levelCode_map hpart items
  rw [← Plan.stuck_eq_none_iff, hcode]
  constructor
  · rintro ⟨code, h⟩
    obtain ⟨codes, hcodes, h⟩ := ok_of_bind h
    cases hstuck : (Plan.ofList part items).stuck with
    | some x =>
      rw [hstuck] at h
      cases h
    | none =>
      refine ⟨rfl, fun i hmem => ?_⟩
      obtain ⟨s, hstep⟩ := Plan.mem_steps_ofList hstuck hmem
      exact (hp i hmem s).1 (mapM_ok_iff.1 ⟨codes, hcodes⟩ _ hstep)
  · rintro ⟨hstuck, hall⟩
    have hsteps : ∀ step ∈ (Plan.ofList part items).steps,
        ∃ code, (pieceOf step.2).code step.1 = .ok code := fun step hstep =>
      have hmem := Plan.mem_of_mem_ofList hstep
      (hp step.2 hmem step.1).2 (hall _ hmem)
    obtain ⟨codes, hcodes⟩ := mapM_ok_iff.2 hsteps
    rw [hstuck, hcodes]
    exact ⟨_, rfl⟩

/-- A level of items that has an order fails only where one of its items does. -/
theorem levelCode_map_error (hpart : ∀ i, (pieceOf i).part = part i) {e : BindError}
    (hfree : ¬ Plan.Locked part items) (h : levelCode (items.map pieceOf) = .error e) :
    ∃ i ∈ items, ∃ s, (pieceOf i).code s = .error e := by
  obtain ⟨span, hcode⟩ := levelCode_map hpart items
  rw [hcode, Plan.stuck_eq_none_iff.2 hfree] at h
  rcases error_of_bind h with h | ⟨codes, -, h⟩
  · obtain ⟨step, hstep, h⟩ := mapM_error h
    exact ⟨step.2, Plan.mem_of_mem_ofList hstep, step.1, h⟩
  · cases h

end

/-- A level of parameters has code if it has an order and each parameter has code in whatever
state. -/
theorem levelCode_ok_iff {localOnly : Bool} {ps : List Param} {P : Param → Prop}
    (hp : ∀ p ∈ ps, ∀ s, (∃ code, (p.piece localOnly).code s = .ok code) ↔ P p) :
    (∃ code, levelCode (Param.pieces localOnly ps) = .ok code) ↔
      Param.Ordered ps ∧ ∀ p ∈ ps, P p := by
  rw [Param.pieces_eq]
  exact levelCode_map_ok_iff (Param.piece_part localOnly) hp

/-- A level that has an order fails only where one of its parameters does. -/
theorem levelCode_error {localOnly : Bool} {ps : List Param} {e : BindError}
    (hordered : Param.Ordered ps) (h : levelCode (Param.pieces localOnly ps) = .error e) :
    ∃ p ∈ ps, ∃ s, (p.piece localOnly).code s = .error e := by
  rw [Param.pieces_eq] at h
  exact levelCode_map_error (Param.piece_part localOnly) hordered h

/-- The code of a parameter does not depend on the state of its level to be there. -/
theorem Param.piece_ok_iff (localOnly : Bool) (p : Param) (s : LevelState) :
    (∃ code, (p.piece localOnly).code s = .ok code) ↔ p.Inside Ordered ∧ p.Lowers := by
  induction p generalizing localOnly s with
  | required | rest | keywordRest => exact ⟨fun _ => ⟨trivial, trivial⟩, fun _ => ⟨_, rfl⟩⟩
  | optional | attr =>
    rw [Param.Inside, Param.Lowers, true_and]
    exact exists_ok_iff
  | keyword name default span =>
    cases default with
    | none => exact ⟨fun _ => ⟨trivial, trivial⟩, fun _ => ⟨_, rfl⟩⟩
    | some default =>
      rw [Param.Inside, Param.Lowers, true_and]
      exact exists_ok_iff
  | group children span ih =>
    have hlevel := levelCode_ok_iff fun p hp => ih p hp true
    rw [Param.Inside, Param.Lowers, and_assoc, allInside_iff, allLower_iff, ← forall₂_and, ← hlevel]
    exact exists_ok_iff

/-- Parameters are compiled exactly if every level among them has an order and all of them have
code. -/
theorem bindParams_ok_iff {ps : List Param} {localOnly : Bool} :
    (∃ code, bindParams ps localOnly = .ok code) ↔
      (∀ level, Param.IsLevel level ps → Param.Ordered level) ∧ Param.AllLower ps := by
  rw [bindParams, levelCode_ok_iff fun p _ => p.piece_ok_iff localOnly, Param.forall_isLevel_iff,
    Param.allInside_iff, Param.allLower_iff, forall₂_and, and_assoc]

/-! ## Lists that pass the check -/

/-- A level whose parameters come in an order that is accepted has an order to be bound in. -/
theorem Param.ordered_of_accepts {ps : List Param} (h : Phase.leading.Accepts (ps.map Param.part)) :
    Param.Ordered ps := by
  obtain ⟨shape⟩ := exists_shape h
  exact Plan.stuck_eq_none_iff.1 shape.turns_eq.2

/-- In a parameter that is accepted every level has an order to be bound in. -/
theorem Param.Accepted.inside {p : Param} {inGroup : Bool} (h : p.Accepted inGroup) :
    p.Inside Ordered := by
  induction p generalizing inGroup with
  | group children span ih =>
    exact ⟨ordered_of_accepts h.1,
      allInside_iff.2 fun p hp => ih p hp (allAccepted_iff.1 h.2 p hp)⟩
  | _ => trivial

/-- No level of a list that passes the check is locked. -/
theorem ordered_of_check {list : Option ParamList} {ps : List Param}
    (hps : ParamList.check? list = .ok ps) {level : List Param} (h : Param.IsLevel level ps) :
    Param.Ordered level := by
  obtain ⟨hacc, hall⟩ := ParamList.check?_accepted hps
  exact Param.forall_isLevel_iff.2 ⟨Param.ordered_of_accepts hacc,
    Param.allInside_iff.2 fun p hp => (Param.allAccepted_iff.1 hall p hp).inside⟩ level h

/-- **Compiling.** A list that passes the check is compiled exactly if all its parameters have
code. -/
theorem compile_ok_iff {list : Option ParamList} {localOnly : Bool} {ps : List Param}
    (hps : ParamList.check? list = .ok ps) :
    (∃ code, ParamList.compile? list localOnly = .ok code) ↔ Param.AllLower ps := by
  have hbind : ParamList.compile? list localOnly = bindParams ps localOnly := by
    rw [ParamList.compile?, hps]
    rfl
  rw [hbind, bindParams_ok_iff]
  exact and_iff_right fun _ => ordered_of_check hps

/-! ## Small parameters -/

namespace Param

/-- The expression in a parameter: its default, or the receiver of its attribute. -/
def expr? : Param → Option Expr
  | optional _ default _ => some default
  | keyword _ default _ => default
  | attr receiver .. => some receiver
  | required .. | rest .. | keywordRest .. | group .. => none

/-- The expression in a parameter is small. -/
def Small (p : Param) : Prop := ∀ e ∈ p.expr?, e.Small

/-- The default of a parameter reads that parameter. -/
def ReadsItself : Param → Prop
  | optional name default _ | keyword name (some default) _ => (Expr.localVar name).Occurs default
  | required .. | rest .. | keyword _ none _ | keywordRest .. | group .. | attr .. => False

end Param

/-- A small default has code if it does not read its parameter. -/
theorem defaultCode_ok_iff {name : String} {default : Expr} {span : Span} (h : default.Small) :
    (∃ code, defaultCode name default span = .ok code) ↔
      ¬ (Expr.localVar name).Occurs default := by
  rw [← Expr.readsLocal_iff, defaultCode]
  split
  case isTrue hreads => simp [hreads]
  case isFalse hreads => simp [hreads, Expr.lower_ok span default h]

/-- A small default that has no code reads its parameter. -/
theorem defaultCode_error {name : String} {default : Expr} {span : Span} {e : BindError}
    (hsmall : default.Small) (h : defaultCode name default span = .error e) :
    e = .circular name span := by
  rw [defaultCode] at h
  split at h
  · exact (Except.error.inj h).symm
  · obtain ⟨code, hcode⟩ := Expr.lower_ok span default hsmall
    rw [hcode] at h
    cases h

/-- An attribute of a small receiver can be written. -/
theorem writeAttribute_ok {receiver : Expr} (writer : String) (span : Span) (h : receiver.Small) :
    ∃ code, writeAttribute receiver writer span = .ok code := by
  obtain ⟨code, hcode⟩ := Expr.lower_ok span receiver h
  rw [writeAttribute, hcode]
  exact ⟨_, rfl⟩

/-- Parameters have code unless a default reads its parameter if that holds of each of them. -/
theorem Param.allLower_iff_of_forall {ps : List Param}
    (h : ∀ p ∈ ps, p.Lowers ↔ ¬ p.ReadsItself ∧ p.Inside (∀ p ∈ ·, ¬ p.ReadsItself)) :
    AllLower ps ↔ (∀ p ∈ ps, ¬ p.ReadsItself) ∧ AllInside (∀ p ∈ ·, ¬ p.ReadsItself) ps := by
  rw [allLower_iff, allInside_iff, ← forall₂_and]
  exact forall₂_congr h

/-- A parameter that is small has code unless a default reads its parameter. -/
theorem Param.lowers_iff {p : Param} (h : p.Small) (hin : p.Inside (∀ p ∈ ·, p.Small)) :
    p.Lowers ↔ ¬ p.ReadsItself ∧ p.Inside (∀ p ∈ ·, ¬ p.ReadsItself) := by
  induction p with
  | optional name default span =>
    exact (defaultCode_ok_iff (h default rfl)).trans (and_iff_left trivial).symm
  | keyword name default span =>
    cases default with
    | none => exact iff_of_true trivial ⟨not_false, trivial⟩
    | some default => exact (defaultCode_ok_iff (h default rfl)).trans (and_iff_left trivial).symm
  | attr receiver writer span =>
    exact iff_of_true (writeAttribute_ok writer span (h receiver rfl)) ⟨not_false, trivial⟩
  | group children span ih =>
    refine (allLower_iff_of_forall fun p hp => ?_).trans (and_iff_right not_false).symm
    exact ih p hp (hin.1 p hp) (allInside_iff.1 hin.2 p hp)
  | _ => exact iff_of_true trivial ⟨not_false, trivial⟩

/-- Some small parameters have code exactly if no default, at any depth, reads its own parameter. -/
theorem Param.allLower_iff_of_small {ps : List Param} (h : ∀ p ∈ ps, p.Small)
    (hin : AllInside (∀ p ∈ ·, p.Small) ps) :
    AllLower ps ↔ (∀ p ∈ ps, ¬ p.ReadsItself) ∧ AllInside (∀ p ∈ ·, ¬ p.ReadsItself) ps :=
  allLower_iff_of_forall fun p hp => lowers_iff (h p hp) (allInside_iff.1 hin p hp)

/-- A small parameter, all of whose levels have an order, fails only for a default that reads its
parameter. -/
theorem Param.piece_error {localOnly : Bool} {e : BindError} {p : Param} {s : LevelState}
    (hsmall : p.Small) (hin : p.Inside (∀ p ∈ ·, p.Small)) (hordered : p.Inside Ordered)
    (h : (p.piece localOnly).code s = .error e) : ∃ name span, e = .circular name span := by
  induction p generalizing localOnly s with
  | required | rest | keywordRest => cases h
  | optional name default span =>
    exact ⟨name, span, defaultCode_error (hsmall default rfl) (error_of_bind_pure h)⟩
  | keyword name default span =>
    cases default with
    | none => cases h
    | some default =>
      exact ⟨name, span, defaultCode_error (hsmall default rfl) (error_of_bind_pure h)⟩
  | attr receiver writer span =>
    obtain ⟨code, hcode⟩ := writeAttribute_ok writer span (hsmall receiver rfl)
    cases hcode.symm.trans (error_of_bind_pure h)
  | group children span ih =>
    obtain ⟨p, hp, s, h⟩ := levelCode_error hordered.1 (error_of_bind_pure h)
    exact ih p hp (hin.1 p hp) (allInside_iff.1 hin.2 p hp) (allInside_iff.1 hordered.2 p hp) h

/-- Some small parameters, all of whose levels have an order, fail only for a default that reads its
parameter. -/
theorem Param.pieces_error {localOnly : Bool} {e : BindError} (ps : List Param)
    (hsmall : ∀ p ∈ ps, p.Small) (hin : AllInside (∀ p ∈ ·, p.Small) ps)
    (hordered : AllInside Ordered ps) (p : Param) (hp : p ∈ ps) (s : LevelState)
    (h : (p.piece localOnly).code s = .error e) : ∃ name span, e = .circular name span :=
  piece_error (hsmall p hp) (allInside_iff.1 hin p hp) (allInside_iff.1 hordered p hp) h

/-- **When parameters are compiled.** The loop for each level among some small parameters ends after
at most three rounds for each of its parameters. They are compiled exactly if no item that optional
parameters wait for stands between two of them on any level, and no default reads its own parameter;
and if they come from a list that passes the check, then such a default is all that can be wrong. -/
theorem bindParams_ok_iff_ordered {ps : List Param} {localOnly : Bool}
    (hsmall : ∀ level, Param.IsLevel level ps → ∀ p ∈ level, p.Small) :
    (∀ level, Param.IsLevel level ps → ∀ localOnly, ∃ n ≤ 3 * level.length,
      Plan.Rounds Piece.part n 0 {} (Window.ofList (Param.pieces localOnly level))
        (Plan.ofList Piece.part (Param.pieces localOnly level))) ∧
    ((∃ code, bindParams ps localOnly = .ok code) ↔
      (∀ level, Param.IsLevel level ps → Param.Ordered level) ∧
        ∀ level, Param.IsLevel level ps → ∀ p ∈ level, ¬ p.ReadsItself) ∧
    ∀ list, ParamList.check? list = .ok ps → ∀ e, bindParams ps localOnly = .error e →
      ∃ name span, e = .circular name span := by
  obtain ⟨houter, hinner⟩ := Param.forall_isLevel_iff.1 hsmall
  refine ⟨fun level _ localOnly => ?_, ?_, fun list hlist e h => ?_⟩
  · obtain ⟨n, hn, hrounds⟩ :=
      Plan.exists_rounds Piece.part 0 {} (Window.ofList (Param.pieces localOnly level))
    rw [Window.length_ofList, Param.pieces_eq, List.length_map] at hn
    exact ⟨n, hn, hrounds⟩
  · rw [bindParams_ok_iff, Param.allLower_iff_of_small houter hinner, Param.forall_isLevel_iff,
      Param.forall_isLevel_iff]
  · obtain ⟨hordered, hin⟩ := Param.forall_isLevel_iff.1 fun level => ordered_of_check hlist
    obtain ⟨p, hp, s, h⟩ := levelCode_error hordered h
    exact Param.pieces_error ps houter hinner hin p hp s h

/-- The default of a parameter in a group reads that parameter, in an array that it builds. -/
theorem bindParams_array_not_ok :
    (∀ level, Param.IsLevel level
        [.group [.required "a" {}, .optional "b" (.array [.localVar "b"]) {}] {}] →
      ∀ p ∈ level, p.Small) ∧
    ¬ ∃ code, bindParams
        [.group [.required "a" {}, .optional "b" (.array [.localVar "b"]) {}] {}] true =
      .ok code := by
  have hdefault : (Expr.array [.localVar "b"]).Small := by
    refine Expr.small_iff.2 ⟨by decide, fun part hpart => ?_⟩
    rw [List.mem_singleton.1 hpart]
    exact Expr.small_iff.2 ⟨by decide, nofun⟩
  have hsmall : ∀ level, Param.IsLevel level
      [.group [.required "a" {}, .optional "b" (.array [.localVar "b"]) {}] {}] →
      ∀ p ∈ level, p.Small := by
    rw [Param.forall_isLevel_iff]
    simp [Param.AllInside, Param.Inside, Param.Small, Param.expr?, hdefault]
  refine ⟨hsmall, fun hok => ?_⟩
  have hreads := (((bindParams_ok_iff_ordered hsmall).2.1.1 hok).2) _
    (.inner (List.mem_singleton.2 rfl) .outer) _ (.tail _ (.head _))
  exact hreads (.inside (.head _) .here)

end Formals
