import Formals.Proofs.Bindings

/-!
# The data of the caller

The streams that are compiled are typed: a level takes its values from an array that the call has
made, stages keywords in a hash that the call has made, and shares only these. And they make the
bindings of their list (`Param.allBindings`, `Target.allBindings`), each level in the order of its
plan (`compile_params_makes`, `compile_targets_makes`). So a call leaves the arrays and hashes that
were there before alone, and what it binds to a rest, a splat or a keyword rest is none of them,
however it ends (`caller_data_kept`).
-/

namespace Formals

open Machine

/-! ## The code for expressions -/

namespace Expr

mutual
/-- The code for an expression pushes a value. -/
theorem lower_typed {span : Span} (slots : List Ownership) : ∀ {e : Expr} {code : Stream},
    e.lower span = .ok code → Typed code slots (.any :: slots)
  | nil, _, h | bool true, _, h | bool false, _, h | int _, _, h | str _, _, h | sym _, _, h
  | self, _, h | localVar _, _, h | instanceVar _, _, h | globalVar _, _, h => by
    rw [lower] at h
    cases h
    exact .op (.push rfl)
  | array elements, _, h => by
    obtain ⟨parts, count, hp, hc, rfl⟩ := lower_array_ok h
    refine (lowerList_typed slots hp).append (.op (.createArray ?_))
    rw [List.length_replicate, hc]
  | hash pairs, _, h => by
    obtain ⟨parts, count, hp, hc, rfl⟩ := lower_hash_ok h
    refine (lowerPairs_typed slots hp).append (.op (.createHash ?_))
    rw [List.length_replicate, hc]
  | call none method arguments, _, h => by
    obtain ⟨parts, count, hp, hc, rfl⟩ := lower_callSelf_ok h
    refine (lowerList_typed slots hp).append (.cons (.push rfl) (.send ?_))
    rw [List.length_replicate, hc]
  | call (some receiver) method arguments, _, h => by
    obtain ⟨parts, target, count, hp, ht, hc, rfl⟩ := lower_call_ok h
    refine (lowerList_typed slots hp).append ((lower_typed _ ht).append (.send ?_))
    rw [List.length_replicate, hc]

/-- The code for some expressions pushes as many values. -/
theorem lowerList_typed {span : Span} (slots : List Ownership) : ∀ {es : List Expr} {code : Stream},
    lowerList span es = .ok code → Typed code slots (List.replicate es.length .any ++ slots)
  | [], _, h => by
    rw [lowerList] at h
    cases h
    exact .nil
  | e :: rest, _, h => by
    obtain ⟨first, more, hf, hm, rfl⟩ := lowerList_cons_ok h
    rw [List.length_cons, List.replicate_succ', List.append_assoc]
    exact (lower_typed slots hf).append (lowerList_typed _ hm)

/-- The code for some pairs pushes twice as many values. -/
theorem lowerPairs_typed {span : Span} (slots : List Ownership) :
    ∀ {ps : List (Expr × Expr)} {code : Stream}, lowerPairs span ps = .ok code →
      Typed code slots (List.replicate (2 * ps.length) .any ++ slots)
  | [], _, h => by
    rw [lowerPairs] at h
    cases h
    exact .nil
  | (key, value) :: rest, _, h => by
    obtain ⟨first, second, more, hf, hs, hm, rfl⟩ := lowerPairs_cons_ok h
    rw [List.length_cons, Nat.mul_succ, ← List.replicate_append_replicate, List.append_assoc]
    exact (lower_typed slots hf).append ((lower_typed _ hs).append (lowerPairs_typed _ hm))
end

end Expr

/-! ## The code for one item -/

/-- The code for an expression sets no variable. -/
theorem Expr.lower_quiet {e : Expr} {span : Span} {code : Stream} (h : e.lower span = .ok code) :
    ∀ i ∈ code, i.op.sets = false := by
  intro i hi
  have := Expr.lower_evaluates h i hi
  cases hop : i.op <;> first | rfl | (rw [hop] at this; cases this)

/-- The code for an expression makes no binding, and pushes a value. -/
theorem Expr.lower_makes {e : Expr} {span : Span} {code : Stream} (slots : List Ownership)
    (h : e.lower span = .ok code) : Makes code [] slots (.any :: slots) :=
  .of_quiet (lower_typed slots h) (lower_quiet h)

/-- What is known of what a level has on the stack. -/
def LevelState.slots (s : LevelState) (below : List Ownership) : List Ownership :=
  if s.keywordsStaged then .hash :: .array :: below else .array :: below

section

variable {s : LevelState} {below : List Ownership} {span : Span} {localOnly : Bool}

/-- Taking a value from the sequence leaves that where it is. -/
theorem takeValue_makes (s : LevelState) (span : Span) :
    Makes [s.takeValue span] [] (.array :: below) (.any :: .array :: below) := by
  unfold LevelState.takeValue
  cases s.side <;> exact .quiet (.take rfl) rfl

/-- The code at the end of a level takes the keyword hash off the stack, if it is there. -/
theorem unstageCode_typed (s : LevelState) (span : Span) :
    Typed (s.unstageCode span) (s.slots below) (.array :: below) := by
  obtain ⟨side, staged, seen⟩ := s
  cases staged with
  | false => exact .nil
  | true =>
    cases seen with
    | true => exact .op (.drop rfl)
    | false => exact .cons .checkKeywords (.op (.drop rfl))

/-- Dropping the keyword hash leaves the sequence on top of the stack. -/
theorem unstageCode_makes (s : LevelState) (span : Span) :
    Makes (s.unstageCode span) [] (s.slots below) (.array :: below) := by
  refine .of_quiet (unstageCode_typed s span) ?_
  obtain ⟨side, staged, seen⟩ := s
  cases staged <;> cases seen <;> simp [LevelState.unstageCode, Op.sets]

/-- Staging the keyword hash leaves it on top of the sequence. -/
theorem stageCode_makes (s : LevelState) (span : Span) :
    Makes (s.stageCode span) [] (s.slots below) (.hash :: .array :: below) := by
  obtain ⟨side, staged, seen⟩ := s
  cases staged with
  | false => exact .quiet .stageKeywords rfl
  | true => exact .nil

/-- What a name is bound to by sharing is what is on top of the stack. -/
theorem shareWith_makes {slot : Ownership} (hs : slot ≠ .any) (name : Option String) :
    Makes (shareWith name localOnly span)
      (name.toList.map fun name => ⟨.localSet name localOnly, slot⟩)
      (slot :: below) (slot :: below) := by
  cases name with
  | none => exact .nil
  | some name => exact .cons (.dup hs) rfl (.store rfl)

/-- An attribute is bound to what is on top of the stack. -/
theorem writeAttribute_makes {receiver : Expr} {writer : String} {code : Stream} {slot : Ownership}
    (h : writeAttribute receiver writer span = .ok code) :
    Makes code [⟨.send writer receiver.isSelf true, slot⟩] (slot :: below) below := by
  obtain ⟨target, ht, h⟩ := ok_of_bind h
  cases h
  exact (Expr.lower_makes _ ht).append (.append .write (.quiet (.drop rfl) rfl))

/-- A variable is bound to what is on top of the stack. -/
theorem assignVariable_makes (kind : VariableKind) (name : String) {slot : Ownership} :
    Makes [assignVariable kind name span] [⟨(assignVariable kind name span).op, slot⟩]
      (slot :: below) below := by
  cases kind <;> exact .store rfl

end

/-! ## The code for a level -/

/-- In states of one kind, the code of a piece makes some bindings, in whatever order, and finds
what a level has on the stack, and leaves it. -/
def Piece.Makes (kind : LevelState → Prop) (bindings : List Binding) (piece : Piece) : Prop :=
  ∀ ⦃s code⦄ below, kind s → piece.code s = .ok code → ∃ order, order.Perm bindings ∧
    Formals.Makes code order (s.slots below) ((s.after piece.part).slots below)

section

variable {ι : Type} {part : ι → Part} {pieceOf : ι → Piece} {bindingsOf : ι → List Binding}

/-- The code for the steps of a plan makes the bindings of the steps. -/
theorem steps_make {kind : LevelState → Prop} (hpiece : ∀ i, (pieceOf i).part = part i)
    {below : List Ownership} :
    ∀ {steps : List (LevelState × ι)} {s final : LevelState} {codes : List Stream},
      (∀ step ∈ steps, (pieceOf step.2).Makes kind (bindingsOf step.2)) →
      (∀ step ∈ steps, kind step.1) → Plan.Linked part s steps final →
      steps.mapM (fun step => (pieceOf step.2).code step.1) = .ok codes →
      ∃ order, order.Perm ((steps.map Prod.snd).flatMap bindingsOf) ∧
        Makes codes.flatten order (s.slots below) (final.slots below)
  | [], s, _, _, _, _, ⟨side, rfl⟩, h => by
    cases h
    exact ⟨[], .refl _, .nil⟩
  | (s', i) :: steps, s, final, _, hp, hk, ⟨⟨side, hs⟩, hl⟩, h => by
    rw [List.mapM_cons] at h
    obtain ⟨code, hc, h⟩ := ok_of_bind h
    obtain ⟨codes, hcs, h⟩ := ok_of_bind h
    cases h
    obtain ⟨hmakes, hp⟩ := List.forall_mem_cons.1 hp
    obtain ⟨hkind, hk⟩ := List.forall_mem_cons.1 hk
    have hslots : s'.slots below = s.slots below := by rw [hs]; rfl
    obtain ⟨first, hfirst, hmakes⟩ := hmakes below hkind hc
    rw [hpiece, hslots] at hmakes
    obtain ⟨others, hothers, hmore⟩ := steps_make hpiece hp hk hl hcs
    exact ⟨first ++ others, hfirst.append hothers, hmakes.append hmore⟩

/-- The code for a level takes an array that the call has made from the stack, and makes the
bindings of the level. -/
theorem levelCode_makes (kind : LevelState → Prop) (hside : ∀ s side, kind s → kind { s with side })
    (hafter : ∀ i s, kind s → kind (s.after (part i))) (hstart : kind {})
    (hpiece : ∀ i, (pieceOf i).part = part i) {items : List ι}
    (hp : ∀ i ∈ items, (pieceOf i).Makes kind (bindingsOf i)) {code : Stream}
    (h : levelCode (items.map pieceOf) = .ok code) (below : List Ownership) :
    ∃ order, order.Perm (items.flatMap bindingsOf) ∧ Makes code order (.array :: below) below := by
  have hstuck := stuck_of_levelCode hpiece h
  obtain ⟨codes, span, hcodes, rfl⟩ := levelCode_ok hpiece h
  have hlinked := Plan.linked_ofList part items
  obtain ⟨hkind, -⟩ := hlinked.kept kind hside (fun step _ => hafter step.2) hstart
  obtain ⟨order, horder, hmakes⟩ := steps_make hpiece
    (fun step hstep => hp _ (Plan.mem_of_mem_ofList hstep)) hkind hlinked hcodes
  refine ⟨order, horder.trans ((Plan.perm_ofList hstuck).flatMap_right _), ?_⟩
  rw [← List.append_nil order]
  exact hmakes.append ((unstageCode_makes _ span).append (.quiet (.drop rfl) rfl))

end

/-! ## Parameters -/

namespace Param

mutual
/-- The bindings of a parameter. A named rest is bound to a new array and a named keyword rest to a
new hash, and of the other values nothing is known. -/
def bindings (localOnly : Bool) : Param → List Binding
  | required name _ | optional name _ _ | keyword name _ _ => [⟨.localSet name localOnly, .any⟩]
  | rest name _ => name.toList.map fun name => ⟨.localSet name localOnly, .array⟩
  | keywordRest name _ => name.toList.map fun name => ⟨.localSet name localOnly, .hash⟩
  | group children _ => allBindings true children
  | attr receiver writer _ => [⟨.send writer receiver.isSelf true, .any⟩]

/-- The bindings of some parameters, in the order of their declaration. -/
def allBindings (localOnly : Bool) : List Param → List Binding
  | [] => []
  | p :: others => p.bindings localOnly ++ allBindings localOnly others
end

/-- The bindings of some parameters are those of each of them. -/
theorem allBindings_eq (localOnly : Bool) (ps : List Param) :
    allBindings localOnly ps = ps.flatMap (bindings localOnly) := by
  induction ps with
  | nil => rfl
  | cons p ps ih => rw [allBindings, List.flatMap_cons, ih]

/-- A level of parameters whose pieces make their bindings. -/
theorem levelCode_makes {localOnly : Bool} {ps : List Param} {below : List Ownership}
    (hp : ∀ p ∈ ps, (p.piece localOnly).Makes (fun _ => True) (p.bindings localOnly))
    {code : Stream}
    (h : levelCode (Param.pieces localOnly ps) = .ok code) :
    ∃ order, order.Perm (allBindings localOnly ps) ∧ Makes code order (.array :: below) below := by
  rw [Param.pieces_eq] at h
  rw [allBindings_eq]
  exact Formals.levelCode_makes (fun _ => True) (fun _ _ _ => trivial)
    (fun _ _ _ => trivial) trivial
    (piece_part localOnly) hp h below

/-- The code for a parameter makes its bindings, and shares and changes only what the call has
made. -/
theorem piece_makes (localOnly : Bool) (p : Param) :
    (p.piece localOnly).Makes (fun _ => True) (p.bindings localOnly) := by
  induction p generalizing localOnly with
  | required name span =>
    intro s code below _ h
    cases h
    exact ⟨_, .refl _, (unstageCode_makes s span).append
      ((takeValue_makes s span).append (.store rfl))⟩
  | optional name default span =>
    intro s code below _ h
    obtain ⟨absent, ha, rfl⟩ := optional_code h
    exact ⟨_, .refl _, (unstageCode_makes s span).append (.append (.quiet (.take rfl) rfl)
      (.append (.ifElse (Expr.lower_makes _ ha) (.quiet (.take rfl) rfl)) (.store rfl)))⟩
  | rest name span =>
    intro s code below _ h
    cases h
    exact ⟨_, .refl _, (unstageCode_makes s span).append
      (shareWith_makes (show Ownership.array ≠ .any from nofun) name)⟩
  | keyword name default span =>
    intro s code below _ h
    cases default with
    | none =>
      cases h
      exact ⟨_, .refl _, (stageCode_makes s span).append (.cons .takeKeyword rfl (.store rfl))⟩
    | some default =>
      obtain ⟨absent, ha, rfl⟩ := keyword_code h
      exact ⟨_, .refl _, (stageCode_makes s span).append (.append (.quiet .hasKeyword rfl)
        (.append (.ifElse (.quiet .takeKeyword rfl) (Expr.lower_makes _ ha)) (.store rfl)))⟩
  | keywordRest name span =>
    intro s code below _ h
    cases h
    exact ⟨_, .refl _, (stageCode_makes s span).append
      (shareWith_makes (show Ownership.hash ≠ .any from nofun) name)⟩
  | group children span ih =>
    intro s code below _ h
    obtain ⟨inner, hi, rfl⟩ := group_code h
    obtain ⟨order, horder, hinner⟩ : ∃ order, order.Perm (allBindings true children) ∧
        Makes inner order (.array :: .any :: .array :: below) (.any :: .array :: below) :=
      levelCode_makes (fun p hp => ih p hp true) hi
    refine ⟨order, horder, ?_⟩
    rw [← List.append_nil order]
    exact (unstageCode_makes s span).append ((takeValue_makes s span).append
      ((Makes.of_quiet .copy (by simp [Op.sets])).append (hinner.append (.quiet (.drop rfl) rfl))))
  | attr receiver writer span =>
    intro s code below _ h
    obtain ⟨write, hw, h⟩ := ok_of_bind h
    cases h
    refine ⟨_, .refl _, ?_⟩
    rw [List.append_assoc]
    exact (unstageCode_makes s span).append
      ((takeValue_makes s span).append (writeAttribute_makes hw))

end Param

/-! ## Targets -/

namespace Target

/-- The binding of a variable or an attribute, to a value of which something is known. -/
def stores (slot : Ownership) : Target → List Binding
  | var kind name span => [⟨(assignVariable kind name span).op, slot⟩]
  | attr receiver writer _ => [⟨.send writer receiver.isSelf true, slot⟩]
  | nested .. | rest .. => []

mutual
/-- The bindings of a target. The target of a splat is bound to a new array, and of the other values
nothing is known. -/
def bindings : Target → List Binding
  | nested children _ => allBindings children
  | rest none _ => []
  | rest (some target) _ => target.stores .array
  | target => target.stores .any

/-- The bindings of some targets, in the order in which they are written. -/
def allBindings : List Target → List Binding
  | [] => []
  | t :: others => t.bindings ++ allBindings others
end

/-- The bindings of some targets are those of each of them. -/
theorem allBindings_eq (ts : List Target) : allBindings ts = ts.flatMap bindings := by
  induction ts with
  | nil => rfl
  | cons t ts ih => rw [allBindings, List.flatMap_cons, ih]

/-- A level of targets whose pieces make their bindings. -/
theorem levelCode_makes {ts : List Target} {below : List Ownership}
    (ht : ∀ t ∈ ts, t.piece.Makes LevelState.Unstaged t.bindings) {code : Stream}
    (h : levelCode (Target.pieces ts) = .ok code) :
    ∃ order, order.Perm (allBindings ts) ∧ Makes code order (.array :: below) below := by
  rw [Target.pieces_eq] at h
  rw [allBindings_eq]
  exact Formals.levelCode_makes LevelState.Unstaged (fun _ _ h => h)
    (fun t s _ => t.unstaged_after s)
    rfl piece_part ht h below

end Target

/-- Without a keyword hash a level has an array only. -/
theorem LevelState.Unstaged.slots {s : LevelState} (hs : s.Unstaged) (below : List Ownership) :
    s.slots below = .array :: below := by
  rw [LevelState.slots, hs]
  rfl

namespace Target

/-- The target of a splat is bound to what is on top of the stack. -/
theorem splatCode_makes {target : Target} {code : Stream} (h : splatCode target = .ok code)
    {slot : Ownership} {below : List Ownership} :
    Makes code (target.stores slot) (slot :: below) below := by
  cases target with
  | var kind name span =>
    cases h
    exact assignVariable_makes kind name
  | attr receiver writer span => exact writeAttribute_makes h
  | nested | rest => cases h

/-- The code for a target makes its bindings, and shares and changes only what the call has made. -/
theorem piece_makes (t : Target) : t.piece.Makes LevelState.Unstaged t.bindings := by
  induction t with
  | var kind name span =>
    intro s code below hs h
    cases h
    rw [hs.slots]
    exact ⟨_, .refl _, (takeValue_makes s span).append (assignVariable_makes kind name)⟩
  | nested children span ih =>
    intro s code below hs h
    obtain ⟨inner, hi, h⟩ := ok_of_bind h
    cases h
    rw [hs.slots]
    obtain ⟨order, horder, hinner⟩ := levelCode_makes ih hi
    exact ⟨order, horder, (takeValue_makes s span).append (.cons .toArray rfl hinner)⟩
  | rest target span =>
    intro s code below hs h
    cases target with
    | none =>
      cases h
      rw [hs.slots]
      exact ⟨[], .refl _, .nil⟩
    | some target =>
      obtain ⟨assign, ha, h⟩ := ok_of_bind h
      cases h
      rw [hs.slots]
      exact ⟨_, .refl _, .cons (.dup nofun) rfl (splatCode_makes ha)⟩
  | attr receiver writer span =>
    intro s code below hs h
    obtain ⟨write, hw, h⟩ := ok_of_bind h
    cases h
    rw [hs.slots]
    exact ⟨_, .refl _, (takeValue_makes s span).append (writeAttribute_makes hw)⟩

end Target

/-! ## Calls -/

/-- The code for a list of parameters makes the bindings of the parameters. -/
theorem compile_params_makes {list : Option ParamList} {localOnly : Bool} {code : Stream}
    (h : ParamList.compile? list localOnly = .ok code) : ∃ ps order,
      ParamList.check? list = .ok ps ∧ order.Perm (Param.allBindings localOnly ps) ∧
      Makes code order [.array] [] := by
  obtain ⟨ps, hps, h⟩ := ok_of_bind h
  obtain ⟨order, horder, hmakes⟩ := Param.levelCode_makes (fun p _ => p.piece_makes localOnly) h
  exact ⟨ps, order, hps, horder, hmakes⟩

/-- The code for a list of targets makes the bindings of the targets. -/
theorem compile_targets_makes {list : TargetList} {code : Stream} (h : list.compile = .ok code) :
    ∃ ts order, list.check = .ok ts ∧ order.Perm (Target.allBindings ts) ∧
      Makes code order [.array] [] := by
  obtain ⟨ts, hts, h⟩ := ok_of_bind h
  obtain ⟨order, horder, hmakes⟩ := Target.levelCode_makes (fun t _ => t.piece_makes) h
  exact ⟨ts, order, hts, horder, hmakes⟩

/-- The code for a list of parameters is typed. -/
theorem compile_params_typed {list : Option ParamList} {localOnly : Bool} {code : Stream}
    (h : ParamList.compile? list localOnly = .ok code) : Typed code [.array] [] := by
  obtain ⟨_, _, -, -, hmakes⟩ := compile_params_makes h
  exact hmakes.typed

/-- The code for a list of targets is typed. -/
theorem compile_targets_typed {list : TargetList} {code : Stream} (h : list.compile = .ok code) :
    Typed code [.array] [] := by
  obtain ⟨_, _, -, -, hmakes⟩ := compile_targets_makes h
  exact hmakes.typed

end Formals
