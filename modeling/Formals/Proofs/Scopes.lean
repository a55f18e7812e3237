import Formals.Proofs.Calls
import Formals.Proofs.Compiling
import Formals.Proofs.Ownership
import Formals.Proofs.Sparing

/-!
# Which local variables change

A local variable is set in one scope (`Env.scopes_setLocal`): in the innermost one, or in the
innermost one that already has it. An instruction changes the scopes only if it sets a local
variable, and a run is no more than its instructions, however it ends (`run_moves`). So a call of
the code for a list changes only bindings of names that the list declares, each in the scope in
which an assignment from outside would change it (`declared_bindings_change`).
-/

namespace Formals

open Machine

/-! ## The scope of an assignment -/

namespace Env

/-- How many scopes lie inside the innermost one that has a variable, or 0 if none has it. -/
def home (env : Env) (name : String) : Nat :=
  (env.scopes.findIdx? (Entries.contains name)).getD 0

/-- How many scopes lie inside the one in which a variable is set. -/
def place (env : Env) (name : String) (localOnly : Bool) : Nat :=
  if localOnly then 0 else env.home name

/-- The value that a scope gives a name. The innermost scope is that at depth 0. -/
def bindingAt (env : Env) (depth : Nat) (name : String) : Option Value :=
  env.scopes[depth]?.bind (Entries.get? name)

/-- Assigning in the scopes changes the first one that has the variable. -/
theorem assignIn?_eq (name : String) (v : Value) (scopes : List Scope) :
    assignIn? name v scopes = (scopes.findIdx? (Entries.contains name)).map
      fun depth => scopes.modify depth (Entries.insert name v) := by
  induction scopes with
  | nil => rfl
  | cons scope rest ih =>
    rw [assignIn?, List.findIdx?_cons, ih]
    by_cases hc : scope.contains name = true
    · rw [if_pos hc, if_pos hc]
      rfl
    · rw [if_neg hc, if_neg hc]
      cases rest.findIdx? (Entries.contains name) <;> rfl

/-- Setting a variable changes one scope. -/
theorem scopes_setLocal (env : Env) (name : String) (v : Value) (localOnly : Bool) :
    (env.setLocal name v localOnly).scopes =
      env.scopes.modify (env.place name localOnly) (Entries.insert name v) := by
  have hscopes : env.scopes = env.scope :: env.outer := rfl
  unfold setLocal place home
  cases localOnly with
  | true => rfl
  | false =>
    rw [hscopes, List.findIdx?_cons]
    by_cases hc : env.scope.contains name = true
    · rw [if_pos (by rw [hc]; rfl), if_pos hc]
      rfl
    · rw [if_neg (by simpa using hc), if_neg hc, assignIn?_eq]
      cases env.outer.findIdx? (Entries.contains name) <;> rfl

/-- Setting a variable opens and closes no scope. -/
theorem length_scopes_setLocal (env : Env) (name : String) (v : Value) (localOnly : Bool) :
    (env.setLocal name v localOnly).scopes.length = env.scopes.length := by
  rw [scopes_setLocal, List.length_modify]

/-- What setting a variable does to the bindings. -/
theorem bindingAt_setLocal (env : Env) (name : String) (v : Value) (localOnly : Bool) {depth : Nat}
    {x : String}
    (h : (env.setLocal name v localOnly).bindingAt depth x ≠ env.bindingAt depth x) :
    x = name ∧ depth = env.place name localOnly := by
  rw [bindingAt, bindingAt, scopes_setLocal, List.getElem?_modify] at h
  cases hscope : env.scopes[depth]? with
  | none =>
    rw [hscope] at h
    exact absurd rfl h
  | some scope =>
    simp only [hscope, Option.map_eq_map, Option.map_some, Option.bind_some] at h
    split at h
    · rename_i hd
      rw [Entries.get?_insert] at h
      refine ⟨?_, hd.symm⟩
      by_contra hx
      exact h (if_neg fun he => hx he.symm)
    · exact absurd rfl h

/-- A condition that an element has in place of another one, and first there. -/
theorem findIdx?_modify {α : Type} {p : α → Bool} {f : α → α} (hf : ∀ a, p (f a) = true)
    {l : List α} {i : Nat} (h : l.findIdx? p = some i) : (l.modify i f).findIdx? p = some i := by
  induction l generalizing i with
  | nil => cases h
  | cons a rest ih =>
    rw [List.findIdx?_cons] at h
    split at h
    · cases h
      rw [List.modify_zero_cons, List.findIdx?_cons, if_pos (hf a)]
    · rename_i ha
      obtain ⟨j, hj, rfl⟩ := Option.map_eq_some_iff.1 h
      rw [List.modify_succ_cons, List.findIdx?_cons, if_neg ha, ih hj]
      rfl

/-- A condition that no change of an element touches is met where it was. -/
theorem findIdx?_modify_same {α : Type} {p : α → Bool} {f : α → α} (hf : ∀ a, p (f a) = p a)
    (l : List α) (i : Nat) : (l.modify i f).findIdx? p = l.findIdx? p := by
  induction l generalizing i with
  | nil => rw [List.modify_nil]
  | cons a rest ih =>
    cases i with
    | zero => rw [List.modify_zero_cons, List.findIdx?_cons, List.findIdx?_cons, hf]
    | succ i => rw [List.modify_succ_cons, List.findIdx?_cons, List.findIdx?_cons, ih]

/-- A scope in which a variable is set has that and those that it had. -/
theorem contains_insert (key other : String) (v : Value) (scope : Scope) :
    Entries.contains other (Entries.insert key v scope) =
      (decide (key = other) || Entries.contains other scope) := by
  rw [Entries.contains, Entries.get?_insert, Entries.contains]
  split <;> simp [*]

/-- A variable that is set, unless in the innermost scope whatever it has, has its home where it had
it. -/
theorem home_setLocal (env : Env) (name : String) (v : Value) {localOnly : Bool} {x : String}
    (h : x = name → localOnly = false) : (env.setLocal name v localOnly).home x = env.home x := by
  rw [home, scopes_setLocal]
  by_cases hx : x = name
  · subst hx
    rw [h rfl, place, home]
    have hcontains : ∀ scope, Entries.contains x (Entries.insert x v scope) = true := by
      simp [contains_insert]
    cases hfound : env.scopes.findIdx? (Entries.contains x) with
    | some i =>
      rw [if_neg Bool.false_ne_true, Option.getD_some, findIdx?_modify hcontains hfound,
        Option.getD_some]
    | none =>
      rw [if_neg Bool.false_ne_true, Option.getD_none]
      have hscopes : env.scopes = env.scope :: env.outer := rfl
      rw [hscopes, List.modify_zero_cons, List.findIdx?_cons, if_pos (hcontains _)]
      rfl
  · have hcontains : ∀ scope, Entries.contains x (Entries.insert name v scope) =
        Entries.contains x scope := fun scope => by
      rw [contains_insert, decide_eq_false fun he => hx he.symm, Bool.false_or]
    rw [findIdx?_modify_same hcontains, home]

/-! ## Sequences of assignments -/

/-- An environment is reached from another one by changes of the heap and assignments of certain
local variables, each with the flag with which it is set. -/
inductive Reaches (W : String → Bool → Prop) (env : Env) : Env → Prop
  | refl : Reaches W env env
  | heap {env' : Env} (heap : Heap) : Reaches W env env' → Reaches W env { env' with heap }
  | set {env' : Env} {name : String} {localOnly : Bool} (v : Value) : W name localOnly →
      Reaches W env env' → Reaches W env (env'.setLocal name v localOnly)

namespace Reaches

variable {W : String → Bool → Prop} {env env' env'' : Env}

/-- Assignments after assignments are assignments. -/
theorem trans (h : Reaches W env env') (h' : Reaches W env' env'') : Reaches W env env'' := by
  induction h' with
  | refl => exact h
  | heap heap _ ih => exact ih.heap heap
  | set v hw _ ih => exact ih.set v hw

/-- Assignments open and close no scope. -/
theorem length_scopes (h : Reaches W env env') : env'.scopes.length = env.scopes.length := by
  induction h with
  | refl => rfl
  | heap _ _ ih => exact ih
  | set v _ _ ih => rw [length_scopes_setLocal, ih]

/-- Assignments of local variables leave the globals. -/
theorem globals (h : Reaches W env env') : env'.globals = env.globals := by
  induction h with
  | refl => rfl
  | heap _ _ ih => exact ih
  | set v _ _ ih => rw [globals_setLocal, ih]

/-- Assignments of local variables leave `self`. -/
theorem selfValue (h : Reaches W env env') : env'.selfValue = env.selfValue := by
  induction h with
  | refl => rfl
  | heap _ _ ih => exact ih
  | set v _ _ ih => rw [selfValue_setLocal, ih]

/-- If every assignment is one in the innermost scope, then the others stay. -/
theorem outer (h : Reaches W env env') (hw : ∀ name flag, W name flag → flag = true) :
    env'.outer = env.outer := by
  induction h with
  | refl => rfl
  | heap _ _ ih => exact ih
  | set v h _ ih =>
    rw [hw _ _ h, setLocal, Bool.true_or, if_pos rfl, define, ih]

/-- A variable that is only set with one flag keeps its home, and its bindings change only in the
scope in which it is set. -/
theorem bindings (h : Reaches W env env') {x : String} {localOnly : Bool}
    (hx : ∀ flag, W x flag → flag = localOnly) :
    (localOnly = false → env'.home x = env.home x) ∧ ∀ depth,
      env'.bindingAt depth x ≠ env.bindingAt depth x →
        W x localOnly ∧ depth = env.place x localOnly := by
  induction h with
  | refl => exact ⟨fun _ => rfl, fun _ hne => absurd rfl hne⟩
  | heap _ _ ih => exact ih
  | @set env' name flag v hw _ ih =>
    obtain ⟨hhome, hbindings⟩ := ih
    refine ⟨fun hlocal => ?_, fun depth hne => ?_⟩
    · have hflag : x = name → flag = false := by
        rintro rfl
        exact (hx flag hw).trans hlocal
      rw [home_setLocal _ _ _ hflag, hhome hlocal]
    by_cases hset : (env'.setLocal name v flag).bindingAt depth x = env'.bindingAt depth x
    · exact hbindings depth (hset ▸ hne)
    · obtain ⟨rfl, rfl⟩ := bindingAt_setLocal env' name v flag hset
      obtain rfl := hx flag hw
      refine ⟨hw, ?_⟩
      unfold place
      split
      · rfl
      · rename_i hlocal
        exact hhome (Bool.eq_false_iff.2 hlocal)

end Reaches
end Env

/-! ## What instructions and runs do to the environment -/

/-- An operation that sets no global variable, and of the local ones only certain ones. -/
def Op.Within (W : String → Bool → Prop) : Op → Prop
  | .localSet name localOnly => W name localOnly
  | .globalSet _ => False
  | _ => True

namespace Machine

/-- The machine on which a run ends, well or not. -/
def last {α : Type} : EStateM.Result RuntimeError Machine α → Machine
  | .ok _ m | .error _ m => m

/-- A run changes the heap, and certain local variables, and nothing else of the environment. -/
def Moves {α : Type} (W : String → Bool → Prop) (x : Exec α) : Prop :=
  ∀ m : Machine, m.toEnv.Reaches W (last (x m)).toEnv

namespace Moves

variable {α β : Type} {W : String → Bool → Prop} {x : Exec α}

/-- Two runs in a row change what each of them changes. The second one is not begun if the first one
fails. -/
theorem bind {f : α → Exec β} (h : Moves W x) (hf : ∀ a, Moves W (f a)) : Moves W (x >>= f) := by
  intro m
  have hm := h m
  rw [bind_apply]
  cases hx : x m with
  | ok a m' =>
    rw [hx] at hm
    exact hm.trans (hf a m')
  | error e m' =>
    rw [hx] at hm
    exact hm

/-- A run that leaves the environment alone. -/
theorem still (h : ∀ m, (last (x m)).toEnv = m.toEnv) : Moves W x := fun m => by
  rw [h m]
  exact .refl

/-- A run that does nothing changes nothing. -/
theorem pure (a : α) : Moves W (Pure.pure a : Exec α) := still fun _ => rfl

/-- A run that fails at once changes nothing. -/
theorem throw (e : RuntimeError) : Moves W (MonadExcept.throw e : Exec α) := still fun _ => rfl

/-- Looking at the machine changes nothing. -/
theorem get : Moves W (MonadState.get : Exec Machine) := still fun _ => rfl

/-- A computation that needs no machine changes nothing, whether it fails or not. -/
theorem lift (outcome : Except RuntimeError α) : Moves W (Machine.lift outcome) :=
  still fun _ => by cases outcome <;> rfl

/-- A push changes the stack only. -/
theorem push (v : Value) : Moves W (Machine.push v) := still fun _ => rfl

/-- Looking at the top changes nothing. -/
theorem peek (pc : Nat) : Moves W (Machine.peek pc) := still fun m => by
  obtain ⟨env, _ | ⟨v, stack⟩, argc⟩ := m <;> rfl

/-- A pop changes the stack only. -/
theorem pop (pc : Nat) : Moves W (Machine.pop pc) := still fun m => by
  obtain ⟨env, _ | ⟨v, stack⟩, argc⟩ := m <;> rfl

/-- Several pops change the stack only. -/
theorem popMany (n pc : Nat) : Moves W (Machine.popMany n pc) := still fun m => by
  rcases popMany_cases pc n m with h | ⟨e, h⟩ <;> rw [h] <;> rfl

/-- A change of the heap changes the heap only. -/
theorem modifyHeap (f : Heap → Heap) : Moves W (Machine.modifyHeap f) := fun _ => .heap _ .refl

/-- A new cell is pushed: the heap and the stack are changed. -/
theorem pushNew (allocate : Heap → Value × Heap) : Moves W (Machine.pushNew allocate) :=
  fun _ => .heap _ .refl

/-- Finding the array on top changes nothing. -/
theorem sequence (pc : Nat) : Moves W (Machine.sequence pc) := by
  refine (peek pc).bind fun v => ?_
  cases v <;> first | exact pure _ | exact get.bind fun m => throw _

/-- Finding the hash on top changes nothing. -/
theorem keywords (pc : Nat) : Moves W (Machine.keywords pc) := by
  refine (peek pc).bind fun v => ?_
  cases v <;> first | exact pure _ | exact get.bind fun m => throw _

end Moves

/-- An instruction changes no more of the environment than it says. -/
theorem step_moves {W : String → Bool → Prop} {op : Op} (h : op.Within W) (pc : Nat) :
    Moves W (step op pc) := by
  cases op with
  | globalSet name => exact h.elim
  | pushNil | pushTrue | pushFalse | pushInt _ | pushString _ | pushSymbol _ => exact .push _
  | pushSelf => exact Moves.get.bind fun _ => .push _
  | createArray count => exact (Moves.popMany _ pc).bind fun _ => .pushNew _
  | createHash count =>
    exact (Moves.popMany _ pc).bind fun _ => Moves.get.bind fun _ => (Moves.lift _).bind fun _ =>
      .pushNew _
  | localGet name =>
    refine Moves.get.bind fun m => ?_
    split
    · exact .push _
    · exact .throw _
  | localSet name localOnly =>
    -- the only instruction that sets a variable of the environment here
    exact (Moves.pop pc).bind fun v _ => .set v h .refl
  | instanceGet name =>
    refine Moves.get.bind fun m => ?_
    split <;> exact .push _
  | instanceSet name =>
    refine (Moves.pop pc).bind fun v => Moves.get.bind fun m => ?_
    split
    · exact .modifyHeap _
    · exact .throw _
  | globalGet name => exact Moves.get.bind fun _ => .push _
  | dup => exact (Moves.peek pc).bind fun _ => .push _
  | pop => exact (Moves.pop pc).bind fun _ => .pure _
  | arrayShift | arrayPop =>
    exact (Moves.sequence pc).bind fun _ => Moves.get.bind fun _ => (Moves.modifyHeap _).bind
      fun _ => .push _
  | arrayIsEmpty => exact (Moves.sequence pc).bind fun _ => Moves.get.bind fun _ => .push _
  | toArray =>
    exact (Moves.pop pc).bind fun _ => Moves.get.bind fun _ => (Moves.lift _).bind fun _ =>
      .pushNew _
  | stageKeywords =>
    refine (Moves.sequence pc).bind fun _ => Moves.get.bind fun m => ?_
    dsimp only
    split
    · exact (Moves.modifyHeap _).bind fun _ => .pushNew _
    · exact .pushNew _
  | hasKeyword name => exact (Moves.keywords pc).bind fun _ => Moves.get.bind fun _ => .push _
  | takeKeyword name =>
    refine (Moves.keywords pc).bind fun _ => Moves.get.bind fun m => ?_
    dsimp only
    split
    · exact (Moves.modifyHeap _).bind fun _ => .push _
    · exact .throw _
  | checkKeywords =>
    refine (Moves.keywords pc).bind fun _ => Moves.get.bind fun m => ?_
    dsimp only
    split
    · exact .throw _
    · exact .pure _
  | setArgc count => exact .still fun _ => rfl
  | send message toSelf isWriter =>
    refine (Moves.pop pc).bind fun _ => Moves.get.bind fun _ => (Moves.popMany _ pc).bind fun _ =>
      Moves.get.bind fun _ => (Moves.lift _).bind ?_
    rintro ⟨result, heap⟩
    exact (Moves.modifyHeap fun _ => heap).bind fun _ => .push _
  | ifTrue | orElse | endIf => exact .pure _

/-- A run changes no more of the environment than its instructions say. -/
theorem run_moves {W : String → Bool → Prop} {jumps : Jumps} {pc : Nat} {code : Stream}
    (h : ∀ i ∈ code, i.op.Within W) : Moves W (run jumps pc code) := by
  induction hn : code.length using Nat.strongRecOn generalizing pc code with
  | ind n ih =>
  cases code with
  | nil =>
    rw [run_nil]
    exact .pure ()
  | cons i rest =>
    have hrest := (List.forall_mem_cons.1 h).2
    obtain ⟨op, s⟩ := i
    have hop : op.Within W := h _ List.mem_cons_self
    -- what is left of the rest is shorter, and so the induction hypothesis is about it
    have hbehind : ∀ pc k, Moves W (run jumps pc (rest.drop k)) := fun pc k =>
      ih _ (by rw [List.length_drop, ← hn, List.length_cons]; omega)
        (fun i hi => hrest i (List.mem_of_mem_drop hi)) rfl
    have hnext : ∀ pc, Moves W (run jumps pc rest) := fun pc => hbehind pc 0
    rw [run]
    cases op with
    | ifTrue =>
      refine (Moves.pop pc).bind fun c => ?_
      split
      · exact hnext _
      · exact hbehind _ _
    | orElse => exact hbehind _ _
    | endIf => exact hnext _
    | _ => exact (step_moves hop pc).bind fun _ => hnext _

/-- A call of a stream changes no more of the environment than the instructions of the stream. -/
theorem call_moves {W : String → Bool → Prop} {code : Stream} (h : ∀ i ∈ code, i.op.Within W)
    (items : Heap → List Value) : Moves W (call code items) := by
  refine Moves.get.bind fun m => (Moves.pushNew _).bind fun _ => Moves.bind ?_ fun _ => ?_
  · exact (Moves.lift _).bind fun jumps => run_moves h
  · refine Moves.get.bind fun m => ?_
    dsimp only
    split
    · exact .throw _
    · exact .pure _

end Machine

/-! ## What the code for parameters sets -/

/-- Whether a parameter is a group. -/
def Param.isGroup : Param → Bool
  | .group .. => true
  | _ => false

/-- The local variables that the code for a parameter sets, each with its flag: the names in a group
always in the innermost scope. -/
def Param.Sets (localOnly : Bool) (p : Param) (name : String) (flag : Bool) : Prop :=
  name ∈ p.names ∧ flag = (localOnly || p.isGroup)

/-- What the code for a parameter sets, the code for its level sets. -/
def Param.LevelSets (localOnly : Bool) (ps : List Param) (name : String) (flag : Bool) : Prop :=
  ∃ p ∈ ps, p.Sets localOnly name flag

/-- The instructions of a stream set only certain local variables. -/
def Stream.Within (W : String → Bool → Prop) (code : Stream) : Prop := ∀ i ∈ code, i.op.Within W

namespace Stream.Within

variable {W W' : String → Bool → Prop} {a b : Stream}

/-- No instructions set nothing. -/
theorem nil : Stream.Within W [] := List.forall_mem_nil _

/-- An instruction and others set what each of them sets. -/
theorem cons {i : Instruction} (hi : i.op.Within W) (h : Stream.Within W a) :
    Stream.Within W (i :: a) := List.forall_mem_cons.2 ⟨hi, h⟩

/-- Two streams in a row set what each of them sets. -/
theorem append (ha : Stream.Within W a) (hb : Stream.Within W b) : Stream.Within W (a ++ b) :=
  List.forall_mem_append.2 ⟨ha, hb⟩

/-- A stream that sets certain variables sets no others than more of them. -/
theorem mono (hw : ∀ name flag, W name flag → W' name flag) (h : Stream.Within W a) :
    Stream.Within W' a := by
  intro i hi
  have := h i hi
  obtain ⟨op, s⟩ := i
  cases op <;> first | trivial | exact this | exact hw _ _ this

/-- Code that evaluates expressions sets no variable. -/
theorem of_evaluates (h : ∀ i ∈ a, i.op.evaluates = true) : Stream.Within W a := by
  intro i hi
  have := h i hi
  obtain ⟨op, s⟩ := i
  cases op <;> trivial

end Stream.Within

namespace Param

variable {localOnly : Bool} {W : String → Bool → Prop}

/-- Taking a value from the sequence sets no variable. -/
theorem within_takeValue (s : LevelState) (span : Span) : (s.takeValue span).op.Within W := by
  unfold LevelState.takeValue
  cases s.side <;> trivial

/-- Dropping the keyword hash sets no variable. -/
theorem within_unstageCode (s : LevelState) (span : Span) :
    Stream.Within W (s.unstageCode span) := by
  unfold LevelState.unstageCode
  split
  · refine .append ?_ (.cons trivial .nil)
    split
    · exact .nil
    · exact .cons trivial .nil
  · exact .nil

/-- Taking the keyword hash out sets no variable. -/
theorem within_stageCode (s : LevelState) (span : Span) : Stream.Within W (s.stageCode span) := by
  unfold LevelState.stageCode
  split
  · exact .nil
  · exact .cons trivial .nil

/-- The code of an expression sets no variable. -/
theorem within_lower {e : Expr} {span : Span} {code : Stream} (h : e.lower span = .ok code) :
    Stream.Within W code := .of_evaluates (Expr.lower_evaluates h)

/-- A parameter that is no group sets its names with the flag of its level. -/
theorem sets_own {p : Param} {name : String} (hp : p.isGroup = false) (hname : name ∈ p.names) :
    p.Sets localOnly name localOnly := ⟨hname, by rw [hp, Bool.or_false]⟩

/-- The code that binds what is on top sets the name that it is bound to, if there is one. -/
theorem within_shareWith {name : Option String} (h : ∀ n ∈ name, W n localOnly) (span : Span) :
    Stream.Within W (shareWith name localOnly span) := by
  cases name with
  | none => exact .nil
  | some n => exact .cons trivial (.cons (h n rfl) .nil)

/-- A level sets what its parameters set. -/
theorem within_levelCode {ps : List Param} {code : Stream}
    (hp : ∀ p ∈ ps, ∀ s code, (p.piece localOnly).code s = .ok code →
      Stream.Within (p.Sets localOnly) code)
    (h : levelCode (Param.pieces localOnly ps) = .ok code) :
    Stream.Within (LevelSets localOnly ps) code := by
  rw [Param.pieces_eq] at h
  obtain ⟨codes, span, hcodes, rfl⟩ := levelCode_ok (Param.piece_part localOnly) h
  refine .append ?_ ((within_unstageCode _ span).append (.cons trivial .nil))
  intro i hi
  obtain ⟨code, hcode, hi⟩ := List.mem_flatten.1 hi
  obtain ⟨⟨s, p⟩, hstep, hpiece⟩ := exists_of_mem_mapM_ok hcodes code hcode
  have hmem : p ∈ ps := Plan.mem_of_mem_ofList hstep
  exact (hp p hmem s code hpiece).mono (fun name flag hsets => ⟨p, hmem, hsets⟩) i hi

/-- The code for a parameter sets what the parameter sets. -/
theorem within_piece (localOnly : Bool) (p : Param) (s : LevelState) (code : Stream)
    (h : (p.piece localOnly).code s = .ok code) : Stream.Within (p.Sets localOnly) code := by
  induction p generalizing localOnly s code with
  | required name span =>
    cases h
    exact (within_unstageCode s span).append (.cons (within_takeValue s span)
      (.cons (sets_own rfl (.head _)) .nil))
  | optional name default span =>
    obtain ⟨absent, ha, rfl⟩ := optional_code h
    have hblock := (within_lower ha).append (W := (optional name default span).Sets localOnly)
      (.cons (i := ⟨.orElse, span⟩) trivial (.cons (i := ⟨.arrayShift, span⟩) trivial
        (.cons (i := ⟨.endIf, span⟩) trivial .nil)))
    exact (within_unstageCode s span).append (.append (.cons trivial .nil)
      (.append (.cons trivial hblock) (.cons (sets_own rfl (.head _)) .nil)))
  | rest name span =>
    cases h
    exact (within_unstageCode s span).append
      (within_shareWith (fun n hn => sets_own rfl (Option.mem_toList.2 hn)) span)
  | keyword name default span =>
    cases default with
    | none =>
      cases h
      exact (within_stageCode s span).append (.cons trivial (.cons (sets_own rfl (.head _)) .nil))
    | some default =>
      obtain ⟨absent, ha, rfl⟩ := keyword_code h
      have hblock := (within_lower ha).append
        (W := (keyword name (some default) span).Sets localOnly)
        (.cons (i := ⟨.endIf, span⟩) trivial .nil)
      exact (within_stageCode s span).append (.append (.cons trivial .nil) (.append
        (.cons trivial (.append (.cons trivial .nil) (.cons trivial hblock)))
        (.cons (sets_own rfl (.head _)) .nil)))
  | keywordRest name span =>
    cases h
    exact (within_stageCode s span).append
      (within_shareWith (fun n hn => sets_own rfl (Option.mem_toList.2 hn)) span)
  | group children span ih =>
    obtain ⟨inner, hi, rfl⟩ := group_code h
    have hinner : Stream.Within ((group children span).Sets localOnly) inner := by
      refine (within_levelCode (fun p hp => ih p hp true) hi).mono ?_
      rintro name flag ⟨p, hp, hname, rfl⟩
      exact ⟨mem_allNames_iff.2 ⟨p, hp, hname⟩, (Bool.or_true localOnly).symm⟩
    exact (within_unstageCode s span).append (.cons (within_takeValue s span)
      (.cons trivial (.cons trivial (hinner.append (.cons trivial .nil)))))
  | attr receiver writer span =>
    obtain ⟨write, hw, h⟩ := ok_of_bind h
    cases h
    obtain ⟨target, ht, hw⟩ := ok_of_bind hw
    cases hw
    exact .append ((within_unstageCode s span).append (.cons (within_takeValue s span) .nil))
      ((within_lower ht).append (.cons trivial (.cons trivial (.cons trivial .nil))))

end Param

/-- Names that are declared once are declared by one parameter. -/
theorem Param.eq_of_mem_names {ps : List Param} (honce : (Param.allNames ps).Nodup) {name : String}
    {p q : Param} (hp : p ∈ ps) (hq : q ∈ ps) (hnp : name ∈ p.names) (hnq : name ∈ q.names) :
    p = q := by
  rw [Param.allNames_eq, List.nodup_flatMap] at honce
  have : Std.Symm fun p q : Param => name ∈ p.names → name ∈ q.names → p = q :=
    ⟨fun _ _ h hnq hnp => (h hnp hnq).symm⟩
  have hone : ps.Pairwise fun p q => name ∈ p.names → name ∈ q.names → p = q :=
    honce.2.imp fun hdisjoint hnp hnq => absurd hnq (hdisjoint hnp)
  exact hone.forall_of_forall (fun _ _ _ _ => rfl) hp hq hnp hnq

/-- **Local variables.** Binding with a list that is compiled and declares its names once leaves the
number of scopes, the global variables and `self` alone, however it ends. Every binding that changes
is one of a name that the list declares: of a parameter in a group, or of any with `localOnly`, in
the innermost scope, and otherwise in the innermost scope that already had the name, or in the
innermost one of all if none had. -/
theorem declared_bindings_change {list : Option ParamList} {localOnly : Bool} {code : Stream}
    {ps : List Param} (hcheck : ParamList.check? list = .ok ps)
    (hcode : ParamList.compile? list localOnly = .ok code) (honce : (Param.allNames ps).Nodup)
    (m : Machine) (arguments : List Value) :
    let m' := last (bindArguments code arguments m)
    m'.scopes.length = m.scopes.length ∧ m'.globals = m.globals ∧ m'.selfValue = m.selfValue ∧
      (localOnly = true → m'.outer = m.outer) ∧
      ∀ depth name, m'.bindingAt depth name ≠ m.bindingAt depth name →
        ∃ p ∈ ps, name ∈ p.names ∧
          depth = if localOnly || p.isGroup then 0 else m.home name := by
  intro m'
  have hlevel : levelCode (Param.pieces localOnly ps) = .ok code := by
    rwa [ParamList.compile?, hcheck] at hcode
  have hreaches : m.toEnv.Reaches (Param.LevelSets localOnly ps) m'.toEnv :=
    call_moves (Param.within_levelCode (fun p _ => p.within_piece localOnly) hlevel)
      (fun _ => arguments) m
  refine ⟨hreaches.length_scopes, hreaches.globals, hreaches.selfValue, ?_, ?_⟩
  · rintro rfl
    refine hreaches.outer ?_
    rintro name flag ⟨p, -, -, rfl⟩
    rfl
  · intro depth name hne
    by_cases hdeclared : ∃ p ∈ ps, name ∈ p.names
    · obtain ⟨p, hp, hname⟩ := hdeclared
      have hflag : ∀ flag, Param.LevelSets localOnly ps name flag →
          flag = (localOnly || p.isGroup) := by
        rintro flag ⟨q, hq, hnq, rfl⟩
        rw [Param.eq_of_mem_names honce hq hp hnq hname]
      exact ⟨p, hp, hname, ((hreaches.bindings hflag).2 depth hne).2⟩
    · have hnone : ∀ flag, Param.LevelSets localOnly ps name flag → flag = true := by
        rintro flag ⟨q, hq, hnq, -⟩
        exact absurd ⟨q, hq, hnq⟩ hdeclared
      obtain ⟨p, hp, hname, -⟩ := ((hreaches.bindings hnone).2 depth hne).1
      exact absurd ⟨p, hp, hname⟩ hdeclared

/-- `a, (b, *c)` on a machine whose outer scope has `a` and `b`: `a` changes there, and `b` and `c`
are new in the innermost scope. -/
theorem outer_binding_changes :
    let list : Option ParamList := some ⟨[.required "a" {},
      .group [.required "b" {}, .rest (some "c") {}] {}], {}⟩
    let ps : List Param := [.required "a" {}, .group [.required "b" {}, .rest (some "c") {}] {}]
    let m : Machine :=
      { fresh { arrays := #[[.int 6]] } with outer := [[("a", .int 1), ("b", .int 2)]] }
    ParamList.check? list = .ok ps ∧ (Param.allNames ps).Nodup ∧
      ∃ code, ParamList.compile? list false = .ok code ∧
        let m' := last (bindArguments code [.int 5, .array 0] m)
        m'.scopes = [[("b", .int 6), ("c", .array 2)], [("a", .int 5), ("b", .int 2)]] ∧
          ∀ depth name, m'.bindingAt depth name ≠ m.bindingAt depth name →
            ∃ p ∈ ps, name ∈ p.names ∧ depth = if false || p.isGroup then 0 else m.home name := by
  intro list ps m
  have hcheck : ParamList.check? list = .ok ps := by cbv
  have honce : (Param.allNames ps).Nodup := by decide
  have hcode : ParamList.compile? list false = .ok [⟨.arrayShift, {}⟩, ⟨.localSet "a" false, {}⟩,
      ⟨.arrayShift, {}⟩, ⟨.dup, {}⟩, ⟨.toArray, {}⟩, ⟨.arrayShift, {}⟩, ⟨.localSet "b" true, {}⟩,
      ⟨.dup, {}⟩, ⟨.localSet "c" true, {}⟩, ⟨.pop, {}⟩, ⟨.pop, {}⟩, ⟨.pop, {}⟩] := by
    cbv
  refine ⟨hcheck, honce, _, hcode, ?_⟩
  obtain ⟨-, -, -, -, hbindings⟩ := declared_bindings_change hcheck hcode honce m [.int 5, .array 0]
  exact ⟨by cbv, hbindings⟩

end Formals
