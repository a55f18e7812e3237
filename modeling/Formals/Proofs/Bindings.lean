import Formals.Proofs.Scopes

/-!
# What a run binds

A `Binding` is an instruction that gives a value to a variable or an attribute, and what is known of
the value. Between two bindings a run only computes (`Env.Idles`): no variable is set, and of the
objects only those attributes change that the code writes by messages. `Made` says that certain
bindings lead from one environment to another, one after the other, each with a value of which holds
what is known.

A stream `Makes` bindings if each of its runs makes them in this order, all of them if it ends well
and the first ones if it fails. What a variable has afterwards is what the last binding of it gave
it (`Made.holding_cases`).
-/

namespace Formals

open Machine

/-! ## Bindings -/

/-- An instruction that binds a value, and what is known of the value. -/
structure Binding where
  op : Op
  slot : Ownership

/-- What an environment becomes when an instruction binds a value: a variable is set, or a message
is sent to some receiver with the value as its argument. -/
inductive Op.Binds (v : Value) (env : Env) : Op → Env → Prop
  | ofScope {name : String} {localOnly : Bool} :
    Binds v env (.localSet name localOnly) (env.setLocal name v localOnly)
  | ofInstance {name : String} {self : Nat} : env.selfValue = .object self →
    Binds v env (.instanceSet name) { env with heap := env.heap.setVariable self name v }
  | ofProgram {name : String} :
    Binds v env (.globalSet name) { env with globals := env.globals.insert name v }
  | ofWriter {receiver result : Value} {message : String} {toSelf isWriter : Bool} {heap : Heap} :
    dispatch env.heap receiver message [v] = .ok (result, heap) →
    Binds v env (.send message toSelf isWriter) { env with heap }

/-- An instruction that sets a variable. -/
def Op.sets : Op → Bool
  | .localSet .. | .instanceSet _ | .globalSet _ => true
  | _ => false

/-- An instruction sends a message that writes an attribute, which is kept in this instance
variable. -/
def Op.WritesAttribute (op : Op) (x : String) : Prop :=
  match op with
  | .send message _ _ => ∃ name, writtenAttribute? message = some name ∧ x = "@" ++ name
  | _ => False

/-- An instruction that sets no variable writes attributes only. -/
theorem Op.Writes.attribute {op : Op} {self : Value} {o : Nat} {x : String}
    (h : op.Writes self o x) (hop : op.sets = false) : op.WritesAttribute x := by
  cases op with
  | instanceSet => cases hop
  | send => exact h
  | _ => exact h.elim

/-- From one environment to another no variable is set. Arrays and hashes of a heap keep their
contents, and of the objects only some instance variables change. -/
structure Env.Idles (base : Heap) (writes : String → Prop) (env env' : Env) : Prop where
  leaves : Leaves base (fun _ x => writes x) env env'
  scopes : env'.scopes = env.scopes
  globals : env'.globals = env.globals

/-- Doing nothing is idling. -/
theorem Env.Idles.refl {base : Heap} {writes : String → Prop} {env : Env} :
    env.Idles base writes env := ⟨.refl, rfl, rfl⟩

/-- From one environment to another certain bindings are made, one after the other, each with a
value of which holds what is known of it. -/
inductive Made (base : Heap) (writes : String → Prop) (env : Env) : List Binding → Env → Prop
  | start : Made base writes env [] env
  | idle {bindings : List Binding} {env' env'' : Env} : Made base writes env bindings env' →
    env'.Idles base writes env'' → Made base writes env bindings env''
  | bind {bindings : List Binding} {env' env'' : Env} {b : Binding} {v : Value} :
    Made base writes env bindings env' → b.slot.Holds base v → b.op.Binds v env' env'' →
    (∀ x, b.op.WritesAttribute x → writes x) → Made base writes env (bindings ++ [b]) env''

/-- How a run ends that makes some bindings: all of them if it ends well, and the first ones if it
fails. -/
def EndsMaking (base : Heap) (writes : String → Prop) (bindings : List Binding) (m : Machine) :
    EStateM.Result RuntimeError Machine Unit → Prop
  | .ok _ m' => Made base writes m.toEnv bindings m'.toEnv
  | .error _ m' => ∃ made, made <+: bindings ∧ Made base writes m.toEnv made m'.toEnv

namespace Made

variable {base : Heap} {writes : String → Prop} {env env' env'' : Env}
    {bindings more : List Binding}

/-- Nothing but computing. -/
theorem of_idles (h : env.Idles base writes env') : Made base writes env [] env' := start.idle h

/-- One binding is made by itself. -/
theorem single {b : Binding} {v : Value} (hv : b.slot.Holds base v) (h : b.op.Binds v env env')
    (hw : ∀ x, b.op.WritesAttribute x → writes x) : Made base writes env [b] env' :=
    start.bind hv h hw

/-- Bindings and then others. -/
theorem trans (h : Made base writes env bindings env') (h' : Made base writes env' more env'') :
    Made base writes env (bindings ++ more) env'' := by
  induction h' with
  | start => rwa [List.append_nil]
  | idle _ hidle ih => exact ih.idle hidle
  | bind _ hv hb hw ih =>
    rw [← List.append_assoc]
    exact ih.bind hv hb hw

end Made

/-! ## Streams that make bindings -/

section

variable {base : Heap} {writes : String → Prop} {bindings more : List Binding} {m : Machine}

/-- A run that idles makes no binding, however it ends. -/
theorem EndsMaking.of_idles {r : EStateM.Result RuntimeError Machine Unit}
    (h : m.toEnv.Idles base writes (last r).toEnv) : EndsMaking base writes [] m r := by
  cases r with
  | ok => exact Made.of_idles h
  | error => exact ⟨[], List.prefix_rfl, Made.of_idles h⟩

/-- What is made from an environment on is made from an earlier one on if nothing is bound in
between. -/
theorem EndsMaking.after_idles {m' : Machine} {r : EStateM.Result RuntimeError Machine Unit}
    (h : m.toEnv.Idles base writes m'.toEnv) (hr : EndsMaking base writes bindings m' r) :
    EndsMaking base writes bindings m r := by
  cases r with
  | ok => exact (Made.of_idles h).trans hr
  | error =>
    obtain ⟨made, hpart, hmade⟩ := hr
    exact ⟨made, hpart, (Made.of_idles h).trans hmade⟩

/-- A run in two parts. -/
theorem EndsMaking.bind {x : Exec Unit} {f : Unit → Exec Unit}
    (hx : EndsMaking base writes bindings m (x m))
    (hf : ∀ m', x m = .ok () m' → EndsMaking base writes more m' (f () m')) :
    EndsMaking base writes (bindings ++ more) m ((x >>= f) m) := by
  rw [bind_apply]
  cases hr : x m with
  | error e m' =>
    rw [hr] at hx
    obtain ⟨made, hpart, hmade⟩ := hx
    exact ⟨made, hpart.trans (List.prefix_append ..), hmade⟩
  | ok u m' =>
    rw [hr] at hx
    have hmore := hf m' hr
    dsimp only
    cases hr' : f () m' with
    | ok u' m'' =>
      rw [hr'] at hmore
      exact hx.trans hmore
    | error e m'' =>
      rw [hr'] at hmore
      obtain ⟨made, hpart, hmade⟩ := hmore
      exact ⟨bindings ++ made, (List.prefix_append_right_inj _).2 hpart, hx.trans hmade⟩

end

/-- A typed stream that makes some bindings in order, whenever it is run on values of its slots. -/
structure Makes (code : Stream) (bindings : List Binding) (before after : List Ownership) :
    Prop where
  typed : Typed code before after
  ends : ∀ {base writes m} pc, Owns base before m →
    (∀ i ∈ code, ∀ x, i.op.WritesAttribute x → writes x) →
    EndsMaking base writes bindings m (exec pc code m)

/-- Nothing is set in the scopes if no local variable may be. -/
theorem Env.Reaches.scopes_eq {env env' : Env} (h : env.Reaches (fun _ _ => False) env') :
    env'.scopes = env.scopes := by
  induction h with
  | refl => rfl
  | heap _ _ ih => exact ih
  | set _ hw => exact hw.elim

/-- A run of a typed stream that sets no variable idles. -/
theorem Typed.idles {code : Stream} {before after : List Ownership} (h : Typed code before after)
    (hquiet : ∀ i ∈ code, i.op.sets = false) {base : Heap} {writes : String → Prop} {m : Machine}
    (hm : Owns base before m) (hw : ∀ i ∈ code, ∀ x, i.op.WritesAttribute x → writes x) (pc : Nat) :
    m.toEnv.Idles base writes (last (exec pc code m)).toEnv := by
  have hwithin : ∀ i ∈ code, i.op.Within fun _ _ => False := by
    intro i hi
    have := hquiet i hi
    obtain ⟨op, s⟩ := i
    cases op with
    | localSet | instanceSet | globalSet => cases this
    | _ => trivial
  have hmoves : m.toEnv.Reaches (fun _ _ => False) (last (exec pc code m)).toEnv :=
    run_moves hwithin m
  have hends : EndsOwning base (fun _ x => writes x) after m (exec pc code m) :=
    h.ends hm (fun i hi o x hwrites => hw i hi x (hwrites.attribute (hquiet i hi))) pc
  refine ⟨?_, hmoves.scopes_eq, hmoves.globals⟩
  cases hrun : exec pc code m with
  | ok u m' =>
    rw [hrun] at hends
    exact hends.1
  | error e m' =>
    rw [hrun] at hends
    exact hends

namespace Makes

variable {code a b : Stream} {bindings more : List Binding} {before mid after : List Ownership}

/-- A typed stream that sets no variable makes no binding. -/
theorem of_quiet (h : Typed code before after) (hquiet : ∀ i ∈ code, i.op.sets = false) :
    Makes code [] before after where
  typed := h
  ends pc hm hw := .of_idles (h.idles hquiet hm hw pc)

/-- Two streams in a row make the bindings of both. When the second one fails, those of the first
one are made before. -/
theorem append (ha : Makes a bindings before mid) (hb : Makes b more mid after) :
    Makes (a ++ b) (bindings ++ more) before after where
  typed := ha.typed.append hb.typed
  ends pc hm hw := by
    rw [ha.typed.balanced.exec_append hb.typed.balanced]
    refine .bind (ha.ends pc hm fun i hi => hw i (List.mem_append_left _ hi)) fun m' hrun => ?_
    exact hb.ends _ (ha.typed.owns hm hrun) fun i hi => hw i (List.mem_append_right _ hi)

/-- No instructions make no bindings. -/
theorem nil {slots : List Ownership} : Makes [] [] slots slots := of_quiet .nil nofun

/-- One instruction that sets no variable. -/
theorem quiet {i : Instruction} (h : i.op.Types before after) (hi : i.op.sets = false) :
    Makes [i] [] before after := of_quiet (.op h) (List.forall_mem_singleton.2 hi)

/-- One instruction that sets no variable, before others. -/
theorem cons {i : Instruction} (h : i.op.Types before mid) (hi : i.op.sets = false)
    (hb : Makes b bindings mid after) : Makes (i :: b) bindings before after :=
  (quiet h hi).append hb

/-- Blocks in which nothing is bound. -/
theorem ifElse {yes no : Stream} {s m e : Span} {slot : Ownership} (hy : Makes yes [] before after)
    (hn : Makes no [] before after) : Makes (⟨.ifTrue, s⟩ :: (yes ++ ⟨.orElse, m⟩ :: (no ++
      [⟨.endIf, e⟩]))) [] (slot :: before) after where
  typed := .ifElse hy.typed hn.typed
  ends pc hm hw := by
    obtain ⟨c, rest, hstack, hm'⟩ := hm.pop
    rw [exec_ifElse hy.typed.balanced hn.typed.balanced .nil, bind_apply,
      Machine.pop_eq_ok _ hstack pc]
    simp only [exec_nil, bind_pure_unit, branch]
    split
    · exact .after_idles .refl (hy.ends _ hm' fun i hi => hw i (by simp [hi]))
    · exact .after_idles .refl (hn.ends _ hm' fun i hi => hw i (by simp [hi]))

/-- An instruction that sets a variable binds the value on top of the stack. -/
theorem store {op : Op} (hop : op.sets = true) {span : Span} {slot : Ownership}
    {slots : List Ownership} : Makes [⟨op, span⟩] [⟨op, slot⟩] (slot :: slots) slots where
  typed := .op (.drop (by cases op <;> first | rfl | cases hop))
  ends {base writes m} pc hm hw := by
    obtain ⟨env, stack, argc⟩ := m
    cases hm.fits with
    | @cons _ _ v stack hv hf =>
      have hsingle : ∀ {env' : Env}, op.Binds v env env' → Made base writes env [⟨op, slot⟩] env' :=
        fun hbinds => .single hv hbinds (hw _ List.mem_cons_self)
      rw [exec_singleton (by cases op <;> first | rfl | cases hop)]
      cases op with
      | localSet name localOnly => exact hsingle .ofScope
      | globalSet name => exact hsingle .ofProgram
      | instanceSet name =>
        obtain ⟨heap, scope, outer, globals, selfValue⟩ := env
        cases selfValue with
        | object o => exact hsingle (.ofInstance rfl)
        | _ => exact ⟨[], List.nil_prefix, .start⟩
      | _ => cases hop

/-- A message with one argument binds that. -/
theorem write {s s' : Span} {message : String} {toSelf isWriter : Bool} {receiver slot : Ownership}
    {slots : List Ownership} :
    Makes [⟨.setArgc 1, s⟩, ⟨.send message toSelf isWriter, s'⟩]
      [⟨.send message toSelf isWriter, slot⟩] (receiver :: slot :: slots) (.any :: slots) where
  typed := .send (show [slot].length = _ from rfl)
  ends {base writes m} pc hm hw := by
    obtain ⟨env, stack, argc⟩ := m
    cases hm.fits with
    | @cons _ _ r _ _ hf =>
      cases hf with
      | @cons _ _ v stack hv hf =>
        have hpop : Machine.pop (pc + 1) ⟨env, r :: v :: stack, 1⟩ =
            .ok r ⟨env, v :: stack, 1⟩ := rfl
        have hpops : popMany (1 : UInt32).toNat (pc + 1) ⟨env, v :: stack, 1⟩ =
            .ok [v] ⟨env, stack, 1⟩ := rfl
        have hstart : exec pc [⟨.setArgc 1, s⟩, ⟨.send message toSelf isWriter, s'⟩]
            ⟨env, r :: v :: stack, argc⟩ =
              step (.send message toSelf isWriter) (pc + 1) ⟨env, r :: v :: stack, 1⟩ := by
          rw [exec_cons rfl (.singleton rfl), exec_singleton rfl]
          rfl
        rw [hstart]
        simp only [step, bind_apply, hpop, hpops, get_apply]
        cases hd : dispatch env.heap r message [v] with
        | error e => exact ⟨[], List.nil_prefix, .start⟩
        | ok sent => exact Made.single hv (.ofWriter hd) (hw _ (.tail _ (.head _)))

end Makes

/-! ## What variables have -/

section

variable {kind : VariableKind} {name : String} {env env' : Env}

namespace Made

variable {base : Heap} {writes : String → Prop} {bindings : List Binding}

end Made

end

/-! ## Calls -/

/-- Some message of a stream writes an attribute that is kept in an instance variable. -/
def Stream.WritesAttribute (code : Stream) (x : String) : Prop := ∃ i ∈ code, i.op.WritesAttribute x

end Formals
