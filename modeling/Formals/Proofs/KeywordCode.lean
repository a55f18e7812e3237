import Formals.Proofs.CallerData
import Formals.Proofs.Compiling
import Formals.Proofs.Keywords
import Formals.Proofs.Sparing

/-!
# The keyword hash in the code

The code for a level holds the code of its defaults and of the levels in its groups. `levelEmits` is
the same code with the `Origin` of each instruction, so that the instructions of the level itself
can be told from these. Among its own a level that takes keywords has one that stages the keyword
hash and one that drops it, and all its dealings with the hash lie between the two
(`KeywordStretch`); other levels have no dealings with it (`keyword_hash_staged`).
-/

namespace Formals

/-! ## Instructions and what they are there for -/

/-- What an instruction in the code for a level is there for. -/
inductive Origin where
  /-- It binds a parameter of the level. -/
  | item (p : Param)
  /-- It belongs to the code of a default or of the level in a group. -/
  | nested
  /-- It takes the level from the stack. -/
  | close

/-- Whether an instruction is one of the level itself. -/
def Origin.isOwn : Origin → Bool
  | item _ | close => true
  | nested => false

/-- An instruction in the code for a level. -/
structure Emitted where
  origin : Origin
  instruction : Instruction

namespace Emitted

/-- The operation of an instruction. -/
def op (e : Emitted) : Op := e.instruction.op

/-- Instructions that are there for the same. -/
def emit (origin : Origin) (code : Stream) : List Emitted := code.map (mk origin)

/-- The instructions of the level itself. -/
def own (es : List Emitted) : List Emitted := es.filter fun e => e.origin.isOwn

/-- The stream of some instructions. -/
def code (es : List Emitted) : Stream := es.map instruction

@[simp] theorem code_append (a b : List Emitted) : code (a ++ b) = code a ++ code b :=
  List.map_append

@[simp] theorem code_emit (origin : Origin) (stream : Stream) :
    code (emit origin stream) = stream := by
  rw [code, emit, List.map_map]
  exact List.map_id _

/-- The stream of pieces put together is made of their streams. -/
theorem code_flatten (ess : List (List Emitted)) : code ess.flatten = (ess.map code).flatten :=
  List.map_flatten

@[simp] theorem own_append (a b : List Emitted) : own (a ++ b) = own a ++ own b :=
  List.filter_append ..

/-- All instructions that are there for the same are the level's own, or none is. -/
theorem own_emit (origin : Origin) (stream : Stream) :
    own (emit origin stream) = if origin.isOwn then emit origin stream else [] := by
  cases h : origin.isOwn <;> simp [own, emit, List.filter_map, Function.comp_def, h]

@[simp] theorem own_item (p : Param) (stream : Stream) :
    own (emit (.item p) stream) = emit (.item p) stream := own_emit ..

@[simp] theorem own_nested (stream : Stream) : own (emit .nested stream) = [] := own_emit ..

@[simp] theorem own_close (stream : Stream) : own (emit .close stream) = emit .close stream :=
  own_emit ..

/-- What is said of instructions that are there for the same. -/
theorem forall_mem_emit {P : Emitted → Prop} {origin : Origin} {stream : Stream} :
    (∀ e ∈ emit origin stream, P e) ↔ ∀ i ∈ stream, P ⟨origin, i⟩ := List.forall_mem_map

end Emitted

/-- An instruction that deals with the keyword hash. -/
def Op.usesKeywords : Op → Bool
  | .stageKeywords | .hasKeyword _ | .takeKeyword _ | .checkKeywords => true
  | _ => false

/-- An instruction that looks at the sequence of its level, takes a value from it, or shares it with
a rest. -/
def Emitted.usesSequence (e : Emitted) : Bool :=
  e.op.takes || match e.origin with
    | .item p => p.part = .rest && e.op = .dup
    | _ => false

/-! ## The code for a level -/

open Emitted (own emit)

/-- The code for a parameter, with what its instructions are there for. -/
def Param.emits (localOnly : Bool) (s : LevelState) (p : Param) :
    Except BindError (List Emitted) :=
  match p with
  | .optional name default span => do
    let absent ← defaultCode name default span
    return emit (.item p) (s.unstageCode span ++ [⟨.arrayIsEmpty, span⟩, ⟨.ifTrue, span⟩]) ++
      emit .nested absent ++ emit (.item p) [⟨.orElse, span⟩, ⟨.arrayShift, span⟩, ⟨.endIf, span⟩,
        setParam name localOnly span]
  | .keyword name (some default) span => do
    let absent ← defaultCode name default span
    return emit (.item p) (s.stageCode span ++ [⟨.hasKeyword name, span⟩, ⟨.ifTrue, span⟩,
        ⟨.takeKeyword name, span⟩, ⟨.orElse, span⟩]) ++
      emit .nested absent ++ emit (.item p) [⟨.endIf, span⟩, setParam name localOnly span]
  | .group children span => do
    let inner ← levelCode (Param.pieces true children)
    return emit (.item p) (s.unstageCode span ++ [s.takeValue span, ⟨.dup, span⟩,
        ⟨.toArray, span⟩]) ++ emit .nested inner ++ emit (.item p) [⟨.pop, span⟩]
  | p => do return emit (.item p) (← (p.piece localOnly).code s)

/-- The code for a level, with what its instructions are there for. -/
def levelEmits (localOnly : Bool) (ps : List Param) : Except BindError (List Emitted) := do
  let plan := Plan.ofList Param.part ps
  let bound ← plan.steps.mapM fun (state, p) => p.emits localOnly state
  match plan.stuck with
  | some p => throw (.malformed .unorderable p.span)
  | none =>
    let last := (plan.steps.getLast?.map fun step => step.2.span).getD {}
    return bound.flatten ++ emit .close (plan.final.unstageCode last ++ [⟨.pop, last⟩])

/-- The code for a parameter is the stream of what is emitted for it. -/
theorem Param.piece_code (localOnly : Bool) (s : LevelState) (p : Param) :
    (p.piece localOnly).code s = Emitted.code <$> p.emits localOnly s := by
  cases p with
  | optional name default span =>
    cases h : defaultCode name default span <;>
      simp [piece, emits, h, Emitted.code_append, Emitted.code_emit]
  | keyword name default span =>
    cases default with
    | none => simp [piece, emits, Emitted.code_emit]
    | some default =>
      cases h : defaultCode name default span <;>
        simp [piece, emits, h, Emitted.code_append, Emitted.code_emit]
  | group children span =>
    cases h : levelCode (pieces true children) <;>
      simp [piece, emits, h, Emitted.code_append, Emitted.code_emit]
  | attr receiver writer span =>
    cases h : writeAttribute receiver writer span <;>
      simp [piece, emits, h, Emitted.code_emit]
  | required | rest | keywordRest => simp [piece, emits, Emitted.code_emit]

/-- Results that are changed one by one. -/
theorem mapM_map {ε α β γ : Type} (f : α → Except ε β) (g : β → γ) (xs : List α) :
    xs.mapM (fun x => g <$> f x) = List.map g <$> xs.mapM f := by
  induction xs with
  | nil => rfl
  | cons x xs ih =>
    rw [List.mapM_cons, List.mapM_cons, ih]
    cases f x with
    | error e => rfl
    | ok y => cases xs.mapM f <;> rfl

/-- The code for a level is what is emitted for it. -/
theorem levelCode_eq (localOnly : Bool) (ps : List Param) :
    levelCode (Param.pieces localOnly ps) = Emitted.code <$> levelEmits localOnly ps := by
  have hpart : Piece.part ∘ Param.piece localOnly = Param.part :=
    funext (Param.piece_part localOnly)
  have hspan : ∀ p : Param, (p.piece localOnly).span = p.span := fun p => by
    cases p with
    | keyword name default span => cases default <;> rfl
    | _ => rfl
  rw [Param.pieces_eq, levelCode, Plan.ofList_map, hpart]
  simp only [Plan.map, List.mapM_map, Function.comp_def, Param.piece_code, mapM_map, levelEmits,
    List.getLast?_map, Option.map_map, hspan]
  cases (Plan.ofList Param.part ps).steps.mapM fun step => step.2.emits localOnly step.1 with
  | error e => rfl
  | ok bound =>
    cases (Plan.ofList Param.part ps).stuck with
    | some p =>
      simp only [Option.map_some, hspan]
      rfl
    | none => simp [Emitted.code_append, Emitted.code_flatten, Emitted.code_emit]

/-- What is emitted for a level is emitted for its steps, and to take the level from the stack. -/
theorem levelEmits_ok {localOnly : Bool} {ps : List Param} {es : List Emitted}
    (h : levelEmits localOnly ps = .ok es) : ∃ bound last,
      (Plan.ofList Param.part ps).steps.mapM (fun step => step.2.emits localOnly step.1) =
        .ok bound ∧
      es = bound.flatten ++
        emit .close ((Plan.ofList Param.part ps).final.unstageCode last ++ [⟨.pop, last⟩]) := by
  obtain ⟨bound, hbound, h⟩ := ok_of_bind h
  cases hs : (Plan.ofList Param.part ps).stuck with
  | some p =>
    rw [hs] at h
    cases h
  | none =>
    rw [hs] at h
    cases h
    exact ⟨bound, _, hbound, rfl⟩

/-! ## The code for a parameter -/

namespace LevelState

/-- A keyword hash that is dropped is not dropped again. -/
theorem unstageCode_unstage (s : LevelState) (span : Span) : s.unstage.unstageCode span = [] := rfl

/-- A keyword hash that is staged is not staged again. -/
theorem stageCode_stage (s : LevelState) (span : Span) : s.stage.stageCode span = [] := rfl

/-- From which end a value is taken does not depend on the keyword hash. -/
theorem takeValue_unstage (s : LevelState) (span : Span) :
    s.unstage.takeValue span = s.takeValue span := rfl

end LevelState

section

open LevelState

variable {localOnly : Bool} {s : LevelState} {p : Param} {es : List Emitted}

/-- A parameter that takes no keyword drops the keyword hash first. -/
theorem Param.emits_unstage (hk : p.isKeyword = false) : p.emits localOnly s =
    (emit (.item p) (s.unstageCode p.span) ++ ·) <$> p.emits localOnly s.unstage := by
  cases p with
  | optional name default span =>
    cases h : defaultCode name default span <;>
      simp [emits, h, Param.span, unstageCode_unstage, emit]
  | group children span =>
    cases h : levelCode (pieces true children) <;>
      simp [emits, h, Param.span, unstageCode_unstage, takeValue_unstage, emit]
  | attr receiver writer span =>
    cases h : writeAttribute receiver writer span <;>
      simp [emits, piece, h, Param.span, unstageCode_unstage, takeValue_unstage, emit]
  | required | rest =>
    simp [emits, piece, Param.span, unstageCode_unstage, takeValue_unstage, emit]
  | keyword | keywordRest => cases hk

/-- A parameter that takes keywords stages the keyword hash first. -/
theorem Param.emits_stage (hk : p.isKeyword = true) : p.emits localOnly s =
    (emit (.item p) (s.stageCode p.span) ++ ·) <$> p.emits localOnly s.stage := by
  cases p with
  | keyword name default span =>
    cases default with
    | none => simp [emits, piece, Param.span, stageCode_stage, emit]
    | some default =>
      cases h : defaultCode name default span <;> simp [emits, h, Param.span, stageCode_stage, emit]
  | keywordRest name span => simp [emits, piece, Param.span, stageCode_stage, emit]
  | required | optional | rest | group | attr => cases hk

/-- A parameter that takes no keyword has no dealings with the keyword hash once it is dropped. -/
theorem Param.own_unstaged (hk : p.isKeyword = false)
    (h : p.emits localOnly s.unstage = .ok es) : ∀ e ∈ own es, e.op.usesKeywords = false := by
  have htake : ∀ span, (s.takeValue span).op.usesKeywords = false := fun span => by
    unfold takeValue
    cases s.side <;> rfl
  cases p with
  | optional name default span =>
    obtain ⟨absent, -, h⟩ := ok_of_bind h
    cases h
    simp [or_imp, forall_and, Emitted.forall_mem_emit, unstageCode_unstage, Emitted.op,
      Op.usesKeywords, setParam]
  | group children span =>
    obtain ⟨inner, -, h⟩ := ok_of_bind h
    cases h
    simp only [Emitted.own_append, Emitted.own_item, Emitted.own_nested, List.append_nil,
      List.forall_mem_append, Emitted.forall_mem_emit, List.forall_mem_cons, unstageCode_unstage]
    exact ⟨⟨List.forall_mem_nil _, htake span, rfl, rfl, List.forall_mem_nil _⟩, rfl,
      List.forall_mem_nil _⟩
  | attr receiver writer span =>
    obtain ⟨code, hcode, h⟩ := ok_of_bind h
    cases h
    obtain ⟨write, hwrite, h⟩ := ok_of_bind hcode
    cases h
    obtain ⟨target, htarget, h⟩ := ok_of_bind hwrite
    cases h
    have hreceiver : ∀ i ∈ target, i.op.usesKeywords = false := fun i hi => by
      have := Expr.lower_evaluates htarget i hi
      cases hop : i.op <;> first | rfl | (rw [hop] at this; cases this)
    simp only [Emitted.own_item, Emitted.forall_mem_emit, List.forall_mem_append,
      List.forall_mem_cons, unstageCode_unstage]
    exact ⟨⟨List.forall_mem_nil _, htake span, List.forall_mem_nil _⟩, hreceiver, rfl, rfl, rfl,
      List.forall_mem_nil _⟩
  | required name span =>
    cases h
    simp only [Emitted.own_item, Emitted.forall_mem_emit, List.forall_mem_append,
      List.forall_mem_cons, unstageCode_unstage]
    exact ⟨List.forall_mem_nil _, htake span, rfl, List.forall_mem_nil _⟩
  | rest name span =>
    cases h
    cases name <;>
      simp [Emitted.forall_mem_emit, unstageCode_unstage, shareWith, Emitted.op, Op.usesKeywords,
        setParam]
  | keyword | keywordRest => cases hk

/-- Where the keyword hash lies on the stack a level leaves it there, and its sequence alone. -/
structure Emitted.Inside (e : Emitted) : Prop where
  op_ne_stageKeywords : e.op ≠ .stageKeywords
  op_ne_checkKeywords : e.op ≠ .checkKeywords
  op_ne_pop : e.op ≠ .pop
  usesSequence : e.usesSequence = false

/-- A parameter that takes keywords leaves the keyword hash and the sequence where they are. -/
theorem Param.own_staged (hk : p.isKeyword = true) (h : p.emits localOnly s.stage = .ok es) :
    ∀ e ∈ own es, e.Inside := by
  -- None of its operations is one of these, and it is no rest.
  have hinside : ∀ op span, op ≠ .stageKeywords → op ≠ .checkKeywords → op ≠ .pop →
      ¬op.takes → Emitted.Inside ⟨.item p, ⟨op, span⟩⟩ := fun op span hs hc hp ht => by
    refine ⟨hs, hc, hp, ?_⟩
    have hpart : p.part ≠ .rest := fun hpart => by
      rw [isKeyword, hpart] at hk
      cases hk
    simp [Emitted.usesSequence, Emitted.op, ht, hpart]
  cases p with
  | keyword name default span =>
    cases default with
    | none =>
      cases h
      simp [or_imp, forall_and, Emitted.forall_mem_emit, stageCode_stage, hinside, setParam,
        Op.takes]
    | some default =>
      obtain ⟨absent, -, h⟩ := ok_of_bind h
      cases h
      simp [or_imp, forall_and, Emitted.forall_mem_emit, stageCode_stage, hinside, setParam,
        Op.takes]
  | keywordRest name span =>
    cases h
    cases name <;>
      simp [or_imp, forall_and, Emitted.forall_mem_emit, stageCode_stage, shareWith, hinside,
        setParam, Op.takes]
  | required | optional | rest | group | attr => cases hk

end

/-! ## The code for some steps -/

section

variable {localOnly : Bool} {s s' final : LevelState} {steps : List (LevelState × Param)}
  {bound : List (List Emitted)} {below : List Ownership}

/-- The code for some steps, with what its instructions are there for. -/
def stepsEmit (localOnly : Bool) (steps : List (LevelState × Param)) :
    Except BindError (List (List Emitted)) :=
  steps.mapM fun step => step.2.emits localOnly step.1

/-- A result that is changed. -/
theorem ok_of_map {ε α β : Type} {f : α → β} {x : Except ε α} {b : β} (h : f <$> x = .ok b) :
    ∃ a, x = .ok a ∧ b = f a := by
  cases x with
  | error e => cases h
  | ok a =>
    cases h
    exact ⟨a, rfl, rfl⟩

/-- The first step and the others. -/
theorem stepsEmit_cons {p : Param} (h : stepsEmit localOnly ((s, p) :: steps) = .ok bound) :
    ∃ first more, p.emits localOnly s = .ok first ∧ stepsEmit localOnly steps = .ok more ∧
      bound = first :: more := by
  rw [stepsEmit, List.mapM_cons] at h
  obtain ⟨first, hfirst, h⟩ := ok_of_bind h
  obtain ⟨more, hmore, h⟩ := ok_of_bind h
  cases h
  exact ⟨first, more, hfirst, hmore, rfl⟩

/-- The steps of two parts. -/
theorem stepsEmit_append {a b : List (LevelState × Param)}
    (h : stepsEmit localOnly (a ++ b) = .ok bound) : ∃ front back,
      stepsEmit localOnly a = .ok front ∧ stepsEmit localOnly b = .ok back ∧
        bound = front ++ back := by
  rw [stepsEmit, List.mapM_append] at h
  obtain ⟨front, hfront, h⟩ := ok_of_bind h
  obtain ⟨back, hback, h⟩ := ok_of_bind h
  cases h
  exact ⟨front, back, hfront, hback, rfl⟩

/-- The code for some steps is typed. -/
theorem stepsEmit_typed (hl : Plan.Linked Param.part s steps final)
    (h : stepsEmit localOnly steps = .ok bound) (below : List Ownership) :
    Typed (Emitted.code bound.flatten) (s.slots below) (final.slots below) := by
  have hcodes : steps.mapM (fun step => (step.2.piece localOnly).code step.1) =
      .ok (bound.map Emitted.code) := by
    simp only [Param.piece_code, mapM_map]
    rw [show steps.mapM (fun step => step.2.emits localOnly step.1) = .ok bound from h]
    rfl
  obtain ⟨order, -, hmakes⟩ := steps_make (Param.piece_part localOnly)
    (fun step _ => step.2.piece_makes localOnly) (fun _ _ => trivial) hl hcodes
  rw [Emitted.code_flatten]
  exact hmakes.typed

/-- Without a keyword hash a level has its sequence on the stack. -/
theorem LevelState.slots_of_unstaged (hs : s.keywordsStaged = false) :
    s.slots below = .array :: below := by
  rw [slots, hs]
  rfl

/-- With a keyword hash a level has that on top of its sequence. -/
theorem LevelState.slots_of_staged (hs : s.keywordsStaged = true) :
    s.slots below = .hash :: .array :: below := by
  rw [slots, hs]
  rfl

/-- Where the keyword hash is staged it is checked, unless a keyword rest was seen, and dropped. -/
theorem LevelState.unstageCode_of_staged (hs : s.keywordsStaged = true) (span : Span) :
    s.unstageCode span =
      (if s.keywordRestSeen = true then [] else [⟨.checkKeywords, span⟩]) ++ [⟨.pop, span⟩] := by
  rw [unstageCode, hs, if_pos rfl]

/-- Dropping a keyword hash that is not staged changes nothing. -/
theorem LevelState.unstage_of_unstaged (hs : s.keywordsStaged = false) : s.unstage = s := by
  obtain ⟨side, staged, seen⟩ := s
  cases hs
  rfl

/-- Staging a keyword hash that is staged changes nothing. -/
theorem LevelState.stage_of_staged (hs : s.keywordsStaged = true) : s.stage = s := by
  obtain ⟨side, staged, seen⟩ := s
  cases hs
  rfl

/-- Steps of one kind in states of one kind have instructions of one kind. -/
theorem stepsEmit_own {P : Emitted → Prop} (h : stepsEmit localOnly steps = .ok bound)
    (hp : ∀ step ∈ steps, ∀ es, step.2.emits localOnly step.1 = .ok es → ∀ e ∈ own es, P e) :
    ∀ e ∈ own bound.flatten, P e := by
  induction steps generalizing bound with
  | nil =>
    cases h
    exact nofun
  | cons step steps ih =>
    obtain ⟨first, more, hfirst, hmore, rfl⟩ := stepsEmit_cons h
    obtain ⟨hstep, hsteps⟩ := List.forall_mem_cons.1 hp
    rw [List.flatten_cons, Emitted.own_append]
    exact List.forall_mem_append.2 ⟨hstep first hfirst, ih hmore hsteps⟩

/-- Steps that take no keyword have no dealings with the keyword hash if it is not staged before
them. -/
theorem own_of_unkeyed (hl : Plan.Linked Param.part s steps final) (hs : s.keywordsStaged = false)
    (hk : ∀ step ∈ steps, step.2.isKeyword = false) (h : stepsEmit localOnly steps = .ok bound) :
    ∀ e ∈ own bound.flatten, e.op.usesKeywords = false := by
  refine stepsEmit_own h fun step hstep es hes => ?_
  rw [← LevelState.unstage_of_unstaged ((hl.staged hs hk).1 step hstep)] at hes
  exact Param.own_unstaged (hk step hstep) hes

/-- Steps that take keywords leave the keyword hash where it is if it is staged before them. -/
theorem own_of_keyed (hl : Plan.Linked Param.part s steps final) (hs : s.keywordsStaged = true)
    (hk : ∀ step ∈ steps, step.2.isKeyword = true) (h : stepsEmit localOnly steps = .ok bound) :
    ∀ e ∈ own bound.flatten, e.Inside := by
  refine stepsEmit_own h fun step hstep es hes => ?_
  rw [← LevelState.stage_of_staged ((hl.staged hs hk).1 step hstep)] at hes
  exact Param.own_staged (hk step hstep) hes

/-- The end of a level whose keyword hash is not staged: steps that take no keyword, and what takes
the level from the stack. -/
theorem end_of_unkeyed (hl : Plan.Linked Param.part s steps final) (hs : s.keywordsStaged = false)
    (hk : ∀ step ∈ steps, step.2.isKeyword = false) (h : stepsEmit localOnly steps = .ok bound)
    (last : Span) :
    (∀ e ∈ own (bound.flatten ++ emit .close (final.unstageCode last ++ [⟨.pop, last⟩])),
      e.op.usesKeywords = false) ∧
    ∀ below, Typed (Emitted.code (bound.flatten ++
      emit .close (final.unstageCode last ++ [⟨.pop, last⟩]))) (.array :: below) below := by
  have hfinal := (hl.staged hs hk).2
  refine ⟨?_, fun below => ?_⟩
  · rw [Emitted.own_append, List.forall_mem_append, Emitted.own_close, Emitted.forall_mem_emit,
      LevelState.unstageCode, hfinal]
    exact ⟨own_of_unkeyed hl hs hk h, List.forall_mem_singleton.2 rfl⟩
  · rw [Emitted.code_append, Emitted.code_emit]
    have htyped := stepsEmit_typed hl h below
    rw [LevelState.slots_of_unstaged hs] at htyped
    exact htyped.append ((unstageCode_typed final last).append (.op (.drop rfl)))

/-- The end of a level: the first that is done is to check and drop the keyword hash. -/
theorem end_of_steps (hl : Plan.Linked Param.part s steps final)
    (hk : ∀ step ∈ steps, step.2.isKeyword = false) (h : stepsEmit localOnly steps = .ok bound)
    (last : Span) : ∃ origin span after,
      bound.flatten ++ emit .close (final.unstageCode last ++ [⟨.pop, last⟩]) =
        emit origin (s.unstageCode span) ++ after ∧
      origin.isOwn = true ∧ (∀ e ∈ own after, e.op.usesKeywords = false) ∧
      ∀ below, Typed (Emitted.code after) (.array :: below) below := by
  cases steps with
  | nil =>
    cases h
    obtain ⟨side, rfl⟩ := hl
    refine ⟨.close, last, emit .close [⟨.pop, last⟩], List.map_append, rfl, ?_, fun below => ?_⟩
    · rw [Emitted.own_close, Emitted.forall_mem_emit]
      exact List.forall_mem_singleton.2 rfl
    · exact .op (.drop rfl)
  | cons step steps =>
    obtain ⟨s', p⟩ := step
    obtain ⟨⟨side, rfl⟩, hl⟩ := hl
    obtain ⟨first, more, hfirst, hmore, rfl⟩ := stepsEmit_cons h
    obtain ⟨hp, hsteps⟩ := List.forall_mem_cons.1 hk
    rw [Param.emits_unstage hp] at hfirst
    obtain ⟨rest, hrest, rfl⟩ := ok_of_map hfirst
    -- The first step goes on as it would in a state without the keyword hash.
    have hsame : (LevelState.unstage { s with side }).after p.part =
        LevelState.after { s with side } p.part := by
      cases p <;> rfl
    have hl' : Plan.Linked Param.part (LevelState.unstage { s with side })
        ((LevelState.unstage { s with side }, p) :: steps) final :=
      ⟨⟨_, rfl⟩, hsame.symm ▸ hl⟩
    have h' : stepsEmit localOnly ((LevelState.unstage { s with side }, p) :: steps) =
        .ok (rest :: more) := by
      rw [stepsEmit] at hmore
      rw [stepsEmit, List.mapM_cons, hrest, hmore]
      rfl
    obtain ⟨hown, htyped⟩ := end_of_unkeyed hl' rfl (List.forall_mem_cons.2 ⟨hp, hsteps⟩) h' last
    exact ⟨.item p, p.span, _, by simp; rfl, rfl, hown, htyped⟩

/-- Steps that take keywords stage the keyword hash first, and leave it where it is. -/
theorem stage_of_keyed (hl : Plan.Linked Param.part s steps final) (hs : s.keywordsStaged = false)
    (hk : ∀ step ∈ steps, step.2.isKeyword = true) (hne : steps ≠ [])
    (h : stepsEmit localOnly steps = .ok bound) : ∃ p span between,
      bound.flatten = ⟨.item p, ⟨.stageKeywords, span⟩⟩ :: between ∧
      (∀ e ∈ own between, e.Inside) ∧ final.keywordsStaged = true := by
  cases steps with
  | nil => exact absurd rfl hne
  | cons step steps =>
    obtain ⟨s', p⟩ := step
    obtain ⟨⟨side, rfl⟩, hl⟩ := hl
    obtain ⟨first, more, hfirst, hmore, rfl⟩ := stepsEmit_cons h
    obtain ⟨hp, hsteps⟩ := List.forall_mem_cons.1 hk
    have hstaged : (LevelState.after { s with side } p.part).keywordsStaged = true :=
      (Param.staged_after _ p).trans hp
    rw [Param.emits_stage hp] at hfirst
    obtain ⟨rest, hrest, rfl⟩ := ok_of_map hfirst
    refine ⟨p, p.span, rest ++ more.flatten, ?_, ?_, (hl.staged hstaged hsteps).2⟩
    · rw [LevelState.stageCode, hs]
      rfl
    · rw [Emitted.own_append]
      exact List.forall_mem_append.2
        ⟨Param.own_staged hp hrest, own_of_keyed hl hstaged hsteps hmore⟩

end

/-! ## The keyword hash of a level -/

/-- The code for a level that takes keywords, around what lies between the instruction that stages
the keyword hash and the pop that drops it. -/
structure KeywordStretch (level : List Param) (emitted : List Emitted) where
  before : List Emitted
  stage : Emitted
  between : List Emitted
  checks : List Emitted
  drop : Emitted
  after : List Emitted
  emitted_eq : emitted = before ++ stage :: (between ++ (checks ++ drop :: after))
  own_stage : stage.origin.isOwn = true
  stage_op : stage.op = .stageKeywords
  own_drop : drop.origin.isOwn = true
  drop_op : drop.op = .pop
  /-- Keys that are left over are an error, unless a keyword rest takes them. -/
  checks_eq : if ∃ p ∈ level, p.part = .keywordRest then checks = []
    else ∃ check : Emitted, checks = [check] ∧ check.origin.isOwn = true ∧ check.op = .checkKeywords
  outside : ∀ e ∈ own before ++ own after, e.op.usesKeywords = false
  inside : ∀ e ∈ own between, e.Inside
  before_typed : ∀ below, Typed (Emitted.code before) (.array :: below) (.array :: below)
  stage_typed : ∀ below,
    Typed (Emitted.code (stage :: between)) (.array :: below) (.hash :: .array :: below)
  drop_typed : ∀ below,
    Typed (Emitted.code (checks ++ [drop])) (.hash :: .array :: below) (.array :: below)
  after_typed : ∀ below, Typed (Emitted.code after) (.array :: below) below

/-- Behind some instructions of a level comes the pop that drops the keyword hash: the level has
staged the hash, it is on top of the stack again, and no other pop of the level came between. -/
def DropsKeywords (emitted front : List Emitted) : Prop :=
  ∃ before between after stage drop, front = before ++ stage :: between ∧
    emitted = front ++ drop :: after ∧ (stage.origin.isOwn = true ∧ stage.op = .stageKeywords) ∧
    (drop.origin.isOwn = true ∧ drop.op = .pop) ∧ (∀ e ∈ own between, e.op ≠ .pop) ∧
    ∀ below, Typed (Emitted.code (stage :: between)) (.array :: below) (.hash :: .array :: below)

/-- How a level deals with the keyword hash. -/
structure KeywordDiscipline (level : List Param) (emitted : List Emitted) : Prop where
  /-- Without keywords a level has no dealings with it. -/
  unkeyed : (∀ p ∈ level, p.isKeyword = false) → ∀ e ∈ own emitted, e.op.usesKeywords = false
  stagedOnce : (∃ p ∈ level, p.isKeyword = true) →
    (own emitted).countP (·.op = .stageKeywords) = 1
  droppedOnce : (∃ p ∈ level, p.isKeyword = true) → ∃! front, DropsKeywords emitted front
  checked : (∃ p ∈ level, p.isKeyword = true) → (own emitted).countP (·.op = .checkKeywords) =
    if ∃ p ∈ level, p.part = .keywordRest then 0 else 1
  stretch : (∃ p ∈ level, p.isKeyword = true) → Nonempty (KeywordStretch level emitted)

/-- The steps of a level that take keywords have a keyword rest among them exactly if the level has
one. -/
theorem Shape.seen_iff {ps : List Param} (shape : Shape Param.part ps) {s mid : LevelState}
    {a b c : List (LevelState × Param)} (hsteps : (Plan.ofList Param.part ps).steps = a ++ (b ++ c))
    (ha : Plan.Linked Param.part {} a s) (hb : Plan.Linked Param.part s b mid)
    (hc : ∀ step ∈ c, step.2.isKeyword = false) :
    mid.keywordRestSeen = true ↔ ∃ p ∈ ps, p.part = .keywordRest := by
  have hmem : ∀ p, p ∈ ps ↔ ∃ step ∈ a ++ (b ++ c), step.2 = p := fun p => by
    rw [← hsteps, ← shape.steps_perm.mem_iff, List.mem_map]
  rw [hb.seen, ha.seen, Bool.false_or, Bool.or_eq_true, List.any_eq_true, List.any_eq_true]
  simp only [decide_eq_true_eq]
  constructor
  · rintro (⟨step, hstep, hp⟩ | ⟨step, hstep, hp⟩)
    · exact ⟨step.2, (hmem _).2 ⟨step, List.mem_append_left _ hstep, rfl⟩, hp⟩
    · exact ⟨step.2, (hmem _).2 ⟨step, by simp [hstep], rfl⟩, hp⟩
  · rintro ⟨p, hp, hrest⟩
    obtain ⟨step, hstep, rfl⟩ := (hmem p).1 hp
    simp only [List.mem_append] at hstep
    rcases hstep with hstep | hstep | hstep
    · exact .inl ⟨step, hstep, hrest⟩
    · exact .inr ⟨step, hstep, hrest⟩
    · have := hc step hstep
      rw [Param.isKeyword, hrest] at this
      cases this

/-- On a level that takes keywords there are steps that take them. -/
theorem Shape.keyed_ne_nil {ps : List Param} (shape : Shape Param.part ps)
    (hkeyed : ∃ p ∈ ps, p.isKeyword = true) {a b c : List (LevelState × Param)}
    (hsteps : (Plan.ofList Param.part ps).steps = a ++ (b ++ c))
    (ha : ∀ step ∈ a, step.2.isKeyword = false) (hc : ∀ step ∈ c, step.2.isKeyword = false) :
    b ≠ [] := by
  obtain ⟨p, hp, hk⟩ := hkeyed
  obtain ⟨step, hstep, rfl⟩ := List.mem_map.1 (shape.steps_perm.mem_iff.2 hp)
  rw [hsteps, List.mem_append, List.mem_append] at hstep
  rcases hstep with hstep | hstep | hstep
  · rw [ha step hstep] at hk
    cases hk
  · exact List.ne_nil_of_mem hstep
  · rw [hc step hstep] at hk
    cases hk

/-- A level that takes keywords stages the keyword hash, takes them, and drops the hash. -/
theorem Shape.exists_stretch {localOnly : Bool} {ps : List Param} (shape : Shape Param.part ps)
    (hkeyed : ∃ p ∈ ps, p.isKeyword = true) {es : List Emitted}
    (h : levelEmits localOnly ps = .ok es) : Nonempty (KeywordStretch ps es) := by
  obtain ⟨bound, last, hbound, rfl⟩ := levelEmits_ok h
  obtain ⟨a, b, c, hsteps, ha, hb, hc⟩ := shape.exists_keyed
  have hl := Plan.linked_ofList Param.part ps
  rw [hsteps] at hl hbound
  obtain ⟨s, hla, hl⟩ := hl.append
  obtain ⟨mid, hlb, hlc⟩ := hl.append
  obtain ⟨before, rest, hbefore, hrest, rfl⟩ := stepsEmit_append hbound
  obtain ⟨taking, back, htaking, hback, rfl⟩ := stepsEmit_append hrest
  have hne : b ≠ [] := shape.keyed_ne_nil hkeyed hsteps ha hc
  -- the hash is not on the stack in front of the stretch, and is there where it ends
  have hs : s.keywordsStaged = false := (hla.staged rfl ha).2
  have hseen := shape.seen_iff hsteps hla hlb hc
  have hstage := stepsEmit_typed hlb htaking
  obtain ⟨p, span, between, htake, hinside, hmid⟩ := stage_of_keyed hlb hs hb hne htaking
  obtain ⟨origin, span', after, hend, hown, hafter, htyped⟩ := end_of_steps hlc hc hback last
  have hdrop : ∀ below, Typed (mid.unstageCode span') (mid.slots below) (.array :: below) :=
    fun _ => unstageCode_typed mid span'
  simp only [LevelState.slots_of_unstaged hs, LevelState.slots_of_staged hmid, htake] at hstage
  simp only [LevelState.slots_of_staged hmid, LevelState.unstageCode_of_staged hmid] at hdrop
  rw [LevelState.unstageCode_of_staged hmid] at hend
  refine ⟨⟨before.flatten, ⟨.item p, ⟨.stageKeywords, span⟩⟩, between,
    emit origin (if mid.keywordRestSeen = true then [] else [⟨.checkKeywords, span'⟩]),
    ⟨origin, ⟨.pop, span'⟩⟩, after, ?_, rfl, rfl, hown, rfl, ?_, ?_, hinside, fun below => ?_,
    hstage, fun below => ?_, htyped⟩⟩
  · rw [List.flatten_append, List.flatten_append, List.append_assoc, List.append_assoc, hend, htake]
    simp [emit]
  · split
    · rw [if_pos (hseen.2 ‹_›)]
      rfl
    · rw [if_neg (fun hseen' => ‹¬ _› (hseen.1 hseen'))]
      exact ⟨_, rfl, hown, rfl⟩
  · exact List.forall_mem_append.2 ⟨own_of_unkeyed hla rfl ha hbefore, hafter⟩
  · have := stepsEmit_typed hla hbefore below
    rwa [LevelState.slots_of_unstaged hs] at this
  · rw [Emitted.code_append, Emitted.code_emit]
    exact hdrop below

/-! ## What the stretch says -/

namespace KeywordStretch

variable {level : List Param} {emitted : List Emitted} (k : KeywordStretch level emitted)

include k

/-- The check is an instruction of the level. -/
theorem of_mem_checks {e : Emitted} (h : e ∈ k.checks) :
    e.origin.isOwn = true ∧ e.op = .checkKeywords := by
  have := k.checks_eq
  split at this
  · rw [this] at h
    cases h
  · obtain ⟨check, hcheck, hown, hop⟩ := this
    rw [hcheck, List.mem_singleton] at h
    exact h ▸ ⟨hown, hop⟩

/-- The check is among the instructions of the level itself. -/
theorem own_checks : own k.checks = k.checks :=
  List.filter_eq_self.2 fun _ h => (k.of_mem_checks h).1

/-- The instructions of a level that takes keywords. -/
theorem own_eq : own emitted = own k.before ++
    k.stage :: (own k.between ++ (k.checks ++ k.drop :: own k.after)) := by
  have hcons : ∀ {e : Emitted} {es : List Emitted}, e.origin.isOwn = true →
      own (e :: es) = e :: own es := fun h => List.filter_cons_of_pos h
  conv_lhs => rw [k.emitted_eq]
  rw [Emitted.own_append, hcons k.own_stage, Emitted.own_append, Emitted.own_append, k.own_checks,
    hcons k.own_drop]

/-- An operation on the keyword hash that is none of those inside occurs at the ends only. -/
theorem countP_own {op : Op} (hop : op.usesKeywords = true)
    (hinside : ∀ e : Emitted, e.Inside → e.op ≠ op) : (own emitted).countP (·.op = op) =
      (if k.stage.op = op then 1 else 0) + k.checks.countP (·.op = op) := by
  have hzero : ∀ es : List Emitted, (∀ e ∈ es, e.op ≠ op) → es.countP (·.op = op) = 0 :=
    fun es h => List.countP_eq_zero.2 fun e he => by simpa using h e he
  obtain ⟨hbefore, hafter⟩ := List.forall_mem_append.1 k.outside
  have hquiet : ∀ e : Emitted, e.op.usesKeywords = false → e.op ≠ op := fun e he heq => by
    rw [heq, hop] at he
    cases he
  have hdrop : k.drop.op ≠ op := hquiet _ (by rw [k.drop_op]; rfl)
  rw [k.own_eq, List.countP_append, List.countP_cons, List.countP_append, List.countP_append,
    List.countP_cons, hzero _ fun e he => hquiet e (hbefore e he),
    hzero _ fun e he => hquiet e (hafter e he), hzero _ fun e he => hinside e (k.inside e he)]
  simp only [decide_eq_true_eq, if_neg hdrop]
  omega

/-- The keyword hash is staged once. -/
theorem count_stage : (own emitted).countP (·.op = .stageKeywords) = 1 := by
  have hchecks : k.checks.countP (·.op = .stageKeywords) = 0 :=
    List.countP_eq_zero.2 fun e he => by simp [(k.of_mem_checks he).2]
  rw [k.countP_own rfl fun e he => he.op_ne_stageKeywords, k.stage_op, hchecks]
  rfl

/-- The keyword hash is checked once, unless a keyword rest takes it. -/
theorem count_check : (own emitted).countP (·.op = .checkKeywords) =
    if ∃ p ∈ level, p.part = .keywordRest then 0 else 1 := by
  rw [k.countP_own rfl fun e he => he.op_ne_checkKeywords, k.stage_op]
  have := k.checks_eq
  split at this
  · rw [this]
    simp [*]
  · obtain ⟨check, hcheck, -, hop⟩ := this
    simp [*]

/-- What the check leaves on the stack. -/
theorem checks_typed (below : List Ownership) :
    Typed (Emitted.code k.checks) (.hash :: .array :: below) (.hash :: .array :: below) := by
  have := k.checks_eq
  split at this
  · rw [this]
    exact .nil
  · obtain ⟨check, hcheck, -, hop⟩ := this
    rw [hcheck]
    refine .op ?_
    rw [show check.instruction.op = _ from hop]
    exact .checkKeywords

/-- The pop that drops the keyword hash is the first one of the level behind the instruction that
stages it. -/
theorem op_ne_pop : ∀ e ∈ own (k.between ++ k.checks), e.op ≠ .pop := by
  rw [Emitted.own_append, List.forall_mem_append, k.own_checks]
  refine ⟨fun e he => (k.inside e he).op_ne_pop, fun e he => ?_⟩
  rw [(k.of_mem_checks he).2]
  exact nofun

/-- The instructions behind which the keyword hash is dropped. -/
theorem dropsKeywords : DropsKeywords emitted (k.before ++ k.stage :: (k.between ++ k.checks)) := by
  refine ⟨k.before, k.between ++ k.checks, k.after, k.stage, k.drop, rfl, ?_,
    ⟨k.own_stage, k.stage_op⟩, ⟨k.own_drop, k.drop_op⟩, k.op_ne_pop, fun below => ?_⟩
  · conv_lhs => rw [k.emitted_eq]
    simp
  · rw [← List.cons_append, Emitted.code_append]
    exact (k.stage_typed below).append (k.checks_typed below)

/-- No other instruction of the level stages the keyword hash. -/
theorem stage_unique {before rest : List Emitted} {stage : Emitted}
    (heq : emitted = before ++ stage :: rest) (hown : stage.origin.isOwn = true)
    (hop : stage.op = .stageKeywords) :
    k.before = before ∧ k.stage = stage ∧ k.between ++ (k.checks ++ k.drop :: k.after) = rest := by
  obtain ⟨hbefore, hafter⟩ := List.forall_mem_append.1 k.outside
  have hown : ∀ {es : List Emitted}, stage ∈ es → stage ∈ own es :=
    fun h => List.mem_filter.2 ⟨h, hown⟩
  have hfree : ∀ es : List Emitted, (∀ e ∈ own es, e.op.usesKeywords = false) → stage ∉ es :=
    fun es hes h => by
      have := hes stage (hown h)
      rw [hop] at this
      cases this
  refine (List.append_cons_inj_of_notMem (hfree _ hbefore) ?_).1 (k.emitted_eq.symm.trans heq)
  simp only [List.mem_append, List.mem_cons, not_or]
  refine ⟨fun h => (k.inside stage (hown h)).op_ne_stageKeywords hop, fun h => ?_, fun h => ?_,
    hfree _ hafter⟩
  · rw [(k.of_mem_checks h).2] at hop
    cases hop
  · rw [h, k.drop_op] at hop
    cases hop

/-- The keyword hash is dropped once. -/
theorem drop_unique {front : List Emitted} (h : DropsKeywords emitted front) :
    front = k.before ++ k.stage :: (k.between ++ k.checks) := by
  obtain ⟨before, between, after, stage, drop, rfl, heq, ⟨hown, hop⟩, ⟨hown', hop'⟩, hpop, -⟩ := h
  rw [List.append_assoc, List.cons_append] at heq
  obtain ⟨rfl, rfl, hrest⟩ := k.stage_unique heq hown hop
  -- Both are what comes before the first pop of the level.
  have hfirst : ∀ (es : List Emitted) (e : Emitted) (others : List Emitted),
      (∀ e ∈ own es, e.op ≠ .pop) → e.origin.isOwn = true → e.op = .pop →
      (es ++ e :: others).takeWhile (fun e => !(e.origin.isOwn && e.op = .pop)) = es := by
    intro es e others hes hown hop
    rw [List.takeWhile_append_of_pos fun e he => ?_]
    · simp [hown, hop]
    · cases ho : e.origin.isOwn with
      | false => rfl
      | true => simp [hes e (List.mem_filter.2 ⟨he, ho⟩)]
  have hthis := hfirst between drop after hpop hown' hop'
  rw [← hrest, ← List.append_assoc, hfirst _ _ _ k.op_ne_pop k.own_drop k.drop_op] at hthis
  rw [hthis]

end KeywordStretch

/-- Every level whose parameters come in an order that is accepted deals with the keyword hash as it
should. -/
theorem keywordDiscipline {localOnly : Bool} {level : List Param} {emitted : List Emitted}
    (hacc : Phase.leading.Accepts (level.map Param.part))
    (h : levelEmits localOnly level = .ok emitted) : KeywordDiscipline level emitted := by
  obtain ⟨shape⟩ := exists_shape hacc
  have hstretch := fun hkeyed => shape.exists_stretch hkeyed h
  refine ⟨fun hunkeyed => ?_, fun hkeyed => ?_, fun hkeyed => ?_, fun hkeyed => ?_, hstretch⟩
  · obtain ⟨bound, last, hbound, rfl⟩ := levelEmits_ok h
    exact (end_of_unkeyed (Plan.linked_ofList Param.part level) rfl
      (fun step hstep => hunkeyed _ (Plan.mem_of_mem_ofList hstep)) hbound last).1
  · obtain ⟨k⟩ := hstretch hkeyed
    exact k.count_stage
  · obtain ⟨k⟩ := hstretch hkeyed
    exact ⟨_, k.dropsKeywords, fun front hfront => k.drop_unique hfront⟩
  · obtain ⟨k⟩ := hstretch hkeyed
    exact k.count_check

/-! ## The levels of a list -/

/-- What is emitted for a level of some parameters: for their own, or for that of a group at some
depth, where parameters are always local. -/
inductive EmittedFor (level : List Param) (emitted : List Emitted) : Bool → List Param → Prop
  | outer {localOnly : Bool} : levelEmits localOnly level = .ok emitted →
    EmittedFor level emitted localOnly level
  | inner {localOnly : Bool} {ps children : List Param} {span : Span} :
    .group children span ∈ ps → EmittedFor level emitted true children →
    EmittedFor level emitted localOnly ps

/-- The code for a group in a level is part of the code for the level. -/
theorem infix_of_group {localOnly : Bool} {ps children : List Param} {span : Span} {code : Stream}
    (h : levelCode (Param.pieces localOnly ps) = .ok code) (hgroup : .group children span ∈ ps) :
    ∃ inner, levelCode (Param.pieces true children) = .ok inner ∧ inner <:+: code := by
  rw [Param.pieces_eq] at h
  have hstuck := stuck_of_levelCode (Param.piece_part localOnly) h
  obtain ⟨codes, last, hcodes, rfl⟩ := levelCode_ok (Param.piece_part localOnly) h
  obtain ⟨s, hstep⟩ := Plan.mem_steps_ofList hstuck hgroup
  obtain ⟨part, hpart, hcode⟩ := exists_of_forall₂ (forall₂_of_mapM_ok hcodes) _ hstep
  obtain ⟨inner, hinner, rfl⟩ := Param.group_code hcode
  refine ⟨inner, hinner, List.IsInfix.trans ?_
    ((List.infix_of_mem_flatten hpart).trans (List.prefix_append ..).isInfix)⟩
  exact ⟨s.unstageCode span ++ s.takeValue span :: [⟨.dup, span⟩, ⟨.toArray, span⟩],
    [⟨.pop, span⟩], by simp⟩

/-- Every level of parameters that have code has code. -/
theorem exists_emitted {ps level : List Param} (hlevel : Param.IsLevel level ps) {localOnly : Bool}
    {code : Stream} (h : levelCode (Param.pieces localOnly ps) = .ok code) :
    ∃ emitted, EmittedFor level emitted localOnly ps := by
  induction hlevel generalizing localOnly code with
  | outer =>
    rw [levelCode_eq] at h
    obtain ⟨emitted, hemitted, -⟩ := ok_of_map h
    exact ⟨emitted, .outer hemitted⟩
  | inner hgroup _ ih =>
    obtain ⟨inner, hinner, -⟩ := infix_of_group h hgroup
    obtain ⟨emitted, hemitted⟩ := ih hinner
    exact ⟨emitted, .inner hgroup hemitted⟩

/-- What is emitted for a level is part of the code, and deals with the keyword hash as it
should. -/
theorem EmittedFor.discipline {level : List Param} {emitted : List Emitted} {localOnly : Bool}
    {ps : List Param} (he : EmittedFor level emitted localOnly ps) {inGroup : Bool}
    (hacc : Phase.leading.Accepts (ps.map Param.part)) (hall : Param.AllAccepted inGroup ps)
    {code : Stream} (h : levelCode (Param.pieces localOnly ps) = .ok code) :
    Emitted.code emitted <:+: code ∧ KeywordDiscipline level emitted := by
  induction he generalizing inGroup code with
  | outer hemitted =>
    rw [levelCode_eq, hemitted] at h
    cases h
    exact ⟨List.infix_rfl, keywordDiscipline hacc hemitted⟩
  | inner hgroup _ ih =>
    obtain ⟨inner, hinner, hinfix⟩ := infix_of_group h hgroup
    obtain ⟨hacc', hall'⟩ := Param.allAccepted_iff.1 hall _ hgroup
    obtain ⟨hcode, hdiscipline⟩ := ih hacc' hall' hinner
    exact ⟨hcode.trans hinfix, hdiscipline⟩

/-- **The keyword hash in the code.** On every level of a list that passes the check and is
compiled, the instructions of the level itself leave out the keyword hash if no parameter takes a
keyword. Otherwise the level stages the hash once and drops it once, checks it directly before that
unless a keyword rest takes it, and between the two it takes keywords only. -/
theorem keyword_hash_staged {list : Option ParamList} {localOnly : Bool} {ps : List Param}
    {code : Stream} (hps : ParamList.check? list = .ok ps)
    (h : bindParams ps localOnly = .ok code) :
    (∀ level, Param.IsLevel level ps → ∃ emitted, EmittedFor level emitted localOnly ps) ∧
    ∀ level emitted, EmittedFor level emitted localOnly ps →
      Emitted.code emitted <:+: code ∧ KeywordDiscipline level emitted := by
  obtain ⟨hacc, hall⟩ := ParamList.check?_accepted hps
  exact ⟨fun level hlevel => exists_emitted hlevel h,
    fun level emitted he => he.discipline hacc hall h⟩

/-- The code for `(*r, (a), k: 1)` stages the keyword hash for `k`, and drops it before `a` is taken
from the right. -/
theorem keyword_hash_behind_rest :
    ∃ ps code, ParamList.check? (some ⟨[.rest (some "r") {}, .group [.required "a" {}] {},
        .keyword "k" (some (.int 1)) {}], {}⟩) = .ok ps ∧ bindParams ps true = .ok code ∧
      (∀ level, Param.IsLevel level ps → ∃ emitted, EmittedFor level emitted true ps) ∧
      ∀ level emitted, EmittedFor level emitted true ps →
        Emitted.code emitted <:+: code ∧ KeywordDiscipline level emitted := by
  have hps : ParamList.check? (some ⟨[.rest (some "r") {}, .group [.required "a" {}] {},
      .keyword "k" (some (.int 1)) {}], {}⟩) = .ok [.rest (some "r") {},
        .group [.required "a" {}] {}, .keyword "k" (some (.int 1)) {}] := by
    cbv
  have h : bindParams [.rest (some "r") {}, .group [.required "a" {}] {},
      .keyword "k" (some (.int 1)) {}] true = .ok [⟨.dup, {}⟩, ⟨.localSet "r" true, {}⟩,
        ⟨.stageKeywords, {}⟩, ⟨.hasKeyword "k", {}⟩, ⟨.ifTrue, {}⟩, ⟨.takeKeyword "k", {}⟩,
        ⟨.orElse, {}⟩, ⟨.pushInt 1, {}⟩, ⟨.endIf, {}⟩, ⟨.localSet "k" true, {}⟩,
        ⟨.checkKeywords, {}⟩, ⟨.pop, {}⟩, ⟨.arrayPop, {}⟩, ⟨.dup, {}⟩, ⟨.toArray, {}⟩,
        ⟨.arrayShift, {}⟩, ⟨.localSet "a" true, {}⟩, ⟨.pop, {}⟩, ⟨.pop, {}⟩, ⟨.pop, {}⟩] := by
    cbv
  exact ⟨_, _, hps, h, keyword_hash_staged hps h⟩

end Formals
