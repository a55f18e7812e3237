import Formals.Machine.Run

/-!
# Streams of balanced blocks

`Balanced` is the grammar of the streams whose blocks are sound. A balanced stream has jumps
(`Balanced.jumpsFrom_append`), and they depend only on where it begins (`jumpsAt`). So it can be run
by itself (`Machine.exec`), and running it in front of other code is running it and then that code
(`Balanced.run_append`): this is what makes the effect of a stream composable.

`Machine.Visits` is the trace of a run: the instructions that are executed, each with the machine
that it finds. The trace splits like the run does (`Balanced.visits_append`).
-/

namespace Formals

/-- Whether an operation is one of the three that delimit blocks. -/
def Op.isJump : Op → Bool
  | .ifTrue | .orElse | .endIf => true
  | _ => false

/-- Streams in which every `if` has its `end`, with at most one `else` between them. -/
inductive Balanced : Stream → Prop
  | nil : Balanced []
  | op {i : Instruction} {rest : Stream} : i.op.isJump = false → Balanced rest →
      Balanced (i :: rest)
  | ifEnd {yes rest : Stream} {s e : Span} : Balanced yes → Balanced rest →
      Balanced (⟨.ifTrue, s⟩ :: (yes ++ ⟨.endIf, e⟩ :: rest))
  | ifElse {yes no rest : Stream} {s m e : Span} : Balanced yes → Balanced no → Balanced rest →
      Balanced (⟨.ifTrue, s⟩ :: (yes ++ ⟨.orElse, m⟩ :: (no ++ ⟨.endIf, e⟩ :: rest)))

/-- Where the code behind a block without `else` begins, and where it ends. -/
theorem length_ifEnd (pc : Nat) (yes rest : Stream) (s e : Span) :
    pc + (⟨.ifTrue, s⟩ :: (yes ++ ⟨.endIf, e⟩ :: rest) : Stream).length =
      pc + 1 + yes.length + 1 + rest.length := by
  simp only [List.length_cons, List.length_append]
  omega

/-- Where the code behind a block with `else` begins, and where it ends. -/
theorem length_ifElse (pc : Nat) (yes no rest : Stream) (s m e : Span) :
    pc + (⟨.ifTrue, s⟩ :: (yes ++ ⟨.orElse, m⟩ :: (no ++ ⟨.endIf, e⟩ :: rest)) : Stream).length =
      pc + 1 + yes.length + 1 + no.length + 1 + rest.length := by
  simp only [List.length_cons, List.length_append]
  omega

namespace Balanced

/-- A single instruction that delimits no block is balanced. -/
theorem singleton {i : Instruction} (h : i.op.isJump = false) : Balanced [i] := .op h .nil

/-- Balanced streams are closed under `++`. -/
theorem append {a b : Stream} (ha : Balanced a) (hb : Balanced b) : Balanced (a ++ b) := by
  induction ha with
  | nil => exact hb
  | op h _ ih => exact .op h ih
  | ifEnd hy _ _ ih => simpa using Balanced.ifEnd hy ih
  | ifElse hy hn _ _ _ ih => simpa using Balanced.ifElse hy hn ih

/-- A list of balanced streams is balanced as a whole. -/
theorem flatten {codes : List Stream} (h : ∀ c ∈ codes, Balanced c) : Balanced codes.flatten := by
  induction codes with
  | nil => exact .nil
  | cons c rest ih =>
    rw [List.flatten_cons]
    exact (h c List.mem_cons_self).append (ih fun d hd => h d (List.mem_cons_of_mem _ hd))

end Balanced

/-! ## Jumps -/

/-- The jumps of a stream that begins at position `pc`, if its blocks are sound. -/
def jumpsAt (pc : Nat) (code : Stream) : Jumps :=
  match Stream.jumpsFrom pc [] [] code with
  | .ok found => found
  | .error _ => []

/-- An instruction that delimits no block adds no jump. -/
theorem jumpsFrom_op {i : Instruction} (h : i.op.isJump = false) (pc : Nat)
    (opened : List OpenBlock) (found : Jumps) (rest : Stream) :
    Stream.jumpsFrom pc opened found (i :: rest) =
      Stream.jumpsFrom (pc + 1) opened found rest := by
  obtain ⟨op, s⟩ := i
  cases op <;> first | rfl | simp [Op.isJump] at h

/-- The jumps of a balanced stream are found whatever blocks are open around it, and are added to
the jumps found before. -/
theorem Balanced.exists_jumps {code : Stream} (h : Balanced code) (pc : Nat) :
    ∃ found', ∀ opened found rest, Stream.jumpsFrom pc opened found (code ++ rest) =
      Stream.jumpsFrom (pc + code.length) opened (found' ++ found) rest := by
  induction h generalizing pc with
  | nil => exact ⟨[], fun _ _ _ => rfl⟩
  | op h _ ih =>
    obtain ⟨J, hJ⟩ := ih (pc + 1)
    refine ⟨J, fun opened found rest => ?_⟩
    rw [List.cons_append, jumpsFrom_op h, hJ, List.length_cons]
    congr 1
    omega
  | @ifEnd yes tail s e _ _ ihy iht =>
    obtain ⟨Jy, hy⟩ := ihy (pc + 1)
    obtain ⟨Jt, ht⟩ := iht (pc + 1 + yes.length + 1)
    -- a block is found at its `end`, and what is found goes in front
    refine ⟨Jt ++ (pc, pc + 1 + yes.length) :: Jy, fun opened found rest => ?_⟩
    simp only [List.cons_append, List.append_assoc, Stream.jumpsFrom, hy, ht, OpenBlock.jumps,
      List.length_cons, List.length_append, List.nil_append]
    congr 1
    omega
  | @ifElse yes no tail s m e _ _ _ ihy ihn iht =>
    obtain ⟨Jy, hy⟩ := ihy (pc + 1)
    obtain ⟨Jn, hn⟩ := ihn (pc + 1 + yes.length + 1)
    obtain ⟨Jt, ht⟩ := iht (pc + 1 + yes.length + 1 + no.length + 1)
    refine ⟨Jt ++ (pc, pc + 1 + yes.length) ::
      (pc + 1 + yes.length, pc + 1 + yes.length + 1 + no.length) :: (Jn ++ Jy),
      fun opened found rest => ?_⟩
    simp only [List.cons_append, List.append_assoc, Stream.jumpsFrom, hy, hn, ht,
      OpenBlock.jumps, List.length_cons, List.length_append, List.nil_append]
    congr 1
    omega

/-- The jumps of a balanced stream inside other code are those that it has by itself. -/
theorem Balanced.jumpsFrom_append {code : Stream} (h : Balanced code) (pc : Nat)
    (opened : List OpenBlock) (found : Jumps) (rest : Stream) :
    Stream.jumpsFrom pc opened found (code ++ rest) =
      Stream.jumpsFrom (pc + code.length) opened (jumpsAt pc code ++ found) rest := by
  obtain ⟨J, hJ⟩ := h.exists_jumps pc
  have hself : jumpsAt pc code = J := by
    have := hJ [] [] []
    rw [List.append_nil] at this
    simp [jumpsAt, this, Stream.jumpsFrom]
  rw [hself, hJ]

/-- The jumps of a balanced stream at the end of other code. -/
theorem Balanced.jumpsFrom_last {code : Stream} (h : Balanced code) (pc : Nat) (found : Jumps) :
    Stream.jumpsFrom pc [] found code = .ok (jumpsAt pc code ++ found) := by
  have := h.jumpsFrom_append pc [] found []
  rwa [List.append_nil, Stream.jumpsFrom] at this

/-- A balanced stream has jumps. -/
theorem Balanced.jumps {code : Stream} (h : Balanced code) :
    code.jumps = .ok (jumpsAt 0 code) := by
  rw [Stream.jumps, h.jumpsFrom_last, List.append_nil]

/-- The jumps of a stream, read off the run that finds them. -/
theorem jumpsAt_eq {pc : Nat} {code : Stream} {found : Jumps}
    (h : Stream.jumpsFrom pc [] [] code = .ok found) : jumpsAt pc code = found := by
  rw [jumpsAt, h]

@[simp] theorem jumpsAt_nil (pc : Nat) : jumpsAt pc [] = [] := rfl

/-- The jumps of two balanced streams in a row. -/
theorem Balanced.jumpsAt_append {a b : Stream} (ha : Balanced a) (hb : Balanced b) (pc : Nat) :
    jumpsAt pc (a ++ b) = jumpsAt (pc + a.length) b ++ jumpsAt pc a := by
  apply jumpsAt_eq
  rw [ha.jumpsFrom_append, hb.jumpsFrom_last, List.append_nil]

/-- The jumps behind an instruction that delimits no block. -/
theorem jumpsAt_op {i : Instruction} (h : i.op.isJump = false) (pc : Nat) (rest : Stream) :
    jumpsAt pc (i :: rest) = jumpsAt (pc + 1) rest := by
  rw [jumpsAt, jumpsFrom_op h, jumpsAt]

/-- The jumps of a block without `else`. -/
theorem jumpsAt_ifEnd {yes rest : Stream} {s e : Span} (hy : Balanced yes) (hr : Balanced rest)
    (pc : Nat) : jumpsAt pc (⟨.ifTrue, s⟩ :: (yes ++ ⟨.endIf, e⟩ :: rest)) =
      jumpsAt (pc + 1 + yes.length + 1) rest ++
        (pc, pc + 1 + yes.length) :: jumpsAt (pc + 1) yes := by
  apply jumpsAt_eq
  simp only [Stream.jumpsFrom, hy.jumpsFrom_append, OpenBlock.jumps, hr.jumpsFrom_last,
    List.append_nil, List.cons_append, List.nil_append]

/-- The jumps of a block with `else`. -/
theorem jumpsAt_ifElse {yes no rest : Stream} {s m e : Span} (hy : Balanced yes)
    (hn : Balanced no) (hr : Balanced rest) (pc : Nat) :
    jumpsAt pc (⟨.ifTrue, s⟩ :: (yes ++ ⟨.orElse, m⟩ :: (no ++ ⟨.endIf, e⟩ :: rest))) =
      jumpsAt (pc + 1 + yes.length + 1 + no.length + 1) rest ++
        (pc, pc + 1 + yes.length) ::
        (pc + 1 + yes.length, pc + 1 + yes.length + 1 + no.length) ::
        (jumpsAt (pc + 1 + yes.length + 1) no ++ jumpsAt (pc + 1) yes) := by
  apply jumpsAt_eq
  simp only [Stream.jumpsFrom, hy.jumpsFrom_append, hn.jumpsFrom_append, OpenBlock.jumps,
    hr.jumpsFrom_last, List.append_nil, List.cons_append, List.nil_append]

/-- The jumps of a balanced stream lie inside it, and no two of them begin at one position. -/
theorem Balanced.jumpsAt_nodup {code : Stream} (h : Balanced code) (pc : Nat) :
    ((jumpsAt pc code).map Prod.fst).Nodup ∧
      ∀ j ∈ jumpsAt pc code, pc ≤ j.1 ∧ j.1 < pc + code.length := by
  induction h generalizing pc with
  | nil => exact ⟨.nil, by simp⟩
  | op h _ ih =>
    rw [jumpsAt_op h]
    refine ⟨(ih (pc + 1)).1, fun j hj => ?_⟩
    have := (ih (pc + 1)).2 j hj
    rw [List.length_cons]
    omega
  | @ifEnd yes tail s e hy ht ihy iht =>
    obtain ⟨ndy, iny⟩ := ihy (pc + 1)
    obtain ⟨ndt, int⟩ := iht (pc + 1 + yes.length + 1)
    rw [jumpsAt_ifEnd hy ht]
    constructor
    · simp only [List.map_append, List.map_cons, List.nodup_append, List.nodup_cons,
        List.mem_map, List.mem_cons, ndy, ndt, true_and]
      grind
    · simp only [List.mem_append, List.mem_cons, List.length_cons, List.length_append]
      rintro j (hj | rfl | hj)
      · have := int j hj; omega
      · omega
      · have := iny j hj; omega
  | @ifElse yes no tail s m e hy hn ht ihy ihn iht =>
    obtain ⟨ndy, iny⟩ := ihy (pc + 1)
    obtain ⟨ndn, inn⟩ := ihn (pc + 1 + yes.length + 1)
    obtain ⟨ndt, int⟩ := iht (pc + 1 + yes.length + 1 + no.length + 1)
    rw [jumpsAt_ifElse hy hn ht]
    constructor
    · simp only [List.map_append, List.map_cons, List.nodup_append, List.nodup_cons,
        List.mem_map, List.mem_cons, List.mem_append, ndy, ndn, ndt, true_and]
      grind
    · simp only [List.mem_append, List.mem_cons, List.length_cons, List.length_append]
      rintro j (hj | rfl | rfl | hj | hj)
      · have := int j hj; omega
      · omega
      · omega
      · have := inn j hj; omega
      · have := iny j hj; omega

/-- A table leads the jumps of a list to where they go. -/
def Jumps.Resolves (table found : Jumps) : Prop := ∀ j ∈ found, table.lookup j.1 = some j.2

namespace Jumps.Resolves

variable {table a b : Jumps}

/-- The jumps of the stream in front of another one are resolved if all are. -/
theorem left (h : Resolves table (a ++ b)) : Resolves table a :=
  fun j hj => h j (List.mem_append_left _ hj)

/-- The jumps of the stream behind another one are resolved if all are. -/
theorem right (h : Resolves table (a ++ b)) : Resolves table b :=
  fun j hj => h j (List.mem_append_right _ hj)

/-- The jumps but for the first one are resolved if all are. -/
theorem tail {j : Nat × Nat} (h : Resolves table (j :: a)) : Resolves table a :=
  fun k hk => h k (List.mem_cons_of_mem _ hk)

/-- Where a jump of the list goes in a run with the table. -/
theorem target {p t : Nat} (h : Resolves table ((p, t) :: a)) : Machine.target table p = t := by
  rw [Machine.target, h (p, t) List.mem_cons_self, Option.getD_some]

end Jumps.Resolves

/-- A table without two jumps from one position leads its own jumps to where they go. -/
theorem Jumps.resolves_self : ∀ {table : Jumps}, (table.map Prod.fst).Nodup →
    Jumps.Resolves table table
  | [], _ => by simp [Jumps.Resolves]
  | (p, t) :: rest, h => by
    rw [List.map_cons, List.nodup_cons] at h
    intro j hj
    rcases List.mem_cons.1 hj with rfl | hj
    · simp
    · have hne : j.1 ≠ p := fun he => h.1 (List.mem_map.2 ⟨j, hj, he⟩)
      rw [List.lookup_cons, beq_false_of_ne hne]
      exact Jumps.resolves_self h.2 j hj

/-- The jumps of a balanced stream resolve themselves. -/
theorem Balanced.resolves {code : Stream} (h : Balanced code) (pc : Nat) :
    Jumps.Resolves (jumpsAt pc code) (jumpsAt pc code) :=
  Jumps.resolves_self (h.jumpsAt_nodup pc).1

/-! ## Running a balanced stream -/

/-- Running one action after another, from a state on. -/
theorem bind_apply {ε σ α β : Type} (x : EStateM ε σ α) (f : α → EStateM ε σ β) (s : σ) :
    (x >>= f) s = match x s with
      | .ok a s => f a s
      | .error e s => .error e s := by
  cases h : x s <;> simp only [bind, EStateM.bind, h]

/-- Two actions in a row end well if both do. -/
theorem bind_eq_ok {ε σ α β : Type} {x : EStateM ε σ α} {f : α → EStateM ε σ β} {s s'' : σ}
    {b : β} : (x >>= f) s = .ok b s'' ↔ ∃ a s', x s = .ok a s' ∧ f a s' = .ok b s'' := by
  rw [bind_apply]
  constructor
  · intro h
    cases hx : x s with
    | ok a s' =>
      rw [hx] at h
      exact ⟨a, s', rfl, h⟩
    | error e s' =>
      rw [hx] at h
      cases h
  · rintro ⟨a, s', hx, h⟩
    rw [hx]
    exact h

/-- Two actions in a row fail if the first one does, or the second one after it. -/
theorem bind_eq_error {ε σ α β : Type} {x : EStateM ε σ α} {f : α → EStateM ε σ β} {s s'' : σ}
    {e : ε} : (x >>= f) s = .error e s'' ↔
      x s = .error e s'' ∨ ∃ a s', x s = .ok a s' ∧ f a s' = .error e s'' := by
  rw [bind_apply]
  constructor
  · intro h
    cases hx : x s with
    | ok a s' =>
      rw [hx] at h
      exact .inr ⟨a, s', rfl, h⟩
    | error e' s' =>
      rw [hx] at h
      cases h
      exact .inl rfl
  · rintro (hx | ⟨a, s', hx, h⟩)
    · rw [hx]
    · rw [hx]
      exact h

/-- A result that is changed is there if the result is. -/
theorem map_eq_ok {ε σ α β : Type} {x : EStateM ε σ α} {f : α → β} {s s' : σ} {b : β} :
    (f <$> x) s = .ok b s' ↔ ∃ a, x s = .ok a s' ∧ f a = b := by
  rw [← bind_pure_comp, bind_eq_ok]
  constructor
  · rintro ⟨a, _, hx, h⟩
    cases h
    exact ⟨a, hx, rfl⟩
  · rintro ⟨a, hx, rfl⟩
    exact ⟨a, s', hx, rfl⟩

/-- A result that is changed fails to be there if the result does. -/
theorem map_eq_error {ε σ α β : Type} {x : EStateM ε σ α} {f : α → β} {s s' : σ} {e : ε} :
    (f <$> x) s = .error e s' ↔ x s = .error e s' := by
  rw [← bind_pure_comp, bind_eq_error]
  exact or_iff_left fun ⟨_, _, _, h⟩ => nomatch h

/-- Looking at the state gives it and leaves it. -/
theorem get_apply {ε σ : Type} (s : σ) : (get : EStateM ε σ σ) s = .ok s s := rfl

namespace Machine

/-- One instruction of a run: where the run goes on. -/
def advance (jumps : Jumps) (pc : Nat) (i : Instruction) (rest : Stream) :
    Exec (Nat × Stream) := do
  match i.op with
  | .ifTrue =>
    let condition ← pop pc
    if condition.isTruthy then return (pc + 1, rest)
    else return (target jumps pc + 1, rest.drop (target jumps pc - pc))
  | .orElse => return (target jumps pc + 1, rest.drop (target jumps pc - pc))
  | .endIf => return (pc + 1, rest)
  | op =>
    step op pc
    return (pc + 1, rest)

/-- A run is one instruction and then a run. -/
theorem run_cons (jumps : Jumps) (pc : Nat) (i : Instruction) (rest : Stream) :
    run jumps pc (i :: rest) = (do
      let next ← advance jumps pc i rest
      run jumps next.1 next.2) := by
  obtain ⟨op, s⟩ := i
  rw [run]
  cases op <;> simp only [advance, bind_assoc, pure_bind]
  congr 1
  funext condition
  split <;> simp

@[simp] theorem run_nil (jumps : Jumps) (pc : Nat) : run jumps pc [] = pure () := by rw [run]

/-- What an instruction does that delimits no block. -/
theorem advance_op {i : Instruction} (h : i.op.isJump = false) (jumps : Jumps) (pc : Nat)
    (rest : Stream) :
    advance jumps pc i rest = (do
      step i.op pc
      return (pc + 1, rest)) := by
  obtain ⟨op, s⟩ := i
  cases op <;> first | rfl | simp [Op.isJump] at h

/-- What an instruction leaves to be run is the end of the code behind it. -/
theorem suffix_of_advance {jumps : Jumps} {pc : Nat} {i : Instruction} {rest : Stream}
    {m m' : Machine} {place : Nat × Stream} (h : advance jumps pc i rest m = .ok place m') :
    place.2 <:+ rest := by
  cases hj : i.op.isJump with
  | false =>
    rw [advance_op hj] at h
    obtain ⟨_, _, -, h⟩ := bind_eq_ok.1 h
    cases h
    exact List.suffix_refl rest
  | true =>
    obtain ⟨op, span⟩ := i
    cases op with
    | ifTrue =>
      obtain ⟨c, m₁, -, h⟩ := bind_eq_ok.1 h
      by_cases hc : c.isTruthy
      · rw [if_pos hc] at h
        cases h
        exact List.suffix_refl rest
      · rw [if_neg hc] at h
        cases h
        exact List.drop_suffix _ rest
    | orElse =>
      cases h
      exact List.drop_suffix _ rest
    | endIf =>
      cases h
      exact List.suffix_refl rest
    | _ => cases hj

/-- Runs a balanced stream by itself, at position `pc`. -/
def exec (pc : Nat) (code : Stream) : Exec Unit := run (jumpsAt pc code) pc code

@[simp] theorem exec_nil (pc : Nat) : exec pc [] = pure () := run_nil _ _

/-- What an `if` does that leads over `yes` and one instruction more. -/
theorem advance_ifTrue (jumps : Jumps) (pc : Nat) (s : Span) (yes : Stream) (mid : Instruction)
    (rest : Stream) (ht : target jumps pc = pc + 1 + yes.length) :
    advance jumps pc ⟨.ifTrue, s⟩ (yes ++ mid :: rest) = (do
      let condition ← pop pc
      if condition.isTruthy then return (pc + 1, yes ++ mid :: rest)
      else return (pc + 1 + yes.length + 1, rest)) := by
  have hd : (yes ++ mid :: rest).drop (target jumps pc - pc) = rest := by
    rw [ht, List.append_cons, List.drop_left' (by simp; omega)]
  rw [ht] at hd
  simp only [advance, ht, hd]

/-- What an `else` does that leads over `no` and one instruction more. -/
theorem advance_orElse (jumps : Jumps) (pc : Nat) (s : Span) (no : Stream) (mid : Instruction)
    (rest : Stream) (ht : target jumps pc = pc + 1 + no.length) :
    advance jumps pc ⟨.orElse, s⟩ (no ++ mid :: rest) =
      pure (pc + 1 + no.length + 1, rest) := by
  have hd : (no ++ mid :: rest).drop (target jumps pc - pc) = rest := by
    rw [ht, List.append_cons, List.drop_left' (by simp; omega)]
  rw [ht] at hd
  simp only [advance, ht, hd]

/-- One of two actions, by whether a value is truthy. -/
def branch (condition : Value) (yes no : Exec Unit) : Exec Unit :=
  if condition.isTruthy then yes else no

/-- A branch and then an action is a branch of two longer actions. -/
theorem branch_bind (condition : Value) (yes no : Exec Unit) (f : Unit → Exec Unit) :
    (branch condition yes no >>= f) = branch condition (yes >>= f) (no >>= f) := by
  unfold branch
  split <;> rfl

end Machine

open Machine

/-- `Runs table pc code effect`: in front of whatever code it stands, `code` at position `pc` has an
effect of its own in runs with the table. -/
def Runs (table : Jumps) (pc : Nat) (code : Stream) (effect : Exec Unit) : Prop :=
  ∀ rest, run table pc (code ++ rest) = effect >>= fun _ => run table (pc + code.length) rest

/-- A block without `else` pops the condition and perhaps runs its part. -/
theorem run_ifEnd {table : Jumps} {pc : Nat} {yes : Stream} {s e : Span} {whenTrue : Exec Unit}
    (hy : Runs table (pc + 1) yes whenTrue) (hi : target table pc = pc + 1 + yes.length)
    (rest : Stream) :
    run table pc (⟨.ifTrue, s⟩ :: (yes ++ ⟨.endIf, e⟩ :: rest)) =
      pop pc >>= fun c => branch c whenTrue (pure ()) >>= fun _ =>
        run table (pc + 1 + yes.length + 1) rest := by
  rw [run_cons, advance_ifTrue _ _ _ _ _ _ hi]
  simp only [bind_assoc, branch_bind]
  congr 1
  funext c
  unfold branch
  split
  · simp only [pure_bind, hy _, run_cons, advance]
  · simp only [pure_bind]

/-- A block with `else` pops the condition and runs one of its two parts. -/
theorem run_ifElse {table : Jumps} {pc : Nat} {yes no : Stream} {s m e : Span}
    {whenTrue whenFalse : Exec Unit} (hy : Runs table (pc + 1) yes whenTrue)
    (hn : Runs table (pc + 1 + yes.length + 1) no whenFalse)
    (hi : target table pc = pc + 1 + yes.length)
    (he : target table (pc + 1 + yes.length) = pc + 1 + yes.length + 1 + no.length)
    (rest : Stream) :
    run table pc (⟨.ifTrue, s⟩ :: (yes ++ ⟨.orElse, m⟩ :: (no ++ ⟨.endIf, e⟩ :: rest))) =
      pop pc >>= fun c => branch c whenTrue whenFalse >>= fun _ =>
        run table (pc + 1 + yes.length + 1 + no.length + 1) rest := by
  rw [run_cons, advance_ifTrue _ _ _ _ _ _ hi]
  simp only [bind_assoc, branch_bind]
  congr 1
  funext c
  unfold branch
  split
  · simp only [pure_bind, hy _, run_cons, advance_orElse _ _ _ _ _ _ he]
  · simp only [pure_bind, hn _, run_cons, advance]

/-- A balanced stream has one effect of its own with every table that resolves its jumps. -/
theorem Balanced.exists_effect {code : Stream} (h : Balanced code) (pc : Nat) :
    ∃ effect, ∀ table : Jumps, table.Resolves (jumpsAt pc code) → Runs table pc code effect := by
  induction h generalizing pc with
  | nil => exact ⟨pure (), fun _ _ _ => by simp⟩
  | @op i tail h _ ih =>
    obtain ⟨X, hX⟩ := ih (pc + 1)
    refine ⟨step i.op pc >>= fun _ => X, fun table ht rest => ?_⟩
    rw [jumpsAt_op h] at ht
    rw [List.cons_append, run_cons, advance_op h, List.length_cons,
      show pc + (tail.length + 1) = pc + 1 + tail.length by omega]
    simp only [bind_assoc, pure_bind, hX table ht _]
  | @ifEnd yes tail s e hy hr ihy iht =>
    obtain ⟨Xy, hXy⟩ := ihy (pc + 1)
    obtain ⟨Xt, hXt⟩ := iht (pc + 1 + yes.length + 1)
    -- the effect is given before the table is known, so it is the same with every table
    refine ⟨pop pc >>= fun c => branch c Xy (pure ()) >>= fun _ => Xt, fun table ht rest => ?_⟩
    rw [jumpsAt_ifEnd hy hr] at ht
    rw [List.cons_append, List.append_assoc, List.cons_append,
      run_ifEnd (hXy table ht.right.tail) ht.right.target, hXt table ht.left]
    simp only [bind_assoc, length_ifEnd]
  | @ifElse yes no tail s m e hy hn hr ihy ihn iht =>
    obtain ⟨Xy, hXy⟩ := ihy (pc + 1)
    obtain ⟨Xn, hXn⟩ := ihn (pc + 1 + yes.length + 1)
    obtain ⟨Xt, hXt⟩ := iht (pc + 1 + yes.length + 1 + no.length + 1)
    refine ⟨pop pc >>= fun c => branch c Xy Xn >>= fun _ => Xt, fun table ht rest => ?_⟩
    rw [jumpsAt_ifElse hy hn hr] at ht
    have hinner := ht.right.tail.tail
    rw [List.cons_append, List.append_assoc, List.cons_append, List.append_assoc,
      List.cons_append, run_ifElse (hXy table hinner.right) (hXn table hinner.left)
        ht.right.target ht.right.tail.target, hXt table ht.left]
    simp only [bind_assoc, length_ifElse]

/-- Running a balanced stream in front of other code is running it by itself and then that code. -/
theorem Balanced.run_append {code : Stream} (h : Balanced code) {table : Jumps} {pc : Nat}
    (ht : table.Resolves (jumpsAt pc code)) : Runs table pc code (exec pc code) := by
  obtain ⟨X, hX⟩ := h.exists_effect pc
  have hself : exec pc code = X := by
    have := hX _ (h.resolves pc) []
    rwa [List.append_nil, run_nil, bind_pure_unit] at this
  rw [hself]
  exact hX table ht

/-- A stream whose blocks are sound runs as it runs by itself from position 0. -/
theorem Balanced.execute {code : Stream} (h : Balanced code) :
    execute code = exec 0 code := by
  rw [Machine.execute, h.jumps]
  rfl

/-- Two balanced streams in a row run one after the other. -/
theorem Balanced.exec_append {a b : Stream} (ha : Balanced a) (hb : Balanced b) (pc : Nat) :
    exec pc (a ++ b) = exec pc a >>= fun _ => exec (pc + a.length) b := by
  have ht := (ha.append hb).resolves pc
  rw [ha.jumpsAt_append hb] at ht
  have hlast := hb.run_append ht.left []
  rw [List.append_nil, run_nil, bind_pure_unit] at hlast
  rw [exec, ha.jumpsAt_append hb, ha.run_append ht.right, hlast]

/-- One instruction that delimits no block runs as that instruction. -/
theorem exec_singleton {i : Instruction} (h : i.op.isJump = false) (pc : Nat) :
    exec pc [i] = step i.op pc := by
  rw [exec, run_cons, advance_op h]
  simp only [bind_assoc, pure_bind, run_nil, bind_pure_unit]

/-- One instruction that delimits no block, and then a balanced stream. -/
theorem exec_cons {i : Instruction} {rest : Stream} (h : i.op.isJump = false)
    (hr : Balanced rest) (pc : Nat) :
    exec pc (i :: rest) = step i.op pc >>= fun _ => exec (pc + 1) rest := by
  rw [← List.singleton_append, (Balanced.singleton h).exec_append hr, exec_singleton h]
  rfl

/-- A block without `else`, and then a balanced stream. -/
theorem exec_ifEnd {yes rest : Stream} {s e : Span} (hy : Balanced yes) (hr : Balanced rest)
    (pc : Nat) :
    exec pc (⟨.ifTrue, s⟩ :: (yes ++ ⟨.endIf, e⟩ :: rest)) =
      pop pc >>= fun c => branch c (exec (pc + 1) yes) (pure ()) >>= fun _ =>
        exec (pc + 1 + yes.length + 1) rest := by
  have key : ∀ table : Jumps,
      table.Resolves (jumpsAt pc (⟨.ifTrue, s⟩ :: (yes ++ ⟨.endIf, e⟩ :: rest))) →
      run table pc (⟨.ifTrue, s⟩ :: (yes ++ ⟨.endIf, e⟩ :: rest)) =
        pop pc >>= fun c => branch c (exec (pc + 1) yes) (pure ()) >>= fun _ =>
          exec (pc + 1 + yes.length + 1) rest := by
    intro table ht
    rw [jumpsAt_ifEnd hy hr] at ht
    have hlast := hr.run_append ht.left []
    rw [List.append_nil, run_nil, bind_pure_unit] at hlast
    rw [run_ifEnd (hy.run_append ht.right.tail) ht.right.target, hlast]
  exact key _ ((Balanced.ifEnd hy hr).resolves pc)

/-- A block with `else`, and then a balanced stream. -/
theorem exec_ifElse {yes no rest : Stream} {s m e : Span} (hy : Balanced yes) (hn : Balanced no)
    (hr : Balanced rest) (pc : Nat) :
    exec pc (⟨.ifTrue, s⟩ :: (yes ++ ⟨.orElse, m⟩ :: (no ++ ⟨.endIf, e⟩ :: rest))) =
      pop pc >>= fun c => branch c (exec (pc + 1) yes) (exec (pc + 1 + yes.length + 1) no) >>=
        fun _ => exec (pc + 1 + yes.length + 1 + no.length + 1) rest := by
  have key : ∀ table : Jumps, table.Resolves
      (jumpsAt pc (⟨.ifTrue, s⟩ :: (yes ++ ⟨.orElse, m⟩ :: (no ++ ⟨.endIf, e⟩ :: rest)))) →
      run table pc (⟨.ifTrue, s⟩ :: (yes ++ ⟨.orElse, m⟩ :: (no ++ ⟨.endIf, e⟩ :: rest))) =
        pop pc >>= fun c =>
          branch c (exec (pc + 1) yes) (exec (pc + 1 + yes.length + 1) no) >>=
            fun _ => exec (pc + 1 + yes.length + 1 + no.length + 1) rest := by
    intro table ht
    rw [jumpsAt_ifElse hy hn hr] at ht
    have hinner := ht.right.tail.tail
    have hlast := hr.run_append ht.left []
    rw [List.append_nil, run_nil, bind_pure_unit] at hlast
    rw [run_ifElse (hy.run_append hinner.right) (hn.run_append hinner.left) ht.right.target
      ht.right.tail.target, hlast]
  exact key _ ((Balanced.ifElse hy hn hr).resolves pc)

/-! ## The trace of a run -/

namespace Machine

/-- `After x P`: the action `x` ends well, with a result and on a machine that have `P`. -/
def After {α : Type} (x : Exec α) (P : α → Machine → Prop) (m : Machine) : Prop :=
  ∃ a m', x m = .ok a m' ∧ P a m'

section
variable {α β : Type} {P Q : α → Machine → Prop}

/-- What holds after doing nothing holds before. -/
theorem after_pure {a : α} : After (pure a) P = P a := by
  funext m
  exact propext ⟨fun ⟨_, _, h, hp⟩ => by cases h; exact hp, fun h => ⟨a, m, rfl, h⟩⟩

/-- What holds after two actions in a row holds after the second one, after the first one. -/
theorem after_bind {x : Exec α} {f : α → Exec β} {R : β → Machine → Prop} :
    After (x >>= f) R = After x (fun a => After (f a) R) := by
  funext m
  apply propext
  simp only [After, bind_apply]
  constructor
  · rintro ⟨b, m'', h, hr⟩
    cases hx : x m with
    | ok a m' => rw [hx] at h; exact ⟨a, m', rfl, b, m'', h, hr⟩
    | error e m' => rw [hx] at h; cases h
  · rintro ⟨a, m', hx, b, m'', h, hr⟩
    exact ⟨b, m'', by rw [hx]; exact h, hr⟩

/-- One of two things holds after an action if one of them holds after it: the action ends in one
way. -/
theorem after_or {x : Exec α} :
    After x (fun a m => P a m ∨ Q a m) = fun m => After x P m ∨ After x Q m := by
  funext m
  simp only [After, and_or_left, exists_or]

/-- What holds after a branch holds after the part that is taken. -/
theorem after_branch {c : Value} {yes no : Exec Unit} {R : Unit → Machine → Prop} :
    After (branch c yes no) R = if c.isTruthy then After yes R else After no R := by
  unfold branch
  split <;> rfl

end

/-- The trace of a run: `Visits jumps pc code m i n` if the run of `code` at position `pc` on `m`
executes the instruction `i`, which has its position with it, on the machine `n`. -/
inductive Visits (jumps : Jumps) : Nat → Stream → Machine → Nat × Instruction → Machine → Prop
  | here {pc : Nat} {i : Instruction} {rest : Stream} {m : Machine} :
      Visits jumps pc (i :: rest) m (pc, i) m
  | next {pc : Nat} {i : Instruction} {j : Nat × Instruction} {rest : Stream}
      {m m' n : Machine} {place : Nat × Stream} : advance jumps pc i rest m = .ok place m' →
      Visits jumps place.1 place.2 m' j n → Visits jumps pc (i :: rest) m j n

/-- A run of no instructions executes none. -/
theorem not_visits_nil {jumps : Jumps} {pc : Nat} {m n : Machine} {j : Nat × Instruction} :
    ¬ Visits jumps pc [] m j n := nofun

/-- A run executes its first instruction and then what the run from the next place executes, if it
gets there. -/
theorem visits_cons {jumps : Jumps} {pc : Nat} {i : Instruction} {j : Nat × Instruction}
    {rest : Stream} {m n : Machine} :
    Visits jumps pc (i :: rest) m j n ↔ (j = (pc, i) ∧ n = m) ∨
      After (advance jumps pc i rest)
        (fun place m' => Visits jumps place.1 place.2 m' j n) m := by
  constructor
  · rintro (_ | ⟨h, hv⟩)
    · exact .inl ⟨rfl, rfl⟩
    · exact .inr ⟨_, _, h, hv⟩
  · rintro (⟨rfl, rfl⟩ | ⟨_, _, h, hv⟩)
    · exact .here
    · exact .next h hv

/-- Only instructions of a stream are executed. -/
theorem mem_of_visits {jumps : Jumps} {pc : Nat} {code : Stream} {m n : Machine}
    {j : Nat × Instruction} (h : Visits jumps pc code m j n) : j.2 ∈ code := by
  induction h with
  | here => exact List.mem_cons_self
  | next hstep _ ih => exact List.mem_cons_of_mem _ ((suffix_of_advance hstep).subset ih)

/-- `Traces table pc code effect seen j n`: in front of whatever code it stands, `code` at position
`pc` executes `j` on `n` itself if `seen` holds, and otherwise leaves that to the code behind it,
after its own effect. -/
def Traces (table : Jumps) (pc : Nat) (code : Stream) (effect : Exec Unit)
    (seen : Machine → Prop) (j : Nat × Instruction) (n : Machine) : Prop :=
  ∀ rest m, Visits table pc (code ++ rest) m j n ↔
    seen m ∨ After effect (fun _ m' => Visits table (pc + code.length) rest m' j n) m

/-- The trace of one part of a block: its own, and after its effect the instruction that ends it and
the trace of what lies behind the block. -/
def arm (j : Nat × Instruction) (n : Machine) (seen : Machine → Prop) (effect : Exec Unit)
    (last : Nat × Instruction) (behind : Machine → Prop) (m : Machine) : Prop :=
  seen m ∨ After effect (fun _ m => (j = last ∧ n = m) ∨ behind m) m

variable {table : Jumps} {pc : Nat} {yes no : Stream} {s mid e : Span}
  {whenTrue whenFalse : Exec Unit} {seenTrue seenFalse : Machine → Prop} {j : Nat × Instruction}
  {n : Machine}

/-- The trace of a block without `else`. -/
theorem visits_ifEnd (hy : Traces table (pc + 1) yes whenTrue seenTrue j n)
    (hi : target table pc = pc + 1 + yes.length) (rest : Stream) (m : Machine) :
    Visits table pc (⟨.ifTrue, s⟩ :: (yes ++ ⟨.endIf, e⟩ :: rest)) m j n ↔
      (j = (pc, ⟨.ifTrue, s⟩) ∧ n = m) ∨ After (pop pc) (fun c => if c.isTruthy
        then arm j n seenTrue whenTrue (pc + 1 + yes.length, ⟨.endIf, e⟩)
          (Visits table (pc + 1 + yes.length + 1) rest · j n)
        else (Visits table (pc + 1 + yes.length + 1) rest · j n)) m := by
  rw [visits_cons, advance_ifTrue _ _ _ _ _ _ hi, after_bind]
  have hpart : ∀ c : Value, After (if c.isTruthy then pure (pc + 1, yes ++ ⟨.endIf, e⟩ :: rest)
      else pure (pc + 1 + yes.length + 1, rest) : Exec (Nat × Stream))
        (fun place m' => Visits table place.1 place.2 m' j n) = if c.isTruthy
      then arm j n seenTrue whenTrue (pc + 1 + yes.length, ⟨.endIf, e⟩)
        (Visits table (pc + 1 + yes.length + 1) rest · j n)
      else (Visits table (pc + 1 + yes.length + 1) rest · j n) := by
    intro c
    funext m
    split
    · rw [after_pure, hy]
      simp only [arm, visits_cons, advance, after_pure]
    · rw [after_pure]
  simp only [hpart]

/-- The trace of a block with `else`. -/
theorem visits_ifElse (hy : Traces table (pc + 1) yes whenTrue seenTrue j n)
    (hn : Traces table (pc + 1 + yes.length + 1) no whenFalse seenFalse j n)
    (hi : target table pc = pc + 1 + yes.length)
    (he : target table (pc + 1 + yes.length) = pc + 1 + yes.length + 1 + no.length)
    (rest : Stream) (m : Machine) :
    Visits table pc (⟨.ifTrue, s⟩ :: (yes ++ ⟨.orElse, mid⟩ :: (no ++ ⟨.endIf, e⟩ :: rest)))
        m j n ↔
      (j = (pc, ⟨.ifTrue, s⟩) ∧ n = m) ∨ After (pop pc) (fun c => if c.isTruthy
        then arm j n seenTrue whenTrue (pc + 1 + yes.length, ⟨.orElse, mid⟩)
          (Visits table (pc + 1 + yes.length + 1 + no.length + 1) rest · j n)
        else arm j n seenFalse whenFalse (pc + 1 + yes.length + 1 + no.length, ⟨.endIf, e⟩)
          (Visits table (pc + 1 + yes.length + 1 + no.length + 1) rest · j n)) m := by
  rw [visits_cons, advance_ifTrue _ _ _ _ _ _ hi, after_bind]
  have hpart : ∀ c : Value, After (if c.isTruthy then
        pure (pc + 1, yes ++ ⟨.orElse, mid⟩ :: (no ++ ⟨.endIf, e⟩ :: rest))
      else pure (pc + 1 + yes.length + 1, no ++ ⟨.endIf, e⟩ :: rest) : Exec (Nat × Stream))
        (fun place m' => Visits table place.1 place.2 m' j n) = if c.isTruthy
      then arm j n seenTrue whenTrue (pc + 1 + yes.length, ⟨.orElse, mid⟩)
        (Visits table (pc + 1 + yes.length + 1 + no.length + 1) rest · j n)
      else arm j n seenFalse whenFalse (pc + 1 + yes.length + 1 + no.length, ⟨.endIf, e⟩)
        (Visits table (pc + 1 + yes.length + 1 + no.length + 1) rest · j n) := by
    intro c
    funext m
    split
    · rw [after_pure, hy]
      simp only [arm, visits_cons, advance_orElse _ _ _ _ _ _ he, after_pure]
    · rw [after_pure, hn]
      simp only [arm, visits_cons, advance, after_pure]
  simp only [hpart]

end Machine

/-- A balanced stream has one trace of its own with every table that resolves its jumps. -/
theorem Balanced.exists_trace {code : Stream} (h : Balanced code) (pc : Nat) (j : Nat × Instruction)
    (n : Machine) : ∃ seen, ∀ table : Jumps, table.Resolves (jumpsAt pc code) →
      Traces table pc code (exec pc code) seen j n := by
  induction h generalizing pc with
  | nil =>
    refine ⟨fun _ => False, fun _ _ rest m => ?_⟩
    rw [exec_nil, after_pure, false_or]
    rfl
  | @op i tail h hr ih =>
    obtain ⟨seen, hs⟩ := ih (pc + 1)
    -- the instruction itself is seen, or one that comes behind it
    refine ⟨fun m => (j = (pc, i) ∧ n = m) ∨ After (step i.op pc) (fun _ => seen) m,
      fun table ht rest m => ?_⟩
    rw [jumpsAt_op h] at ht
    rw [List.cons_append, visits_cons, advance_op h, exec_cons h hr, List.length_cons,
      show pc + (tail.length + 1) = pc + 1 + tail.length by omega]
    simp only [after_bind, after_pure, hs table ht _, after_or, or_assoc]
  | @ifEnd yes tail s e hy hr ihy iht =>
    obtain ⟨seenY, hY⟩ := ihy (pc + 1)
    obtain ⟨seenT, hT⟩ := iht (pc + 1 + yes.length + 1)
    -- what is seen behind the `if` depends on the value that it pops
    refine ⟨fun m => (j = (pc, ⟨.ifTrue, s⟩) ∧ n = m) ∨ After (pop pc) (fun c => if c.isTruthy
      then arm j n seenY (exec (pc + 1) yes) (pc + 1 + yes.length, ⟨.endIf, e⟩) seenT
      else seenT) m, fun table ht rest m => ?_⟩
    rw [jumpsAt_ifEnd hy hr] at ht
    rw [List.cons_append, List.append_assoc, List.cons_append,
      visits_ifEnd (hY table ht.right.tail) ht.right.target, exec_ifEnd hy hr, length_ifEnd,
      or_assoc]
    simp only [after_bind, after_branch, hT table ht.left _]
    refine or_congr_right (.trans (iff_of_eq (congrArg (fun P => After (pop pc) P m) ?_))
      (iff_of_eq (congrFun after_or m)))
    funext c m'
    split
    · simp only [arm, after_or, or_assoc]
    · rw [after_pure]
  | @ifElse yes no tail s m e hy hn hr ihy ihn iht =>
    obtain ⟨seenY, hY⟩ := ihy (pc + 1)
    obtain ⟨seenN, hN⟩ := ihn (pc + 1 + yes.length + 1)
    obtain ⟨seenT, hT⟩ := iht (pc + 1 + yes.length + 1 + no.length + 1)
    refine ⟨fun m' => (j = (pc, ⟨.ifTrue, s⟩) ∧ n = m') ∨ After (pop pc) (fun c => if c.isTruthy
      then arm j n seenY (exec (pc + 1) yes) (pc + 1 + yes.length, ⟨.orElse, m⟩) seenT
      else arm j n seenN (exec (pc + 1 + yes.length + 1) no)
        (pc + 1 + yes.length + 1 + no.length, ⟨.endIf, e⟩) seenT) m',
      fun table ht rest m' => ?_⟩
    rw [jumpsAt_ifElse hy hn hr] at ht
    have hinner := ht.right.tail.tail
    rw [List.cons_append, List.append_assoc, List.cons_append, List.append_assoc,
      List.cons_append, visits_ifElse (hY table hinner.right) (hN table hinner.left)
        ht.right.target ht.right.tail.target, exec_ifElse hy hn hr, length_ifElse, or_assoc]
    simp only [after_bind, after_branch, hT table ht.left _]
    refine or_congr_right (.trans (iff_of_eq (congrArg (fun P => After (pop pc) P m') ?_))
      (iff_of_eq (congrFun after_or m')))
    funext c m''
    split <;> simp only [arm, after_or, or_assoc]

/-- The trace of a stream by itself at position `pc`. -/
def Machine.Executes (pc : Nat) (code : Stream) (m : Machine) (j : Nat × Instruction)
    (n : Machine) : Prop := Visits (jumpsAt pc code) pc code m j n

/-- A trace in front of no other code. -/
theorem Machine.Traces.last {table : Jumps} {pc : Nat} {code : Stream} {effect : Exec Unit}
    {seen : Machine → Prop} {j : Nat × Instruction} {n : Machine}
    (h : Traces table pc code effect seen j n) (m : Machine) :
    Visits table pc code m j n ↔ seen m := by
  have hcode := h [] m
  rw [List.append_nil] at hcode
  refine hcode.trans (or_iff_left ?_)
  rintro ⟨_, _, _, hv⟩
  exact not_visits_nil hv

/-- The trace of a balanced stream in front of other code is its trace by itself, and then that of
the code behind it. -/
theorem Balanced.visits_append {code : Stream} (h : Balanced code) {table : Jumps} {pc : Nat}
    (ht : table.Resolves (jumpsAt pc code)) {j : Nat × Instruction} {n : Machine} :
    Traces table pc code (exec pc code) (fun m => Executes pc code m j n) j n := by
  obtain ⟨seen, hs⟩ := h.exists_trace pc j n
  intro rest m
  exact (hs table ht rest m).trans (or_congr_left ((hs _ (h.resolves pc)).last m).symm)

/-- The trace of two balanced streams in a row. -/
theorem Balanced.executes_append {a b : Stream} (ha : Balanced a) (hb : Balanced b) {pc : Nat}
    {m n : Machine} {j : Nat × Instruction} : Executes pc (a ++ b) m j n ↔
      Executes pc a m j n ∨ After (exec pc a) (fun _ m => Executes (pc + a.length) b m j n) m := by
  have ht := (ha.append hb).resolves pc
  rw [ha.jumpsAt_append hb] at ht
  rw [Executes, ha.jumpsAt_append hb, ha.visits_append ht.right]
  simp only [(hb.visits_append ht.left).last]

/-- The trace of one instruction that delimits no block. -/
theorem executes_singleton {i : Instruction} (h : i.op.isJump = false) {pc : Nat}
    {m n : Machine} {j : Nat × Instruction} :
    Executes pc [i] m j n ↔ j = (pc, i) ∧ n = m := by
  rw [Executes, visits_cons, advance_op h, after_bind]
  refine or_iff_left ?_
  rintro ⟨_, _, _, _, _, h, hv⟩
  cases h
  exact not_visits_nil hv

/-- The trace of a block with `else`. -/
theorem executes_ifElse {yes no : Stream} {s mid e : Span} (hy : Balanced yes) (hn : Balanced no)
    {pc : Nat} {m n : Machine} {j : Nat × Instruction} :
    Executes pc (⟨.ifTrue, s⟩ :: (yes ++ ⟨.orElse, mid⟩ :: (no ++ [⟨.endIf, e⟩]))) m j n ↔
      (j = (pc, ⟨.ifTrue, s⟩) ∧ n = m) ∨ After (pop pc) (fun c => if c.isTruthy
        then arm j n (Executes (pc + 1) yes · j n) (exec (pc + 1) yes)
          (pc + 1 + yes.length, ⟨.orElse, mid⟩) (fun _ => False)
        else arm j n (Executes (pc + 1 + yes.length + 1) no · j n)
          (exec (pc + 1 + yes.length + 1) no)
          (pc + 1 + yes.length + 1 + no.length, ⟨.endIf, e⟩) (fun _ => False)) m := by
  have ht := (Balanced.ifElse (s := s) (m := mid) (e := e) hy hn .nil).resolves pc
  rw [jumpsAt_ifElse hy hn .nil] at ht
  have hinner := ht.right.tail.tail
  rw [Executes, jumpsAt_ifElse hy hn .nil, visits_ifElse (hy.visits_append hinner.right)
    (hn.visits_append hinner.left) ht.right.target ht.right.tail.target]
  simp only [not_visits_nil]

end Formals
