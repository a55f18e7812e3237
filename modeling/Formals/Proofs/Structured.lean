import Formals.Proofs.Blocks

/-!
# Blocks and their execution

A `Block` is a stream read as a tree: single instructions, and `if` blocks around other blocks.
`Block.run` is the structured interpreter, which never jumps. The streams with jumps are those of
the blocks (`jumps_ok_iff`), and executing such a stream is running any block that it is of
(`Block.execute_stream`).

`Loops` is the flat program counter over an array of targets: which positions it visits and how it
ends. Since every target lies ahead of its jump (`Ahead`), the visited positions ascend, and the
loop ends as `Machine.execute` does (`loops_run`).
-/

namespace Formals

open Machine

/-! ## The grammar -/

/-- A stream as the tree of its blocks. -/
inductive Block
  | done
  | plain (i : Instruction) (h : i.op.isJump = false) (rest : Block)
  | ifEnd (opening : Span) (yes : Block) (closing : Span) (rest : Block)
  | ifElse (opening : Span) (yes : Block) (middle : Span) (no : Block) (closing : Span)
      (rest : Block)

namespace Block

/-- The instructions of a block in order. -/
def stream : Block → Stream
  | done => []
  | plain i _ rest => i :: rest.stream
  | ifEnd s yes e rest => ⟨.ifTrue, s⟩ :: (yes.stream ++ ⟨.endIf, e⟩ :: rest.stream)
  | ifElse s yes m no e rest =>
    ⟨.ifTrue, s⟩ :: (yes.stream ++ ⟨.orElse, m⟩ :: (no.stream ++ ⟨.endIf, e⟩ :: rest.stream))

/-- Runs a block whose first instruction is at position `pc`. The position is only what an error of
an instruction reports. -/
def run (pc : Nat) : Block → Exec Unit
  | done => return ()
  | plain i _ rest => do
    step i.op pc
    rest.run (pc + 1)
  | ifEnd _ yes _ rest => do
    let condition ← pop pc
    branch condition (yes.run (pc + 1)) (return ())
    rest.run (pc + 1 + yes.stream.length + 1)
  | ifElse _ yes _ no _ rest => do
    let condition ← pop pc
    branch condition (yes.run (pc + 1)) (no.run (pc + 1 + yes.stream.length + 1))
    rest.run (pc + 1 + yes.stream.length + 1 + no.stream.length + 1)

/-- The stream of a block is balanced. -/
theorem balanced : ∀ b : Block, Balanced b.stream
  | done => .nil
  | plain _ h rest => .op h rest.balanced
  | ifEnd _ yes _ rest => .ifEnd yes.balanced rest.balanced
  | ifElse _ yes _ no _ rest => .ifElse yes.balanced no.balanced rest.balanced

/-- Running the stream of a block is running the block. -/
theorem exec_stream (b : Block) (pc : Nat) : exec pc b.stream = b.run pc := by
  induction b generalizing pc with
  | done => exact exec_nil pc
  | plain i h rest ih => rw [stream, run, exec_cons h rest.balanced, ih]
  | ifEnd s yes e rest ihy ihr =>
    rw [stream, run, exec_ifEnd yes.balanced rest.balanced, ihy, ihr]
  | ifElse s yes m no e rest ihy ihn ihr =>
    rw [stream, run, exec_ifElse yes.balanced no.balanced rest.balanced, ihy, ihn, ihr]

/-- Executing the stream of a block is running the block. -/
theorem execute_stream (b : Block) : execute b.stream = b.run 0 := by
  rw [b.balanced.execute, b.exec_stream]

end Block

/-- A balanced stream is that of a block. -/
theorem Balanced.exists_block {code : Stream} (h : Balanced code) :
    ∃ b : Block, b.stream = code := by
  induction h with
  | nil => exact ⟨.done, rfl⟩
  | @op i rest h _ ih =>
    obtain ⟨b, rfl⟩ := ih
    exact ⟨.plain i h b, rfl⟩
  | @ifEnd yes rest s e _ _ ihy ihr =>
    obtain ⟨y, rfl⟩ := ihy
    obtain ⟨r, rfl⟩ := ihr
    exact ⟨.ifEnd s y e r, rfl⟩
  | @ifElse yes no rest s m e _ _ _ ihy ihn ihr =>
    obtain ⟨y, rfl⟩ := ihy
    obtain ⟨n, rfl⟩ := ihn
    obtain ⟨r, rfl⟩ := ihr
    exact ⟨.ifElse s y m n e r, rfl⟩

/-- The streams that close the blocks that are open, innermost first, and are balanced otherwise. -/
inductive Closes : List OpenBlock → Stream → Prop
  | done {code : Stream} : Balanced code → Closes [] code
  | atEnd {b : OpenBlock} {outer : List OpenBlock} {part rest : Stream} {e : Span} :
      Balanced part → Closes outer rest → Closes (b :: outer) (part ++ ⟨.endIf, e⟩ :: rest)
  | atElse {ifAt : Nat} {outer : List OpenBlock} {yes no rest : Stream} {m e : Span} :
      Balanced yes → Balanced no → Closes outer rest →
      Closes (⟨ifAt, none⟩ :: outer) (yes ++ ⟨.orElse, m⟩ :: (no ++ ⟨.endIf, e⟩ :: rest))

namespace Closes

/-- A stream that closes blocks still does behind a balanced one. -/
theorem prepend {front code : Stream} {opened : List OpenBlock} (hf : Balanced front)
    (h : Closes opened code) : Closes opened (front ++ code) := by
  cases h with
  | done hc => exact .done (hf.append hc)
  | atEnd hp ho =>
    rw [← List.append_assoc]
    exact .atEnd (hf.append hp) ho
  | atElse hy hn ho =>
    rw [← List.append_assoc]
    exact .atElse (hf.append hy) hn ho

/-- An `if` in front of a stream that closes its block. -/
theorem ifTrue {pc : Nat} {opened : List OpenBlock} {rest : Stream} (s : Span)
    (h : Closes (⟨pc, none⟩ :: opened) rest) : Closes opened (⟨.ifTrue, s⟩ :: rest) := by
  cases h with
  | @atEnd _ _ part rest e hp ho => simpa using ho.prepend (.ifEnd (s := s) (e := e) hp .nil)
  | @atElse _ _ yes no rest m e hy hn ho =>
    simpa using ho.prepend (.ifElse (s := s) (m := m) (e := e) hy hn .nil)

/-- An `else` in front of a stream that closes the block of the `else`. -/
theorem orElse {ifAt pc : Nat} {outer : List OpenBlock} {rest : Stream} (m : Span)
    (h : Closes (⟨ifAt, some pc⟩ :: outer) rest) :
    Closes (⟨ifAt, none⟩ :: outer) (⟨.orElse, m⟩ :: rest) := by
  cases h with
  | atEnd hn ho => exact .atElse .nil hn ho

end Closes

/-- What is none of the three instructions of a block is no jump. -/
theorem Op.isJump_eq_false {op : Op} (hif : op ≠ .ifTrue) (helse : op ≠ .orElse)
    (hend : op ≠ .endIf) : op.isJump = false := by
  cases op <;> first | rfl | contradiction

/-- A stream whose jumps are found closes the blocks that are open around it. -/
theorem closes_of_jumpsFrom {code : Stream} {pc : Nat} {opened : List OpenBlock}
    {found out : Jumps} (h : Stream.jumpsFrom pc opened found code = .ok out) :
    Closes opened code := by
  fun_induction Stream.jumpsFrom pc opened found code with
  | case1 => exact .done .nil
  | case2 | case5 | case7 => cases h
  | case3 pc opened found i rest hop ih =>
    obtain ⟨op, s⟩ := i
    cases hop
    exact (ih h).ifTrue s
  | case4 pc found i rest hop ifAt outer ih =>
    obtain ⟨op, m⟩ := i
    cases hop
    exact (ih h).orElse m
  | case6 pc found i rest hop b outer ih =>
    obtain ⟨op, e⟩ := i
    cases hop
    exact .atEnd .nil (ih h)
  | case8 pc opened found i rest hif helse hend ih =>
    exact (ih h).prepend (.singleton (Op.isJump_eq_false hif helse hend))

/-- The streams with jumps are those of the blocks. -/
theorem jumps_ok_iff {code : Stream} :
    (∃ jumps, code.jumps = .ok jumps) ↔ ∃ b : Block, b.stream = code := by
  constructor
  · rintro ⟨jumps, h⟩
    cases closes_of_jumpsFrom h with
    | done hb => exact hb.exists_block
  · rintro ⟨b, rfl⟩
    exact ⟨_, b.balanced.jumps⟩

/-- A stream without jumps has a malformed block. -/
theorem jumpsFrom_error {code : Stream} {pc : Nat} {opened : List OpenBlock} {found : Jumps}
    {error : RuntimeError} (h : Stream.jumpsFrom pc opened found code = .error error) :
    ∃ fault at', error = .malformedBlock fault at' := by
  fun_induction Stream.jumpsFrom pc opened found code with
  | case1 => cases h
  | case2 | case5 | case7 =>
    cases h
    exact ⟨_, _, rfl⟩
  | case3 _ _ _ _ _ _ ih | case4 _ _ _ _ _ _ _ ih | case6 _ _ _ _ _ _ _ ih
  | case8 _ _ _ _ _ _ _ _ ih => exact ih h

/-- A stream of no block is not run. -/
theorem execute_malformed {code : Stream} (h : ¬∃ b : Block, b.stream = code) :
    ∃ fault pc, ∀ m, execute code m = .error (.malformedBlock fault pc) m := by
  cases hj : code.jumps with
  | ok jumps => exact absurd (jumps_ok_iff.1 ⟨jumps, hj⟩) h
  | error error =>
    obtain ⟨fault, pc, rfl⟩ := jumpsFrom_error hj
    exact ⟨fault, pc, fun m => by rw [execute, hj]; rfl⟩

/-! ## The targets of the jumps -/

/-- Every jump of a balanced stream leads forward, to a position inside the stream. -/
theorem Balanced.jumpsAt_forward {code : Stream} (h : Balanced code) (pc : Nat) :
    ∀ j ∈ jumpsAt pc code, j.1 < j.2 ∧ j.2 < pc + code.length := by
  induction h generalizing pc with
  | nil => simp
  | op h _ ih =>
    rw [jumpsAt_op h]
    intro j hj
    have := ih (pc + 1) j hj
    rw [List.length_cons]
    omega
  | @ifEnd yes tail s e hy ht ihy iht =>
    rw [jumpsAt_ifEnd hy ht]
    simp only [List.mem_append, List.mem_cons, List.length_cons, List.length_append]
    rintro j (hj | rfl | hj)
    · have := iht _ j hj; omega
    · omega
    · have := ihy _ j hj; omega
  | @ifElse yes no tail s m e hy hn ht ihy ihn iht =>
    rw [jumpsAt_ifElse hy hn ht]
    simp only [List.mem_append, List.mem_cons, List.length_cons, List.length_append]
    rintro j (hj | rfl | rfl | hj | hj)
    · have := iht _ j hj; omega
    · omega
    · omega
    · have := ihn _ j hj; omega
    · have := ihy _ j hj; omega

/-- Among some jumps there is one from every `if` and every `else` of the stream from position `pc`
on. -/
def Jumps.Cover (out : Jumps) (pc : Nat) (code : Stream) : Prop :=
  ∀ k i, code[k]? = some i → i.op = .ifTrue ∨ i.op = .orElse → ∃ t, (pc + k, t) ∈ out

/-- Jumps cover a stream if they cover its rest and there is one from its first instruction where
that needs one. -/
theorem Jumps.Cover.cons {out : Jumps} {pc : Nat} {i : Instruction} {rest : Stream}
    (hhere : i.op = .ifTrue ∨ i.op = .orElse → ∃ t, (pc, t) ∈ out)
    (hrest : out.Cover (pc + 1) rest) : out.Cover pc (i :: rest) := by
  intro k j hk hj
  cases k with
  | zero =>
    cases hk
    exact hhere hj
  | succ k =>
    rw [List.getElem?_cons_succ] at hk
    rw [show pc + (k + 1) = pc + 1 + k by omega]
    exact hrest k j hk hj

/-- The jumps of a block that ends are one from its `if` and one from its `else`. -/
theorem OpenBlock.exists_mem_jumps {b : OpenBlock} {p : Nat} (endAt : Nat)
    (hp : p = b.ifAt ∨ b.elseAt = some p) : ∃ t, (p, t) ∈ b.jumps endAt := by
  obtain ⟨ifAt, _ | elseAt⟩ := b
  · obtain rfl : p = ifAt := hp.resolve_right nofun
    exact ⟨endAt, .head _⟩
  · rcases hp with rfl | hp
    · exact ⟨elseAt, .head _⟩
    · cases hp
      exact ⟨endAt, .tail _ (.head _)⟩

/-- The jumps that are found hold those found before, those of the blocks that are open, and one
from every `if` and every `else` of the stream. -/
theorem jumpsFrom_complete {code : Stream} {pc : Nat} {opened : List OpenBlock} {found out : Jumps}
    (h : Stream.jumpsFrom pc opened found code = .ok out) :
    (∀ j ∈ found, j ∈ out) ∧
      (∀ b ∈ opened, ∀ p, p = b.ifAt ∨ b.elseAt = some p → ∃ t, (p, t) ∈ out) ∧
      out.Cover pc code := by
  -- the jumps of a block are added at its `end`: until then it is among the open ones
  fun_induction Stream.jumpsFrom pc opened found code with
  | case1 =>
    cases h
    exact ⟨fun _ hj => hj, nofun, nofun⟩
  | case2 | case5 | case7 => cases h
  | case3 pc opened found i rest hop ih =>
    obtain ⟨hfound, hopened, hrest⟩ := ih h
    obtain ⟨hhere, hopened⟩ := List.forall_mem_cons.1 hopened
    exact ⟨hfound, hopened, .cons (fun _ => hhere pc (.inl rfl)) hrest⟩
  | case4 pc found i rest hop ifAt outer ih =>
    obtain ⟨hfound, hopened, hrest⟩ := ih h
    obtain ⟨hhere, hopened⟩ := List.forall_mem_cons.1 hopened
    have hopening : ∀ p, p = ifAt ∨ none = some p → ∃ t, (p, t) ∈ out := fun p hp =>
      hhere p (.inl (hp.resolve_right nofun))
    exact ⟨hfound, List.forall_mem_cons.2 ⟨hopening, hopened⟩,
      .cons (fun _ => hhere pc (.inr rfl)) hrest⟩
  | case6 pc found i rest hop b outer ih =>
    obtain ⟨hfound, hopened, hrest⟩ := ih h
    refine ⟨fun j hj => hfound j (List.mem_append_right _ hj),
      List.forall_mem_cons.2 ⟨fun p hp => ?_, hopened⟩, .cons (fun hj => ?_) hrest⟩
    · obtain ⟨t, ht⟩ := b.exists_mem_jumps pc hp
      exact ⟨t, hfound _ (List.mem_append_left _ ht)⟩
    · rw [hop] at hj
      rcases hj with hj | hj <;> cases hj
  | case8 pc opened found i rest hif helse hend ih =>
    obtain ⟨hfound, hopened, hrest⟩ := ih h
    exact ⟨hfound, hopened, .cons (fun hj => (hj.elim hif helse).elim) hrest⟩

/-- The array of targets has an entry at every `if` and every `else` of a stream, which lies ahead
in the stream. -/
def Ahead (targets : Jumps) (code : Stream) : Prop :=
  ∀ pc i, code[pc]? = some i → i.op = .ifTrue ∨ i.op = .orElse →
    ∃ t, targets.lookup pc = some t ∧ pc < t ∧ t < code.length

/-- The jumps of a stream lead forward. -/
theorem ahead_of_jumps {code : Stream} {targets : Jumps} (h : code.jumps = .ok targets) :
    Ahead targets code := by
  obtain ⟨b, rfl⟩ := jumps_ok_iff.1 ⟨targets, h⟩
  intro pc i hi hop
  obtain ⟨t, ht⟩ := (jumpsFrom_complete h).2.2 pc i hi hop
  rw [Nat.zero_add] at ht
  rw [b.balanced.jumps] at h
  cases h
  have hlead := b.balanced.jumpsAt_forward 0 _ ht
  rw [Nat.zero_add] at hlead
  exact ⟨t, b.balanced.resolves 0 _ ht, hlead⟩

/-! ## The loop -/

namespace Machine

/-- The entry of an array of targets, whose unused entries are 0. -/
def entry (targets : Jumps) (pc : Nat) : Nat := (targets.lookup pc).getD 0

/-- One turn of the loop: what the instruction at `pc` does, and the position of the next turn. -/
def turn (targets : Jumps) (pc : Nat) (op : Op) : Exec Nat := do
  match op with
  | .ifTrue =>
    let condition ← pop pc
    return if condition.isTruthy then pc + 1 else entry targets pc + 1
  | .orElse => return entry targets pc + 1
  | .endIf => return pc + 1
  | op =>
    step op pc
    return pc + 1

/-- The loop from position `pc` on a machine: the positions at which it takes a turn, and how it
ends. It stops behind the stream, or at the first error. -/
inductive Loops (code : Stream) (targets : Jumps) :
    Nat → Machine → List Nat → EStateM.Result RuntimeError Machine Unit → Prop
  | done {pc : Nat} {m : Machine} : code.length ≤ pc → Loops code targets pc m [] (.ok () m)
  | fail {pc : Nat} {m m' : Machine} {i : Instruction} {error : RuntimeError} :
      code[pc]? = some i → turn targets pc i.op m = .error error m' →
      Loops code targets pc m [pc] (.error error m')
  | next {pc pc' : Nat} {m m' : Machine} {i : Instruction} {trace : List Nat}
      {result : EStateM.Result RuntimeError Machine Unit} :
      code[pc]? = some i → turn targets pc i.op m = .ok pc' m' →
      Loops code targets pc' m' trace result → Loops code targets pc m (pc :: trace) result

variable {code : Stream} {targets : Jumps}

/-- A turn at an instruction that delimits no block. -/
theorem turn_op {op : Op} (h : op.isJump = false) (targets : Jumps) (pc : Nat) :
    turn targets pc op = (do
      step op pc
      return pc + 1) := by
  cases op <;> first | rfl | simp [Op.isJump] at h

/-- A turn leads forward. -/
theorem turn_forward (ha : Ahead targets code) {pc pc' : Nat} {i : Instruction} {m m' : Machine}
    (hi : code[pc]? = some i) (ht : turn targets pc i.op m = .ok pc' m') : pc < pc' := by
  have hahead : i.op = .ifTrue ∨ i.op = .orElse → pc < entry targets pc + 1 := by
    intro hop
    obtain ⟨t, hl, hlt, _⟩ := ha pc i hi hop
    rw [entry, hl, Option.getD_some]
    omega
  by_cases hop : i.op.isJump = false
  · rw [turn_op hop] at ht
    obtain ⟨_, _, _, hpure⟩ := bind_eq_ok.1 ht
    cases hpure
    omega
  obtain ⟨op, s⟩ := i
  cases op <;> simp only [Op.isJump, not_true_eq_false] at hop
  case ifTrue =>
    obtain ⟨c, _, _, hpure⟩ := bind_eq_ok.1 ht
    cases hpure
    split
    · omega
    · exact hahead (.inl rfl)
  case orElse =>
    cases ht
    exact hahead (.inr rfl)
  case endIf =>
    cases ht
    omega

/-- Where a jump leads in a run and in the loop is the same, if it has an entry. -/
theorem target_eq_entry {pc t : Nat} (h : targets.lookup pc = some t) :
    target targets pc = t ∧ entry targets pc = t := by
  rw [target, entry, h, Option.getD_some, Option.getD_some]
  exact ⟨rfl, rfl⟩

/-- An instruction of a run is a turn of the loop. -/
theorem advance_eq_turn (ha : Ahead targets code) {pc : Nat} {i : Instruction}
    (hi : code[pc]? = some i) : advance targets pc i (code.drop (pc + 1)) = (do
      let pc' ← turn targets pc i.op
      return (pc', code.drop pc')) := by
  -- behind a target that lies ahead of `pc`, both have the same instructions left
  have hjump : i.op = .ifTrue ∨ i.op = .orElse →
      target targets pc = entry targets pc ∧
        (code.drop (pc + 1)).drop (entry targets pc - pc) =
          code.drop (entry targets pc + 1) := by
    intro hop
    obtain ⟨t, hl, hlt, _⟩ := ha pc i hi hop
    obtain ⟨htarget, hentry⟩ := target_eq_entry hl
    rw [htarget, hentry, List.drop_drop, show pc + 1 + (t - pc) = t + 1 by omega]
    exact ⟨rfl, rfl⟩
  by_cases hop : i.op.isJump = false
  · rw [advance_op hop, turn_op hop]
    simp only [bind_assoc, pure_bind]
  obtain ⟨op, s⟩ := i
  cases op <;> simp only [Op.isJump, not_true_eq_false] at hop
  case ifTrue =>
    obtain ⟨htarget, hdrop⟩ := hjump (.inl rfl)
    simp only [advance, turn, hdrop, htarget, bind_assoc, pure_bind]
    congr 1
    funext c
    split <;> rfl
  case orElse =>
    obtain ⟨htarget, hdrop⟩ := hjump (.inr rfl)
    simp only [advance, turn, hdrop, htarget, pure_bind]
  case endIf => rfl

/-- A run takes a turn and goes on where it leads. -/
theorem run_drop (ha : Ahead targets code) {pc : Nat} {i : Instruction}
    (hi : code[pc]? = some i) : run targets pc (code.drop pc) = (do
      let pc' ← turn targets pc i.op
      run targets pc' (code.drop pc')) := by
  obtain ⟨hlt, rfl⟩ := List.getElem?_eq_some_iff.1 hi
  rw [List.drop_eq_getElem_cons hlt, run_cons, advance_eq_turn ha hi]
  simp only [bind_assoc, pure_bind]

/-- The loop ends as the run does. The positions of its turns ascend, so there are no more of them
than instructions are left. -/
theorem loops_run (ha : Ahead targets code) (pc : Nat) (m : Machine) :
    ∃ trace, Loops code targets pc m trace (run targets pc (code.drop pc) m) ∧
      (pc :: trace).Pairwise (· ≤ ·) ∧ trace.Pairwise (· < ·) ∧
      trace.length ≤ code.length - pc := by
  -- every turn leads forward, so there is less code left behind it
  induction hleft : code.length - pc using Nat.strongRecOn generalizing pc m with
  | ind left ih =>
  cases hi : code[pc]? with
  | none =>
    have hend := List.getElem?_eq_none_iff.1 hi
    rw [List.drop_eq_nil_of_le hend, run_nil]
    exact ⟨[], .done hend, by simp, .nil, Nat.zero_le _⟩
  | some i =>
    have hlt := (List.getElem?_eq_some_iff.1 hi).1
    rw [run_drop ha hi, bind_apply]
    cases ht : turn targets pc i.op m with
    | error error m' => exact ⟨[pc], .fail hi ht, by simp, by simp, by simp; omega⟩
    | ok pc' m' =>
      have hpc := turn_forward ha hi ht
      obtain ⟨trace, hloops, hfrom, hascends, hlen⟩ := ih _ (by omega) pc' m' rfl
      have hafter : ∀ p ∈ trace, pc < p := fun p hp =>
        Nat.lt_of_lt_of_le hpc (List.rel_of_pairwise_cons hfrom hp)
      refine ⟨pc :: trace, .next hi ht hloops, ?_, List.pairwise_cons.2 ⟨hafter, hascends⟩, ?_⟩
      · refine List.pairwise_cons.2 ⟨?_, List.pairwise_cons.2 ⟨?_, (List.pairwise_cons.1 hfrom).2⟩⟩
        · rintro p hp
          rcases List.mem_cons.1 hp with rfl | hp
          · exact Nat.le_refl _
          · exact Nat.le_of_lt (hafter p hp)
        · exact fun p hp => Nat.le_of_lt (hafter p hp)
      · rw [List.length_cons]
        omega

/-- The loop takes one course. -/
theorem Loops.unique {pc : Nat} {m : Machine} {trace trace' : List Nat}
    {result result' : EStateM.Result RuntimeError Machine Unit}
    (h : Loops code targets pc m trace result) (h' : Loops code targets pc m trace' result') :
    trace' = trace ∧ result' = result := by
  induction h generalizing trace' with
  | done hend =>
    have hnone := List.getElem?_eq_none_iff.2 hend
    cases h' with
    | done _ => exact ⟨rfl, rfl⟩
    | fail hi _ | next hi _ _ => rw [hnone] at hi; cases hi
  | fail hi ht =>
    have hlt := (List.getElem?_eq_some_iff.1 hi).1
    cases h' with
    | done hend => omega
    | fail hi' ht' =>
      cases hi.symm.trans hi'
      cases ht.symm.trans ht'
      exact ⟨rfl, rfl⟩
    | next hi' ht' _ =>
      cases hi.symm.trans hi'
      cases ht.symm.trans ht'
  | next hi ht _ ih =>
    have hlt := (List.getElem?_eq_some_iff.1 hi).1
    cases h' with
    | done hend => omega
    | fail hi' ht' =>
      cases hi.symm.trans hi'
      cases ht.symm.trans ht'
    | next hi' ht' hrest =>
      cases hi.symm.trans hi'
      cases ht.symm.trans ht'
      obtain ⟨rfl, rfl⟩ := ih hrest
      exact ⟨rfl, rfl⟩

end Machine

/-- A stream has jumps exactly if it is that of a block. A stream of no block is refused before
anything of it runs. Executing the stream of a block is running the block. It is also the loop over
the array of targets, in which every jump leads forward, so that it takes a turn at most once for
every instruction. -/
theorem blocks_executed (code : Stream) :
    ((∃ targets, code.jumps = .ok targets) ↔ ∃ b : Block, b.stream = code) ∧
      ((¬∃ b : Block, b.stream = code) →
        ∃ fault pc, ∀ m, execute code m = .error (.malformedBlock fault pc) m) ∧
      ∀ targets, code.jumps = .ok targets →
        Ahead targets code ∧
          ∀ m, (∃ trace, Loops code targets 0 m trace (execute code m) ∧
              trace.Pairwise (· < ·) ∧ trace.length ≤ code.length ∧
              ∀ trace' result, Loops code targets 0 m trace' result →
                trace' = trace ∧ result = execute code m) ∧
            ∀ b : Block, b.stream = code → execute code m = b.run 0 m := by
  refine ⟨jumps_ok_iff, execute_malformed, fun targets hj => ?_⟩
  have ha := ahead_of_jumps hj
  refine ⟨ha, fun m => ⟨?_, ?_⟩⟩
  · obtain ⟨trace, hloops, _, hascends, hlen⟩ := loops_run ha 0 m
    have hrun : execute code = run targets 0 code := by
      rw [execute, hj]
      rfl
    rw [List.drop_zero, ← hrun] at hloops
    exact ⟨trace, hloops, hascends, hlen, fun _ _ h => hloops.unique h⟩
  · rintro b rfl
    rw [b.execute_stream]

/-- An `if` whose condition holds, around one whose condition does not: the loop leaves the inner
block over its `end` and the outer one over its `else`. A lone `else` is refused. -/
theorem nested_blocks_executed :
    let m : Machine := fresh {}
    let code : Stream := [.pushTrue, .ifTrue, .pushFalse, .ifTrue, .endIf, .orElse, .endIf].map
      fun op => ⟨op, ⟨0, 0⟩⟩
    (code.jumps = .ok [(1, 5), (5, 6), (3, 4)] ∧ execute code m = .ok () m ∧
      Loops code [(1, 5), (5, 6), (3, 4)] 0 m [0, 1, 2, 3, 5] (execute code m)) ∧
      ∃ fault pc, execute [⟨.orElse, ⟨0, 0⟩⟩] m = .error (.malformedBlock fault pc) m := by
  intro m code
  have hjumps : code.jumps = .ok [(1, 5), (5, 6), (3, 4)] := rfl
  have hloops : Loops code [(1, 5), (5, 6), (3, 4)] 0 m [0, 1, 2, 3, 5] (.ok () m) :=
    .next rfl rfl <| .next rfl rfl <| .next rfl rfl <| .next rfl rfl <| .next rfl rfl <|
      .done (by decide)
  obtain ⟨⟨_, _, _, _, hunique⟩, _⟩ := ((blocks_executed code).2.2 _ hjumps).2 m
  have hresult := (hunique _ _ hloops).2
  refine ⟨⟨hjumps, hresult.symm, hresult ▸ hloops⟩, ?_⟩
  obtain ⟨iff, refused, _⟩ := blocks_executed [⟨.orElse, ⟨0, 0⟩⟩]
  obtain ⟨fault, pc, h⟩ := refused fun hb => nomatch iff.2 hb
  exact ⟨fault, pc, h m⟩

end Formals
