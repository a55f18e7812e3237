import Formals.Code.Listing
import Formals.Proofs.CallerData
import Formals.Proofs.Codec
import Formals.Proofs.Structured

/-!
# Listings show the blocks

`Jumps.blocks` is where the blocks of a stream stand, read off the jumps that match them. For the
stream of a `Block` they are the places of the nodes of that tree (`Block.blocks_stream`), and the
depth at which an entry is listed is the number of places around it (`Block.entriesFrom_stream`). So
a listing shows the blocks as the machine matches them (`blocks_listed`).
-/

namespace Formals

/-! ## The places of blocks -/

/-- Where a block of a stream stands: its `if`, its `else` if it has one, and its `end`. -/
structure BlockPlace where
  ifAt : Nat
  elseAt : Option Nat
  endAt : Nat
  deriving DecidableEq, Repr

/-- Whether a position lies inside a block. Its `if`, its `else` and its `end` do not. -/
def BlockPlace.encloses (b : BlockPlace) (pc : Nat) : Bool :=
  b.ifAt < pc && pc < b.endAt && b.elseAt != some pc

/-- The positions of the `if`, the `else` and the `end` of a block. -/
def BlockPlace.marks (b : BlockPlace) : List (Nat × Op) :=
  (b.ifAt, .ifTrue) :: (b.elseAt.toList.map fun pc => (pc, .orElse)) ++ [(b.endAt, .endIf)]

/-- The block that begins where a jump does, if that is at an `if`. It ends where the jump leads, or
where the `else` leads to which the jump does. -/
def Jumps.placeFrom (code : Stream) (jumps : Jumps) (jump : Nat × Nat) : Option BlockPlace :=
  if (code[jump.1]?.map Instruction.op) = some .ifTrue then
    some (if (code[jump.2]?.map Instruction.op) = some .orElse then
      ⟨jump.1, some jump.2, Machine.target jumps jump.2⟩
    else ⟨jump.1, none, jump.2⟩)
  else none

/-- The blocks of a stream, as the jumps match them. -/
def Jumps.blocks (code : Stream) (jumps : Jumps) : List BlockPlace :=
  jumps.filterMap (jumps.placeFrom code)

/-- The marks of a block are at one depth, and what the block encloses is deeper. -/
def BlockPlace.Aligned (depth : Nat → Nat) (b : BlockPlace) : Prop :=
  depth b.endAt = depth b.ifAt ∧ (∀ m, b.elseAt = some m → depth m = depth b.ifAt) ∧
    ∀ q, b.encloses q → depth b.ifAt < depth q

/-- The number of blocks around a position. -/
def Jumps.depthAt (code : Stream) (jumps : Jumps) (pc : Nat) : Nat :=
  (jumps.blocks code).countP (·.encloses pc)

/-- The instructions of a stream that delimit blocks, with their positions from `pc` on. -/
def Stream.delimiters (pc : Nat) (code : Stream) : List (Nat × Op) :=
  (code.mapIdx fun k i => (pc + k, i.op)).filter (·.2.isJump)

/-- An instruction in front is a delimiter or not, and the others stand one position further. -/
theorem delimiters_cons (pc : Nat) (i : Instruction) (rest : Stream) :
    Stream.delimiters pc (i :: rest) =
      (if i.op.isJump then [(pc, i.op)] else []) ++ Stream.delimiters (pc + 1) rest := by
  simp only [Stream.delimiters, List.mapIdx_cons, List.filter_cons, Nat.add_zero, Nat.add_assoc,
    Nat.add_comm 1]
  split <;> rfl

/-- The delimiters of two streams in a row are those of the first one, and those of the second one
behind it. -/
theorem delimiters_append (pc : Nat) (a b : Stream) : Stream.delimiters pc (a ++ b) =
    Stream.delimiters pc a ++ Stream.delimiters (pc + a.length) b := by
  simp [Stream.delimiters, List.mapIdx_append, Nat.add_assoc, Nat.add_comm a.length]

/-- A part of a stream stands in it at a position. -/
def Stream.StandsIn (part code : Stream) (pc : Nat) : Prop :=
  ∀ k i, part[k]? = some i → code[pc + k]? = some i

/-- A part stands at a position if its first instruction does, and the others behind that. -/
theorem standsIn_cons {i : Instruction} {part code : Stream} {pc : Nat} :
    Stream.StandsIn (i :: part) code pc ↔ code[pc]? = some i ∧ part.StandsIn code (pc + 1) := by
  constructor
  · intro h
    refine ⟨h 0 i rfl, fun k j hk => ?_⟩
    rw [Nat.add_assoc, Nat.add_comm 1]
    exact h (k + 1) j hk
  · rintro ⟨hfirst, hrest⟩ k j hk
    cases k with
    | zero => exact hk ▸ hfirst
    | succ k =>
      rw [Nat.add_comm k, ← Nat.add_assoc]
      exact hrest k j hk

/-- Two streams in a row stand at a position if the first one does, and the second one behind it. -/
theorem standsIn_append {a b code : Stream} {pc : Nat} : Stream.StandsIn (a ++ b) code pc ↔
    a.StandsIn code pc ∧ b.StandsIn code (pc + a.length) := by
  induction a generalizing pc with
  | nil => simp [Stream.StandsIn]
  | cons i a ih =>
    rw [List.cons_append, standsIn_cons, standsIn_cons, ih, and_assoc, List.length_cons,
      Nat.add_right_comm, Nat.add_assoc pc]

namespace Block

/-- The places of the blocks of a tree whose first instruction is at position `pc`. -/
def places (pc : Nat) : Block → List BlockPlace
  | done => []
  | plain _ _ rest => rest.places (pc + 1)
  | ifEnd _ yes _ rest =>
    rest.places (pc + 1 + yes.stream.length + 1) ++
      ⟨pc, none, pc + 1 + yes.stream.length⟩ :: yes.places (pc + 1)
  | ifElse _ yes _ no _ rest =>
    rest.places (pc + 1 + yes.stream.length + 1 + no.stream.length + 1) ++
      ⟨pc, some (pc + 1 + yes.stream.length), pc + 1 + yes.stream.length + 1 + no.stream.length⟩ ::
        (no.places (pc + 1 + yes.stream.length + 1) ++ yes.places (pc + 1))

/-- The number of blocks of a tree around a position. -/
def depthAt (b : Block) (pc q : Nat) : Nat := (b.places pc).countP (·.encloses q)

variable {pc q : Nat}

/-- The blocks of a tree stand inside its stream, each with its `else` between its `if` and its
`end`. -/
theorem places_bounds (b : Block) (pc : Nat) : ∀ p ∈ b.places pc, pc ≤ p.ifAt ∧ p.ifAt < p.endAt ∧
    p.endAt < pc + b.stream.length ∧ ∀ m, p.elseAt = some m → p.ifAt < m ∧ m < p.endAt := by
  induction b generalizing pc with
  | done => exact List.forall_mem_nil _
  | plain i h rest ih =>
    intro p hp
    have := ih (pc + 1) p hp
    rw [stream, List.length_cons]
    grind
  | ifEnd s yes e rest ihy ihr =>
    simp only [places, List.mem_append, List.mem_cons, stream, List.length_cons,
      List.length_append]
    rintro p (hp | rfl | hp)
    · have := ihr _ p hp
      grind
    · grind
    · have := ihy _ p hp
      grind
  | ifElse s yes m no e rest ihy ihn ihr =>
    simp only [places, List.mem_append, List.mem_cons, stream, List.length_cons,
      List.length_append]
    rintro p (hp | rfl | hp | hp)
    · have := ihr _ p hp
      grind
    · grind
    · have := ihn _ p hp
      grind
    · have := ihy _ p hp
      grind

/-- No block of a tree is around a position outside its stream. -/
theorem depthAt_outside (b : Block) (h : q < pc ∨ pc + b.stream.length ≤ q) :
    b.depthAt pc q = 0 := by
  rw [depthAt, List.countP_eq_zero]
  intro p hp henc
  have := b.places_bounds pc p hp
  rw [BlockPlace.encloses] at henc
  grind

/-- No block is around the first position of a tree. -/
theorem depthAt_first (b : Block) (pc : Nat) : b.depthAt pc pc = 0 := by
  rw [depthAt, List.countP_eq_zero]
  intro p hp henc
  have := b.places_bounds pc p hp
  rw [BlockPlace.encloses] at henc
  grind

section

variable (s m e : Span) (yes no rest : Block)

/-- Around a position there are the blocks behind one without `else`, those in it, and that block
itself if the position is between its marks. -/
theorem depthAt_ifEnd : (ifEnd s yes e rest).depthAt pc q =
    rest.depthAt (pc + 1 + yes.stream.length + 1) q +
      (yes.depthAt (pc + 1) q + if pc < q ∧ q < pc + 1 + yes.stream.length then 1 else 0) := by
  rw [depthAt, places, List.countP_append, List.countP_cons]
  simp [BlockPlace.encloses, depthAt]

/-- Around a position there are the blocks behind one with `else`, those in both parts of it, and
that block itself if the position is between its marks, but not at the `else`. -/
theorem depthAt_ifElse : (ifElse s yes m no e rest).depthAt pc q =
    rest.depthAt (pc + 1 + yes.stream.length + 1 + no.stream.length + 1) q +
      (no.depthAt (pc + 1 + yes.stream.length + 1) q + yes.depthAt (pc + 1) q +
        if pc < q ∧ q < pc + 1 + yes.stream.length + 1 + no.stream.length ∧
          pc + 1 + yes.stream.length ≠ q then 1 else 0) := by
  rw [depthAt, places, List.countP_append, List.countP_cons, List.countP_append]
  simp [BlockPlace.encloses, depthAt, and_assoc]

/-- The depth inside a block without `else`, and behind it. -/
theorem depthAt_ifEnd_parts (pc : Nat) :
    (∀ q, pc + 1 ≤ q → q < pc + 1 + yes.stream.length →
      (ifEnd s yes e rest).depthAt pc q = yes.depthAt (pc + 1) q + 1) ∧
    (ifEnd s yes e rest).depthAt pc (pc + 1 + yes.stream.length) = 0 ∧
    ∀ q, pc + 1 + yes.stream.length + 1 ≤ q → (ifEnd s yes e rest).depthAt pc q =
      rest.depthAt (pc + 1 + yes.stream.length + 1) q := by
  refine ⟨fun q hlow hhigh => ?_, ?_, fun q hlow => ?_⟩
  · rw [depthAt_ifEnd, rest.depthAt_outside (by omega), if_pos (by omega), Nat.zero_add]
  · rw [depthAt_ifEnd, rest.depthAt_outside (by omega), yes.depthAt_outside (by omega),
      if_neg (by omega)]
  · rw [depthAt_ifEnd, yes.depthAt_outside (by omega), if_neg (by omega), Nat.add_zero,
      Nat.add_zero]

/-- The depth inside a block with `else`, and behind it. -/
theorem depthAt_ifElse_parts (pc : Nat) :
    (∀ q, pc + 1 ≤ q → q < pc + 1 + yes.stream.length →
      (ifElse s yes m no e rest).depthAt pc q = yes.depthAt (pc + 1) q + 1) ∧
    (ifElse s yes m no e rest).depthAt pc (pc + 1 + yes.stream.length) = 0 ∧
    (∀ q, pc + 1 + yes.stream.length + 1 ≤ q →
      q < pc + 1 + yes.stream.length + 1 + no.stream.length →
      (ifElse s yes m no e rest).depthAt pc q =
        no.depthAt (pc + 1 + yes.stream.length + 1) q + 1) ∧
    (ifElse s yes m no e rest).depthAt pc
      (pc + 1 + yes.stream.length + 1 + no.stream.length) = 0 ∧
    ∀ q, pc + 1 + yes.stream.length + 1 + no.stream.length + 1 ≤ q →
      (ifElse s yes m no e rest).depthAt pc q =
        rest.depthAt (pc + 1 + yes.stream.length + 1 + no.stream.length + 1) q := by
  refine ⟨fun q hlow hhigh => ?_, ?_, fun q hlow hhigh => ?_, ?_, fun q hlow => ?_⟩
  · rw [depthAt_ifElse, rest.depthAt_outside (by omega), no.depthAt_outside (by omega),
      if_pos (by omega)]
    omega
  · rw [depthAt_ifElse, rest.depthAt_outside (by omega), no.depthAt_outside (by omega),
      yes.depthAt_outside (by omega), if_neg (by omega)]
  · rw [depthAt_ifElse, rest.depthAt_outside (by omega), yes.depthAt_outside (by omega),
      if_pos (by omega)]
    omega
  · rw [depthAt_ifElse, rest.depthAt_outside (by omega), no.depthAt_outside (by omega),
      yes.depthAt_outside (by omega), if_neg (by omega)]
  · rw [depthAt_ifElse, no.depthAt_outside (by omega), yes.depthAt_outside (by omega),
      if_neg (by omega)]
    omega

end

/-- A block of a part is aligned in the whole if the whole only shifts the depths of the part. -/
theorem aligned_shift {depth depth' : Nat → Nat} {low high shift : Nat} {p : BlockPlace}
    (h : p.Aligned depth) (hdepth : ∀ q, low ≤ q → q < high → depth' q = depth q + shift)
    (hp : low ≤ p.ifAt ∧ p.ifAt < p.endAt ∧ p.endAt < high ∧
      ∀ m, p.elseAt = some m → p.ifAt < m ∧ m < p.endAt) : p.Aligned depth' := by
  obtain ⟨hend, helse, hinside⟩ := h
  obtain ⟨hlow, hlt, hhigh, hmiddle⟩ := hp
  refine ⟨?_, fun m hm => ?_, fun q hq => ?_⟩
  · rw [hdepth _ (by omega) hhigh, hdepth _ hlow (by omega), hend]
  · have := hmiddle m hm
    rw [hdepth _ (by omega) (by omega), hdepth _ hlow (by omega), helse m hm]
  · have hrange : p.ifAt < q ∧ q < p.endAt := by
      rw [BlockPlace.encloses] at hq
      grind
    have := hinside q hq
    rw [hdepth q (by omega) (by omega), hdepth p.ifAt hlow (by omega)]
    omega

/-- Every block of a tree is aligned. -/
theorem places_aligned (b : Block) (pc : Nat) : ∀ p ∈ b.places pc, p.Aligned (b.depthAt pc) := by
  induction b generalizing pc with
  | done => exact List.forall_mem_nil _
  | plain i h rest ih => exact ih (pc + 1)
  | ifEnd s yes e rest ihy ihr =>
    obtain ⟨hyes, hend, hrest⟩ := depthAt_ifEnd_parts s e yes rest pc
    intro p hp
    rcases List.mem_append.1 hp with hp | hp
    · exact aligned_shift (ihr _ p hp)
        (fun q hlow _ => (hrest q hlow).trans (Nat.add_zero _).symm) (rest.places_bounds _ p hp)
    rcases List.mem_cons.1 hp with rfl | hp
    · refine ⟨hend.trans (depthAt_first ..).symm, nofun, fun q hq => ?_⟩
      rw [BlockPlace.encloses] at hq
      rw [depthAt_first, hyes q (by grind) (by grind)]
      omega
    · exact aligned_shift (ihy _ p hp) hyes (yes.places_bounds _ p hp)
  | ifElse s yes m no e rest ihy ihn ihr =>
    obtain ⟨hyes, helse, hno, hend, hrest⟩ := depthAt_ifElse_parts s m e yes no rest pc
    intro p hp
    rcases List.mem_append.1 hp with hp | hp
    · exact aligned_shift (ihr _ p hp)
        (fun q hlow _ => (hrest q hlow).trans (Nat.add_zero _).symm) (rest.places_bounds _ p hp)
    rcases List.mem_cons.1 hp with rfl | hp
    · refine ⟨hend.trans (depthAt_first ..).symm, fun m hm => ?_, fun q hq => ?_⟩
      · obtain rfl := Option.some.inj hm
        exact helse.trans (depthAt_first ..).symm
      · rw [BlockPlace.encloses] at hq
        rw [depthAt_first]
        rcases Nat.lt_trichotomy q (pc + 1 + yes.stream.length) with hlt | heq | hgt
        · rw [hyes q (by grind) hlt]
          omega
        · exact absurd heq.symm (by grind)
        · rw [hno q (by omega) (by grind)]
          omega
    rcases List.mem_append.1 hp with hp | hp
    · exact aligned_shift (ihn _ p hp) hno (no.places_bounds _ p hp)
    · exact aligned_shift (ihy _ p hp) hyes (yes.places_bounds _ p hp)

/-- The marks of the blocks of a tree are the delimiters of its stream, each once. -/
theorem perm_marks (b : Block) (pc : Nat) :
    ((b.places pc).flatMap BlockPlace.marks).Perm (b.stream.delimiters pc) := by
  induction b generalizing pc with
  | done => exact .refl _
  | plain i h rest ih =>
    rw [stream, delimiters_cons, h]
    exact ih (pc + 1)
  | ifEnd s yes e rest ihy ihr =>
    rw [List.perm_iff_count]
    intro mark
    have hyes := (ihy (pc + 1)).count_eq mark
    have hrest := (ihr (pc + 1 + yes.stream.length + 1)).count_eq mark
    simp only [places, stream, delimiters_cons, delimiters_append, BlockPlace.marks, Op.isJump,
      List.flatMap_append, List.flatMap_cons, List.count_append, List.count_cons, List.count_nil,
      hyes, hrest, if_true, Option.toList_none, List.map_nil]
    omega
  | ifElse s yes m no e rest ihy ihn ihr =>
    rw [List.perm_iff_count]
    intro mark
    have hyes := (ihy (pc + 1)).count_eq mark
    have hno := (ihn (pc + 1 + yes.stream.length + 1)).count_eq mark
    have hrest := (ihr (pc + 1 + yes.stream.length + 1 + no.stream.length + 1)).count_eq mark
    simp only [places, stream, delimiters_cons, delimiters_append, BlockPlace.marks, Op.isJump,
      List.flatMap_append, List.flatMap_cons, List.count_append, List.count_cons, List.count_nil,
      hyes, hno, hrest, if_true, Option.toList_some, List.map_cons, List.map_nil]
    omega

/-- The block of an `if` whose jump leads to no `else`. -/
theorem placeFrom_ifEnd {code : Stream} {jumps : Jumps} {ifAt endAt : Nat} {s e : Span}
    (hif : code[ifAt]? = some ⟨.ifTrue, s⟩) (hend : code[endAt]? = some ⟨.endIf, e⟩) :
    jumps.placeFrom code (ifAt, endAt) = some ⟨ifAt, none, endAt⟩ := by
  simp [Jumps.placeFrom, hif, hend]

/-- The block of an `if` whose jump leads to an `else`. -/
theorem placeFrom_ifElse {code : Stream} {jumps : Jumps} {ifAt elseAt endAt : Nat} {s m : Span}
    (hif : code[ifAt]? = some ⟨.ifTrue, s⟩) (helse : code[elseAt]? = some ⟨.orElse, m⟩)
    (hjump : Machine.target jumps elseAt = endAt) :
    jumps.placeFrom code (ifAt, elseAt) = some ⟨ifAt, some elseAt, endAt⟩ := by
  simp [Jumps.placeFrom, hif, helse, hjump]

/-- No block begins at an `else`. -/
theorem placeFrom_orElse {code : Stream} {jumps : Jumps} {elseAt endAt : Nat} {m : Span}
    (helse : code[elseAt]? = some ⟨.orElse, m⟩) :
    jumps.placeFrom code (elseAt, endAt) = none := by
  simp [Jumps.placeFrom, helse]

/-- The blocks that the jumps of the stream of a tree match are those of the tree, wherever the
stream stands in another one. -/
theorem blocks_stream {code : Stream} {jumps : Jumps} (b : Block) (pc : Nat)
    (hcode : b.stream.StandsIn code pc) (hjumps : jumps.Resolves (jumpsAt pc b.stream)) :
    (jumpsAt pc b.stream).filterMap (jumps.placeFrom code) = b.places pc := by
  induction b generalizing pc with
  | done => rfl
  | plain i h rest ih =>
    rw [stream, jumpsAt_op h] at *
    exact ih _ (standsIn_cons.1 hcode).2 hjumps
  | ifEnd s yes e rest ihy ihr =>
    rw [stream, jumpsAt_ifEnd yes.balanced rest.balanced] at *
    obtain ⟨hif, hcode⟩ := standsIn_cons.1 hcode
    obtain ⟨hyes, hcode⟩ := standsIn_append.1 hcode
    obtain ⟨hend, hrest⟩ := standsIn_cons.1 hcode
    rw [List.filterMap_append, List.filterMap_cons, placeFrom_ifEnd hif hend,
      ihy _ hyes hjumps.right.tail, ihr _ hrest hjumps.left, places]
  | ifElse s yes m no e rest ihy ihn ihr =>
    rw [stream, jumpsAt_ifElse yes.balanced no.balanced rest.balanced] at *
    obtain ⟨hif, hcode⟩ := standsIn_cons.1 hcode
    obtain ⟨hyes, hcode⟩ := standsIn_append.1 hcode
    obtain ⟨helse, hcode⟩ := standsIn_cons.1 hcode
    obtain ⟨hno, hcode⟩ := standsIn_append.1 hcode
    have hrest := (standsIn_cons.1 hcode).2
    have hinner := hjumps.right.tail.tail
    rw [List.filterMap_append, List.filterMap_cons, List.filterMap_cons, List.filterMap_append,
      placeFrom_ifElse hif helse hjumps.right.tail.target, placeFrom_orElse helse,
      ihy _ hyes hinner.right, ihn _ hno hinner.left, ihr _ hrest hjumps.left, places]

end Block

/-! ## The entries of a listing -/

/-- The entries of instructions from position `pc` on, when the depth at each position is known. -/
def Stream.listed (depth : Nat → Nat) (pc : Nat) (code : Stream) : List Listing.Entry :=
  code.mapIdx fun k i => ⟨pc + k, depth (pc + k), i.op⟩

section

variable {depth : Nat → Nat} {pc : Nat}

/-- An instruction in front has its entry in front. -/
theorem listed_cons (i : Instruction) (rest : Stream) : Stream.listed depth pc (i :: rest) =
    ⟨pc, depth pc, i.op⟩ :: Stream.listed depth (pc + 1) rest := by
  simp [Stream.listed, List.mapIdx_cons, Nat.add_assoc, Nat.add_comm 1]

/-- The entries of two streams in a row are those of the first one, and those of the second one
behind it. -/
theorem listed_append (a b : Stream) : Stream.listed depth pc (a ++ b) =
    Stream.listed depth pc a ++ Stream.listed depth (pc + a.length) b := by
  simp [Stream.listed, List.mapIdx_append, Nat.add_assoc, Nat.add_comm a.length]

end

/-- An instruction that delimits no block is listed at the depth of the counter. -/
theorem entriesFrom_op {i : Instruction} (h : i.op.isJump = false) (pc d : Nat) (rest : Stream) :
    Stream.entriesFrom pc d (i :: rest) = ⟨pc, d, i.op⟩ :: Stream.entriesFrom (pc + 1) d rest := by
  obtain ⟨op, s⟩ := i
  cases op <;> first | rfl | simp [Op.isJump] at h

/-- In front of other code the stream of a tree is listed at the depths of its positions, and leaves
the counter as it was. -/
theorem Block.entriesFrom_stream {depth : Nat → Nat} (b : Block) (pc d : Nat) (more : Stream)
    (hdepth : ∀ q, pc ≤ q → q < pc + b.stream.length → depth q = d + b.depthAt pc q) :
    Stream.entriesFrom pc d (b.stream ++ more) =
      b.stream.listed depth pc ++ Stream.entriesFrom (pc + b.stream.length) d more := by
  -- behind every part of the tree the counter is back at `d`, whatever code there is
  induction b generalizing pc d more with
  | done => rfl
  | plain i h rest ih =>
    rw [stream, List.length_cons] at hdepth
    have hfirst : depth pc = d := by
      rw [hdepth pc (Nat.le_refl _) (by omega), depthAt_first, Nat.add_zero]
    have hrest := ih (pc + 1) d more fun q hlow hhigh => hdepth q (by omega) (by omega)
    have hlength : pc + (rest.stream.length + 1) = pc + 1 + rest.stream.length := by omega
    simp only [stream, List.cons_append, entriesFrom_op h, listed_cons, List.length_cons, hfirst,
      hrest, hlength]
  | ifEnd s yes e rest ihy ihr =>
    obtain ⟨hyes, hend, hbehind⟩ := depthAt_ifEnd_parts s e yes rest pc
    simp only [stream, List.length_cons, List.length_append] at hdepth
    have hopen : depth pc = d := by
      rw [hdepth pc (Nat.le_refl _) (by omega), depthAt_first, Nat.add_zero]
    have hclose : depth (pc + 1 + yes.stream.length) = d := by
      rw [hdepth _ (by omega) (by omega), hend, Nat.add_zero]
    have hpart := ihy (pc + 1) (d + 1) (⟨.endIf, e⟩ :: (rest.stream ++ more))
      fun q hlow hhigh => by
        rw [hdepth q (by omega) (by omega), hyes q hlow hhigh]
        omega
    have hrest := ihr (pc + 1 + yes.stream.length + 1) d more fun q hlow hhigh => by
      rw [hdepth q (by omega) (by omega), hbehind q hlow]
    have hlength : pc + (yes.stream.length + (rest.stream.length + 1) + 1) =
        pc + 1 + yes.stream.length + 1 + rest.stream.length := by omega
    simp only [stream, List.cons_append, List.append_assoc, Stream.entriesFrom, listed_cons,
      listed_append, List.length_cons, List.length_append, Nat.add_sub_cancel, hpart, hrest, hopen,
      hclose, hlength]
  | ifElse s yes m no e rest ihy ihn ihr =>
    obtain ⟨hyes, helse, hno, hend, hbehind⟩ := depthAt_ifElse_parts s m e yes no rest pc
    simp only [stream, List.length_cons, List.length_append] at hdepth
    have hopen : depth pc = d := by
      rw [hdepth pc (Nat.le_refl _) (by omega), depthAt_first, Nat.add_zero]
    have hmiddle : depth (pc + 1 + yes.stream.length) = d := by
      rw [hdepth _ (by omega) (by omega), helse, Nat.add_zero]
    have hclose : depth (pc + 1 + yes.stream.length + 1 + no.stream.length) = d := by
      rw [hdepth _ (by omega) (by omega), hend, Nat.add_zero]
    have htrue := ihy (pc + 1) (d + 1)
      (⟨.orElse, m⟩ :: (no.stream ++ ⟨.endIf, e⟩ :: (rest.stream ++ more))) fun q hlow hhigh => by
        rw [hdepth q (by omega) (by omega), hyes q hlow hhigh]
        omega
    have hfalse := ihn (pc + 1 + yes.stream.length + 1) (d + 1)
      (⟨.endIf, e⟩ :: (rest.stream ++ more)) fun q hlow hhigh => by
        rw [hdepth q (by omega) (by omega), hno q hlow hhigh]
        omega
    have hrest := ihr (pc + 1 + yes.stream.length + 1 + no.stream.length + 1) d more
      fun q hlow hhigh => by rw [hdepth q (by omega) (by omega), hbehind q hlow]
    have hlength :
        pc + (yes.stream.length + (no.stream.length + (rest.stream.length + 1) + 1) + 1) =
          pc + 1 + yes.stream.length + 1 + no.stream.length + 1 + rest.stream.length := by omega
    simp only [stream, List.cons_append, List.append_assoc, Stream.entriesFrom, listed_cons,
      listed_append, List.length_cons, List.length_append, Nat.add_sub_cancel, htrue, hfalse, hrest,
      hopen, hmiddle, hclose, hlength]

/-! ## Listings of streams -/

/-- A listing shows the blocks that some jumps match: their marks are the `if`, `else` and `end` of
the stream. -/
structure Stream.ShowsBlocks (code : Stream) (jumps : Jumps) : Prop where
  marks : ((jumps.blocks code).flatMap BlockPlace.marks).Perm (code.delimiters 0)
  /-- An instruction has one entry, indented by the number of the blocks around it. -/
  entries : code.entries = code.mapIdx fun pc i => ⟨pc, jumps.depthAt code pc, i.op⟩
  /-- A line is the index in four columns, two spaces a block, and the operation. -/
  lines : code.listing = String.join (code.mapIdx fun pc i =>
    "".pushn ' ' (4 - (toString pc).length) ++ toString pc ++ " " ++
      "".pushn ' ' (2 * jumps.depthAt code pc) ++ i.op.text ++ "\n")
  aligned : ∀ b ∈ jumps.blocks code, b.Aligned (jumps.depthAt code)
  /-- Whatever follows begins at depth 0. -/
  closed : ∀ more : Stream,
    Stream.entries (code ++ more) = code.entries ++ Stream.entriesFrom code.length 0 more

/-- The listing of a stream with jumps shows the blocks that these match. -/
theorem showsBlocks_of_jumps {code : Stream} {jumps : Jumps} (h : code.jumps = .ok jumps) :
    code.ShowsBlocks jumps := by
  obtain ⟨b, rfl⟩ := jumps_ok_iff.1 ⟨jumps, h⟩
  obtain rfl : jumpsAt 0 b.stream = jumps := Except.ok.inj (b.balanced.jumps.symm.trans h)
  have hblocks : (jumpsAt 0 b.stream).blocks b.stream = b.places 0 :=
    b.blocks_stream 0 (fun k i hk => by rwa [Nat.zero_add]) (b.balanced.resolves 0)
  have hdepth : (jumpsAt 0 b.stream).depthAt b.stream = b.depthAt 0 := by
    funext pc
    rw [Jumps.depthAt, hblocks, Block.depthAt]
  have hentries : ∀ more : Stream, Stream.entries (b.stream ++ more) =
      b.stream.listed (b.depthAt 0) 0 ++ Stream.entriesFrom b.stream.length 0 more := fun more => by
    rw [Stream.entries, b.entriesFrom_stream 0 0 more fun q _ _ => (Nat.zero_add _).symm,
      Nat.zero_add]
  have hcode : b.stream.entries = b.stream.listed (b.depthAt 0) 0 := by
    simpa [Stream.entriesFrom] using hentries []
  refine ⟨hblocks ▸ b.perm_marks 0, ?_, ?_, hblocks ▸ hdepth ▸ b.places_aligned 0,
    fun more => hcode ▸ hentries more⟩
  · rw [hcode, hdepth]
    simp only [Stream.listed, Nat.zero_add]
  · rw [Stream.listing, hcode, hdepth]
    simp only [Stream.listed, Nat.zero_add, List.mapIdx_eq_zipIdx_map, List.map_map]
    rfl

/-- **Listings.** The listing of a stream whose blocks are sound shows the blocks as the machine
matches them, also after the stream was encoded and decoded. The blocks of all streams that are
compiled are sound. -/
theorem blocks_listed :
    (∀ (code : Stream) (jumps : Jumps), code.jumps = .ok jumps → code.ShowsBlocks jumps ∧
      ((∀ i ∈ code, i.InMemory) → ∃ decoded, Stream.decode code.encode = .ok decoded ∧
        decoded.jumps = .ok jumps ∧ decoded.ShowsBlocks jumps)) ∧
    (∀ list localOnly code, ParamList.compile? list localOnly = .ok code →
      ∃ jumps, code.jumps = .ok jumps) ∧
    ∀ (list : TargetList) code, list.compile = .ok code → ∃ jumps, code.jumps = .ok jumps := by
  refine ⟨fun code jumps h => ⟨showsBlocks_of_jumps h, fun hcode => ⟨code, ?_, h,
    showsBlocks_of_jumps h⟩⟩, fun list localOnly code h => ?_, fun list code h => ?_⟩
  · have hdecodes := Decodes.encode_append (fun i hi => (hcode i hi).fits) .nil
    rw [List.append_nil, List.append_nil] at hdecodes
    exact decode_iff.2 hdecodes
  · exact ⟨_, (compile_params_typed h).balanced.jumps⟩
  · exact ⟨_, (compile_targets_typed h).balanced.jumps⟩

/-- An optional parameter is compiled to a block with `else`, whose parts are listed one step deeper
than the rest. -/
theorem optional_listed : ∃ code jumps,
    ParamList.compile? (some ⟨[.optional "b" (.int 2) {}], {}⟩) true = .ok code ∧
      code.jumps = .ok jumps ∧ jumps.blocks code = [⟨1, some 3, 5⟩] ∧ code.ShowsBlocks jumps ∧
      code.entries.map Listing.Entry.depth = [0, 0, 1, 0, 1, 0, 0, 0] := by
  have hcompile : ParamList.compile? (some ⟨[.optional "b" (.int 2) {}], {}⟩) true =
      .ok [⟨.arrayIsEmpty, {}⟩, ⟨.ifTrue, {}⟩, ⟨.pushInt 2, {}⟩, ⟨.orElse, {}⟩, ⟨.arrayShift, {}⟩,
        ⟨.endIf, {}⟩, ⟨.localSet "b" true, {}⟩, ⟨.pop, {}⟩] := by
    cbv
  exact ⟨_, [(1, 3), (3, 5)], hcompile, rfl, rfl, (blocks_listed.1 _ _ rfl).1, rfl⟩

end Formals
