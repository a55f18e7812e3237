import Formals.Proofs.Calls
import Formals.Proofs.Runs

/-!
# The law of binding

Binding gives every parameter the share that is due to it (`Level.share`), on the outermost level
and in the groups (`compiled_binding`).
-/

namespace Formals

open Machine

/-! ## Staging once -/

/-- The steps of a level stage one keyword hash: from a state with a hand on, and between them. -/
structure StagedOnce (s : LevelState) (hand : Hand) (steps : List (LevelState × Param)) : Prop where
  held : s.keywordsStaged → hand.keywords.isSome
  later : ∀ step ∈ steps, step.2.isKeyword → hand.keywords.isSome → step.1.keywordsStaged
  once : steps.Pairwise fun a b => a.2.isKeyword → b.2.isKeyword → b.1.keywordsStaged

/-- The keyword hash lies on the stack behind those that take from it, and only there. -/
theorem Param.staged_after (s : LevelState) (p : Param) :
    (s.after p.part).keywordsStaged = p.isKeyword := by
  cases p <;> rfl

/-- Only those that take from the keyword hash take it out of the hand. -/
theorem Hand.isSome_after {h : Heap} {hand : Hand} {side : Side} {p : Param} :
    (hand.after h side p).keywords.isSome = (p.isKeyword || hand.keywords.isSome) := by
  cases p with
  | keywordRest name span =>
    show (hand.opened h).keywords.isSome = true
    rw [Hand.keywords_opened]
    rfl
  | _ => rfl

/-- A keyword hash that is taken out stays out, whoever has a turn. -/
theorem Hand.isSome_finish {h : Heap} {hand : Hand} {turns : List (Side × Param)}
    (hs : hand.keywords.isSome) : (hand.finish h turns).keywords.isSome := by
  induction turns generalizing hand with
  | nil => exact hs
  | cons turn turns ih =>
    refine ih ?_
    rw [Hand.isSome_after, hs, Bool.or_true]

/-- The keyword hash is out of the hand once a parameter that takes from it had its turn. -/
theorem Hand.isSome_finish_of_keyword {h : Heap} {hand : Hand} {turns : List (Side × Param)}
    {turn : Side × Param} (hturn : turn ∈ turns) (hk : turn.2.isKeyword = true) :
    (hand.finish h turns).keywords.isSome := by
  obtain ⟨side, p⟩ := turn
  obtain ⟨front, back, rfl⟩ := List.append_of_mem hturn
  rw [Hand.finish_append, Hand.finish]
  refine Hand.isSome_finish ?_
  rw [Hand.isSome_after, hk, Bool.true_or]

namespace StagedOnce

variable {s s' final : LevelState} {hand : Hand} {p : Param} {steps : List (LevelState × Param)}

/-- A step finds the keyword hash staged if it was taken out of the hand before. -/
theorem head (hs : StagedOnce s hand ((s', p) :: steps))
    (hl : Plan.Linked Param.part s ((s', p) :: steps) final) (hp : p.isKeyword = true) :
    s'.keywordsStaged = hand.keywords.isSome := by
  obtain ⟨⟨side, rfl⟩, -⟩ := hl
  rw [Bool.eq_iff_iff]
  exact ⟨hs.held, hs.later _ List.mem_cons_self hp⟩

/-- Behind a step. -/
theorem tail (hs : StagedOnce s hand ((s', p) :: steps)) (h : Heap) (side : Side) :
    StagedOnce (s'.after p.part) (hand.after h side p) steps where
  held hstaged := by
    rw [Param.staged_after] at hstaged
    rw [Hand.isSome_after, hstaged]
    rfl
  later step hmem hk hsome := by
    rw [Hand.isSome_after, Bool.or_eq_true] at hsome
    rcases hsome with hp | hsome
    · exact (List.pairwise_cons.1 hs.once).1 step hmem hp hk
    · exact hs.later step (List.mem_cons_of_mem _ hmem) hk hsome
  once := (List.pairwise_cons.1 hs.once).2

end StagedOnce

/-- Among steps that all take from the keyword hash it stays staged, and among steps none of which
does it is never staged. -/
theorem Plan.Linked.staged {s final : LevelState} {steps : List (LevelState × Param)} {b : Bool}
    (hl : Plan.Linked Param.part s steps final) (hs : s.keywordsStaged = b)
    (hk : ∀ step ∈ steps, step.2.isKeyword = b) :
    (∀ step ∈ steps, step.1.keywordsStaged = b) ∧ final.keywordsStaged = b :=
  hl.kept (·.keywordsStaged = b) (fun _ _ h => h)
    (fun step hmem s _ => (Param.staged_after s step.2).trans (hk step hmem)) hs

/-- Steps in two parts follow one another in each. -/
theorem Plan.Linked.append {α : Type} {part : α → Part} {s final : LevelState}
    {a b : List (LevelState × α)} (hl : Plan.Linked part s (a ++ b) final) :
    ∃ mid, Plan.Linked part s a mid ∧ Plan.Linked part mid b final := by
  induction a generalizing s with
  | nil => exact ⟨s, ⟨s.side, rfl⟩, hl⟩
  | cons step a ih =>
    obtain ⟨hside, hl⟩ := hl
    obtain ⟨mid, ha, hb⟩ := ih hl
    exact ⟨mid, ⟨hside, ha⟩, hb⟩

/-- Steps of which only those that stand together take from the keyword hash stage it once. -/
theorem pairwise_staged {s final : LevelState} {a b c : List (LevelState × Param)}
    (hl : Plan.Linked Param.part s (a ++ (b ++ c)) final)
    (ha : ∀ step ∈ a, step.2.isKeyword = false) (hb : ∀ step ∈ b, step.2.isKeyword = true)
    (hc : ∀ step ∈ c, step.2.isKeyword = false) :
    (a ++ (b ++ c)).Pairwise fun x y =>
      x.2.isKeyword → y.2.isKeyword → y.1.keywordsStaged := by
  obtain ⟨mid, -, hl⟩ := hl.append
  obtain ⟨mid', hl, -⟩ := hl.append
  have hfrom : ∀ {x y : LevelState × Param}, x.2.isKeyword = false →
      x.2.isKeyword → y.2.isKeyword → y.1.keywordsStaged := fun hx hx' => by
    rw [hx] at hx'
    cases hx'
  have hto : ∀ {x y : LevelState × Param}, y.2.isKeyword = false →
      x.2.isKeyword → y.2.isKeyword → y.1.keywordsStaged := fun hy _ hy' => by
    rw [hy] at hy'
    cases hy'
  have hstaged : b.Pairwise fun x y => x.2.isKeyword → y.2.isKeyword → y.1.keywordsStaged := by
    cases b with
    | nil => exact .nil
    | cons step b =>
      have hnext := (hl.2.staged ((Param.staged_after _ _).trans (hb step List.mem_cons_self))
        fun step h => hb step (List.mem_cons_of_mem _ h)).1
      refine List.pairwise_cons.2 ⟨fun y hy _ _ => hnext y hy, ?_⟩
      exact List.pairwise_of_forall_mem_list fun _ _ y hy _ _ => hnext y hy
  refine List.pairwise_append.2 ⟨?_, List.pairwise_append.2 ⟨hstaged, ?_, ?_⟩, ?_⟩
  · exact List.pairwise_of_forall_mem_list fun x hx _ _ => hfrom (ha x hx)
  · exact List.pairwise_of_forall_mem_list fun x hx _ _ => hfrom (hc x hx)
  · exact fun _ _ y hy => hto (hc y hy)
  · exact fun x hx _ _ => hfrom (ha x hx)

/-- The steps of a level that take from the keyword hash stand together. -/
theorem Shape.exists_keyed {ps : List Param} (s : Shape Param.part ps) : ∃ a b c,
    (Plan.ofList Param.part ps).steps = a ++ (b ++ c) ∧ (∀ step ∈ a, step.2.isKeyword = false) ∧
      (∀ step ∈ b, step.2.isKeyword = true) ∧ ∀ step ∈ c, step.2.isKeyword = false := by
  obtain ⟨st⟩ := s.exists_stages
  have hturns := s.turns_eq.1.trans st.turns_eq
  rw [← List.append_assoc, Plan.turns] at hturns
  obtain ⟨a, bc, hsteps, ha, hbc⟩ := List.map_eq_append_iff.1 hturns
  obtain ⟨b, c, rfl, hb, hc⟩ := List.map_eq_append_iff.1 hbc
  have hmem : ∀ {steps : List (LevelState × Param)} {turns : List (Side × Param)},
      steps.map (fun step => (step.1.side, step.2)) = turns →
      ∀ step ∈ steps, step.2 ∈ turns.map Prod.snd := fun h step hstep => by
    rw [← h, List.map_map]
    exact List.mem_map_of_mem hstep
  have hrest : ∀ p ∈ (st.early ++ (st.midway ++ st.late)).map Prod.snd, p.isKeyword = false :=
    fun p hp => Param.isKeyword_eq_false (s.part_rest_toList p (st.rest_eq ▸ hp)) (by decide)
  simp only [List.map_append, List.mem_append] at hrest
  refine ⟨a, b, c, hsteps, fun step h => ?_, fun step h => ?_, fun step h => ?_⟩
  · have hin := hmem ha step h
    rw [List.map_append, snd_sided, List.mem_append] at hin
    rcases hin with hin | hin
    · exact Param.isKeyword_eq_false (s.part_leading _ hin) (by decide)
    · exact hrest _ (.inl hin)
  · have hin := hmem hb step h
    rw [snd_sided] at hin
    exact s.isKeyword_hashed _ (st.hashed_perm.mem_iff.1 hin)
  · have hin := hmem hc step h
    simp only [List.map_append, snd_sided, List.mem_append, List.mem_reverse] at hin
    rcases hin with hin | hin | hin | hin | hin
    · exact Param.isKeyword_eq_false (s.part_tail _ hin) (by decide)
    · exact hrest _ (.inr (.inl hin))
    · exact Param.isKeyword_eq_false (s.part_middle _ hin) (by decide)
    · exact Param.isKeyword_eq_false (s.part_optionals _ hin) (by decide)
    · exact hrest _ (.inr (.inr hin))

/-- The steps of a level stage one keyword hash. -/
theorem Shape.stagedOnce {ps : List Param} (s : Shape Param.part ps) (xs : List Value) :
    StagedOnce {} ⟨xs, none⟩ (Plan.ofList Param.part ps).steps := by
  refine ⟨nofun, fun _ _ _ => nofun, ?_⟩
  obtain ⟨a, b, c, hsteps, ha, hb, hc⟩ := s.exists_keyed
  have hl := Plan.linked_ofList Param.part ps
  rw [hsteps] at hl ⊢
  exact pairwise_staged hl ha hb hc

/-! ## Sound heaps -/

/-- A handle of an array or a hash has a cell. -/
def Value.Within (h : Heap) : Value → Prop
  | array a => a < h.arrays.size
  | hash b => b < h.hashes.size
  | _ => True

/-- No array has a handle without a cell, and no hash has a key twice. -/
structure Heap.Sound (h : Heap) : Prop where
  arrays : ∀ items ∈ h.arrays, ∀ v ∈ items, v.Within h
  hashes : ∀ entries ∈ h.hashes, entries.keys.Nodup

namespace Heap

variable {h h' : Heap}

/-- The elements of an array in a sound heap are values of the heap. -/
theorem Sound.arrayAt (hs : h.Sound) (a : Nat) : ∀ v ∈ h.arrayAt a, v.Within h := by
  unfold Heap.arrayAt
  rw [Array.getD_eq_getD_getElem?]
  cases ha : h.arrays[a]? with
  | none => exact fun v hv => by cases hv
  | some items => exact hs.arrays items (Array.mem_of_getElem? ha)

/-- A hash in a sound heap has no key twice. -/
theorem Sound.hashAt (hs : h.Sound) (b : Nat) : (h.hashAt b).keys.Nodup := by
  unfold Heap.hashAt
  rw [Array.getD_eq_getD_getElem?]
  cases hb : h.hashes[b]? with
  | none => exact .nil
  | some entries => exact hs.hashes entries (Array.mem_of_getElem? hb)

/-- The elements of a value stay the same. -/
theorem Grows.elements (g : h.Grows h') {v : Value} (hv : v.Within h) {items : List Value}
    (he : v.elements h' = .ok items) : v.elements h = .ok items := by
  cases v with
  | array a => rwa [Value.elements, g.arrayAt_eq a hv trivial] at he
  | nil => exact he
  | _ => cases he

/-- The keyword hash that is taken out of some values stays the same. -/
theorem Grows.stagedHash? (g : h.Grows h') {items : List Value} (hi : ∀ v ∈ items, v.Within h) :
    Machine.stagedHash? h' items = Machine.stagedHash? h items := by
  unfold Machine.stagedHash?
  cases hl : items.getLast? with
  | none => rfl
  | some v =>
    have hv := hi v (List.mem_of_getLast? hl)
    cases v with
    | hash b =>
      simp only [Value.isKeywordHash, g.hashAt_eq b hv trivial]
      rfl
    | _ => rfl

/-- The keyword hash that is taken out of some values has no key twice. -/
theorem Sound.stagedHash? (hs : h.Sound) {items : List Value} {entries : Entries Key Value}
    (he : Machine.stagedHash? h items = some entries) : entries.keys.Nodup := by
  unfold Machine.stagedHash? at he
  split at he
  · split at he
    · cases he
      exact hs.hashAt _
    · cases he
  · cases he

end Heap

/-- The values of the elements of a value. -/
theorem Value.within_elements {h : Heap} (hs : h.Sound) {v : Value} {items : List Value}
    (he : v.elements h = .ok items) : ∀ w ∈ items, w.Within h := by
  cases v with
  | array a =>
    cases he
    exact hs.arrayAt a
  | nil =>
    cases he
    exact fun w hw => by cases hw
  | _ => cases he

/-! ## A level in the middle of its run -/

/-- Whether a parameter looks into a value: the elements of an array or the keywords of a hash. -/
def Param.opens : Param → Bool
  | .group .. | .keyword .. | .keywordRest .. => true
  | _ => false

/-- A level in the middle of its run, with the steps that are left: it holds a hand, and nothing
from before the call has changed. -/
structure Running (h₀ : Heap) (base q : Nat) (steps : List (LevelState × Param)) (s : LevelState)
    (k : Nat) (hand : Hand) (t : Trail) : Prop where
  holds : Holds base q k hand t
  staged : StagedOnce s hand steps
  linked : ∃ final, Plan.Linked Param.part s steps final
  grows : h₀.Grows t.heap
  fresh : h₀.arrays.size ≤ q ∧ h₀.hashes.size ≤ base
  sound : (∃ step ∈ steps, step.2.opens) → h₀.Sound ∧ ∀ v ∈ hand.items, v.Within h₀

/-- A turn only takes values away. -/
theorem Hand.items_after_subset {h : Heap} {hand : Hand} {side : Side} {p : Param} :
    ∀ v ∈ (hand.after h side p).items, v ∈ hand.items := by
  have hothers : ∀ v ∈ side.others hand.items, v ∈ hand.items := fun v hv => by
    cases side with
    | left => exact List.mem_of_mem_tail hv
    | right => exact List.dropLast_subset _ hv
  have hopened : ∀ v ∈ (hand.opened h).items, v ∈ hand.items := fun v hv => by
    unfold Hand.opened at hv
    split at hv
    · exact hv
    · split at hv
      · exact List.dropLast_subset _ hv
      · exact hv
  cases p with
  | required | group | attr => exact hothers
  | optional => exact fun v hv => List.mem_of_mem_tail hv
  | rest => exact fun v hv => hv
  | keyword | keywordRest => exact hopened

/-- A hand only loses values. -/
theorem Hand.items_finish_subset {h : Heap} {hand : Hand} {turns : List (Side × Param)} :
    ∀ v ∈ (hand.finish h turns).items, v ∈ hand.items := by
  induction turns generalizing hand with
  | nil => exact fun v hv => hv
  | cons turn turns ih => exact fun v hv => Hand.items_after_subset v (ih v hv)

section

variable {h₀ : Heap} {base q : Nat} {steps : List (LevelState × Param)} {s s' : LevelState}
  {k k' : Nat} {hand : Hand} {t t' : Trail} {p : Param} {localOnly : Bool}

/-- **Steps.** The next step of a level does to the hand what is said of it, and the level runs
on. -/
theorem Running.step (hr : Running h₀ base q ((s', p) :: steps) s k hand t)
    (h : (p.task localOnly).run s' q k t = .ok k' t') :
    Running h₀ base q steps (s'.after p.part) k' (hand.after h₀ s'.side p) t' ∧
      (hand.keywords.isSome → k' = k) := by
  obtain ⟨final, hl⟩ := hr.linked
  have hkeyword : p.isKeyword = true → s'.keywordsStaged = hand.keywords.isSome :=
    hr.staged.head hl
  have hstage : p.isKeyword = true →
      stagedHash? t.heap hand.items = stagedHash? h₀ hand.items := fun hp => by
    refine hr.grows.stagedHash? (hr.sound ⟨_, List.mem_cons_self, ?_⟩).2
    cases p <;> first | rfl | cases hp
  obtain ⟨hholds, hk⟩ := Param.task_holds p hr.holds h hkeyword hstage
  obtain ⟨hframed, -⟩ := Param.task_frames localOnly p h
  obtain ⟨⟨side, rfl⟩, hlinked⟩ := hl
  refine ⟨⟨hholds, hr.staged.tail h₀ _, ⟨final, hlinked⟩, ?_, hr.fresh, ?_⟩, hk⟩
  · refine hr.grows.comp hframed.heap (fun a hlt _ => ?_) (fun b hlt _ hstaged => ?_)
    · exact Nat.ne_of_lt (Nat.lt_of_lt_of_le hlt hr.fresh.1)
    · obtain ⟨entries, he⟩ := Option.isSome_iff_exists.1 (hr.staged.held hstaged)
      have := (hr.holds.keywords entries he).1
      have := hr.fresh.2
      omega
  · rintro ⟨step, hmem, hopens⟩
    obtain ⟨hsound, hwithin⟩ := hr.sound ⟨step, List.mem_cons_of_mem _ hmem, hopens⟩
    exact ⟨hsound, fun v hv => hwithin v (Hand.items_after_subset v hv)⟩

/-- A parameter that takes from the keyword hash finds there what is left in the hand. -/
theorem Running.hashAt_opened {k₁ : Nat} {t₁ : Trail}
    (hr : Running h₀ base q ((s', p) :: steps) s k hand t) (hk : p.isKeyword = true)
    (he : Act.ensureStaged s' q k t = .ok k₁ t₁) :
    t₁.heap.hashAt k₁ = (hand.opened h₀).entries := by
  obtain ⟨_, hl⟩ := hr.linked
  have hopens : p.opens = true := by cases p <;> first | rfl | cases hk
  have hsame := hr.grows.stagedHash? (hr.sound ⟨_, List.mem_cons_self, hopens⟩).2
  have hholds := (hr.holds.ensureStaged he (hr.staged.head hl hk) hsame).1
  exact (hholds.keywords _ Hand.keywords_opened).2.2

/-- The turns of some steps. -/
def turnsOf (steps : List (LevelState × Param)) : List (Side × Param) :=
  steps.map fun step => (step.1.side, step.2)

/-- The turns of some steps are those of their parameters. -/
theorem snd_turnsOf (steps : List (LevelState × Param)) :
    (turnsOf steps).map Prod.snd = steps.map Prod.snd := by
  rw [turnsOf, List.map_map]
  rfl

/-- The run of some steps of a level, up to those that are left. -/
theorem Running.run {rest : List (LevelState × Param)}
    (hr : Running h₀ base q (steps ++ rest) s k hand t)
    (h : Act.steps q (stepTasks localOnly steps) k t = .ok k' t') :
    ∃ s₁, Running h₀ base q rest s₁ k' (hand.finish h₀ (turnsOf steps)) t' ∧
      (hand.keywords.isSome → k' = k) := by
  induction steps generalizing s k hand t with
  | nil =>
    cases h
    exact ⟨s, hr, fun _ => rfl⟩
  | cons step steps ih =>
    obtain ⟨s', p⟩ := step
    obtain ⟨k₁, t₁, hfirst, hrest⟩ := steps_cons_ok h
    obtain ⟨hr₁, hk₁⟩ := hr.step hfirst
    obtain ⟨s₁, hr₂, hk⟩ := ih hr₁ hrest
    refine ⟨s₁, hr₂, fun hsome => (hk ?_).trans (hk₁ hsome)⟩
    rw [Hand.isSome_after, hsome, Bool.or_true]

/-- The run of all steps of a level. -/
theorem Running.finish (hr : Running h₀ base q steps s k hand t)
    (h : Act.steps q (stepTasks localOnly steps) k t = .ok k' t') :
    Holds base q k' (hand.finish h₀ (turnsOf steps)) t' ∧ (hand.keywords.isSome → k' = k) := by
  rw [← List.append_nil steps] at hr
  obtain ⟨s₁, hr', hk⟩ := hr.run h
  exact ⟨hr'.holds, hk⟩

end

/-! ## What it means to be bound -/

/-- A call that ended well: the heap before it, the environment after it, the names that count, and
the defaults that were evaluated. -/
structure Outcome where
  start : Heap
  finish : Env
  counts : String → Prop
  pushed : Evaluated → Prop

/-- A name that counts has a value with a property. -/
def Outcome.Binds (o : Outcome) (name : String) (P : Value → Prop) : Prop :=
  o.counts name → ∃ v, o.finish.local? name = some v ∧ P v

mutual
/-- A parameter is bound to a share. A group is bound to a value if its parameters are bound to
their shares of the elements of that value. -/
def Param.Bound (o : Outcome) : Param → Share → Prop
  | .required name _, .value v => o.Binds name (· = v)
  | .optional name _ _, .value v => o.Binds name (· = v)
  | .optional name default _, .absent => o.Binds name fun v => o.pushed ⟨name, default, v⟩
  | .rest name _, .items vs => ∀ n ∈ name, o.Binds n fun v =>
    ∃ a, v = .array a ∧ o.finish.heap.arrayAt a = vs
  | .keyword name _ _, .value v => o.Binds name (· = v)
  | .keyword name (some default) _, .absent => o.Binds name fun v => o.pushed ⟨name, default, v⟩
  | .keyword name none _, .absent => o.Binds name fun _ => False
  | .keywordRest name _, .entries es => ∀ n ∈ name, o.Binds n fun v =>
    ∃ b, v = .hash b ∧ o.finish.heap.hashAt b = es
  | .group children _, .value v => ∃ items, v.elements o.start = .ok items ∧
    Param.AllBound o ⟨children, o.start, items⟩ [] children
  | .attr .., _ => True
  | _, _ => False

/-- Parameters of a level, which stand behind the parameters `before`, are bound to their shares. -/
def Param.AllBound (o : Outcome) (l : Level) (before : List Param) : List Param → Prop
  | [] => True
  | p :: ps => p.Bound o (l.share before p) ∧ Param.AllBound o l (before ++ [p]) ps
end

/-- A level is bound if each of its parameters is, wherever it stands. -/
theorem Param.allBound_of_forall {o : Outcome} {l : Level} {before ps : List Param}
    (hl : l.params = before ++ ps)
    (h : ∀ pre p post, l.params = pre ++ p :: post → p.Bound o (l.share pre p)) :
    Param.AllBound o l before ps := by
  induction ps generalizing before with
  | nil => exact trivial
  | cons p ps ih => exact ⟨h before p ps hl, ih (by simpa using hl)⟩

/-- What is left to happen after a run: it changes neither some names nor some cells. -/
structure Outcome.Extends (o : Outcome) (names : List String) (arrays hashes : Nat → Prop)
    (t : Trail) : Prop where
  locals : ∀ n ∈ names, o.counts n → o.finish.local? n = t.local? n
  heap : t.heap.Keeps arrays hashes o.finish.heap
  pushed : ∀ e ∈ t.defaults, o.pushed e

namespace Outcome.Extends

variable {o : Outcome} {names names' changed : List String}
  {arrays hashes arrays' hashes' arrays'' hashes'' : Nat → Prop} {t t' : Trail}

/-- What is left to happen begins with a run. -/
theorem framed (he : o.Extends names arrays hashes t') (hf : Framed changed arrays' hashes' t t')
    (hn : ∀ n ∈ names', o.counts n → n ∈ names ∧ n ∉ changed)
    (ha : ∀ a, arrays'' a → arrays' a ∧ arrays a) (hb : ∀ b, hashes'' b → hashes' b ∧ hashes b) :
    o.Extends names' arrays'' hashes'' t where
  locals n hmem hc := by
    obtain ⟨hin, hout⟩ := hn n hmem hc
    rw [he.locals n hin hc, hf.locals n hout]
  heap := (hf.heap.mono (fun a _ h => (ha a h).1) (fun b _ h => (hb b h).1)).comp he.heap
    (fun a _ h => (ha a h).2) (fun b _ h => (hb b h).2)
  pushed e hmem := he.pushed e (hf.defaults e hmem)

/-- What is left to happen leaves alone fewer things too. -/
theorem mono (he : o.Extends names arrays hashes t) (hn : ∀ n ∈ names', n ∈ names)
    (ha : ∀ a, arrays' a → arrays a) (hb : ∀ b, hashes' b → hashes b) :
    o.Extends names' arrays' hashes' t where
  locals n hmem := he.locals n (hn n hmem)
  heap := he.heap.mono (fun a _ => ha a) (fun b _ => hb b)
  pushed := he.pushed

/-- A name that was set last has its value. -/
theorem binds {name : String} {v : Value} {localOnly : Bool} {u : Unit} {P : Value → Prop}
    (he : o.Extends names arrays hashes t') (hn : name ∈ names)
    (h : Act.setLocal name v localOnly t = .ok u t') (hv : P v) : o.Binds name P := by
  intro hc
  refine ⟨v, ?_, hv⟩
  rw [he.locals name hn hc, Act.setLocal_ok h]
  exact (t.toEnv.local?_setLocal name v localOnly name).trans (if_pos rfl)

/-- A default that was evaluated for a name that was set last is recorded. -/
theorem evaluated {name : String} {default : Expr} {v : Value} {localOnly : Bool} {u : Unit}
    {t'' : Trail} (he : o.Extends names arrays hashes t'')
    (hv : Act.evalDefault name default t = .ok v t')
    (h : Act.setLocal name v localOnly t' = .ok u t'') : o.pushed ⟨name, default, v⟩ := by
  obtain ⟨t₁, -, rfl⟩ := Act.evalDefault_ok hv
  refine he.pushed _ ?_
  rw [Act.setLocal_ok h]
  exact List.mem_cons_self

end Outcome.Extends

/-- A parameter is bound to its share by its task, if nothing changes that afterwards. -/
def Param.Settles (localOnly : Bool) (p : Param) : Prop :=
  ∀ ⦃o base q steps s s' k k' hand final t t'⦄,
    Running o.start base q ((s', p) :: steps) s k hand t →
    (p.task localOnly).run s' q k t = .ok k' t' →
    (∀ n, o.counts n → p.names.count n ≤ 1) →
    o.Extends p.names (t.heap.arrays.size ≤ ·)
      (fun b => t.heap.hashes.size ≤ b ∧ p.isKeyword = false) t' →
    o.finish.heap.arrayAt q = final.items →
    (p.isKeyword = true → o.finish.heap.hashAt k' = final.entries) →
    p.Bound o (hand.share o.start final s'.side p)

/-- The names of a parameter are among those of its level. -/
theorem Param.mem_allNames {p : Param} {ps : List Param} {n : String} (hp : p ∈ ps)
    (hn : n ∈ p.names) : n ∈ Param.allNames ps := by
  rw [Param.allNames_eq]
  exact List.mem_flatMap.2 ⟨p, hp, hn⟩

/-- **Levels.** The steps of a level bind the parameters to the shares that are dealt. -/
theorem Running.deals {o : Outcome} {localOnly : Bool} {base q : Nat}
    {steps : List (LevelState × Param)} {s : LevelState} {k k' : Nat} {hand final : Hand}
    {t t' : Trail} (hr : Running o.start base q steps s k hand t)
    (hp : ∀ step ∈ steps, step.2.Settles localOnly)
    (h : Act.steps q (stepTasks localOnly steps) k t = .ok k' t')
    (hcount : ∀ n, o.counts n → (Param.allNames (steps.map Prod.snd)).count n ≤ 1)
    (hext : o.Extends (Param.allNames (steps.map Prod.snd)) (q ≤ ·) (base ≤ ·) t')
    (hq : o.finish.heap.arrayAt q = final.items)
    (hk : final.keywords.isSome → o.finish.heap.hashAt k' = final.entries)
    (hfinal : hand.finish o.start (turnsOf steps) = final) :
    ∀ x ∈ hand.deals o.start final (turnsOf steps), x.1.Bound o x.2 := by
  induction steps generalizing s hand k t with
  | nil => exact fun x hx => by cases hx
  | cons step steps ih =>
    obtain ⟨s', p⟩ := step
    obtain ⟨k₁, t₁, hfirst, hrest⟩ := steps_cons_ok h
    obtain ⟨hr₁, -⟩ := hr.step hfirst
    have hframed : Framed (Param.allNames (steps.map Prod.snd)) (· ≠ q)
        (fun b => (s'.after p.part).keywordsStaged → b ≠ k₁) t₁ t' := by
      obtain ⟨_, hl⟩ := hr₁.linked
      exact steps_framed (fun step _ => Param.task_frames localOnly step.2)
        (fun step hmem n hn => Param.mem_allNames (List.mem_map_of_mem hmem) hn) hl hrest
    have hboth : ∀ n, o.counts n →
        p.names.count n + (Param.allNames (steps.map Prod.snd)).count n ≤ 1 := fun n hn => by
      have := hcount n hn
      rwa [List.map_cons, Param.allNames, List.count_append] at this
    rintro x (_ | ⟨_, hx⟩)
    · refine hp _ List.mem_cons_self hr hfirst
        (fun n hn => Nat.le_trans (Nat.le_add_right ..) (hboth n hn)) (hext.framed hframed ?_ ?_ ?_)
        hq ?_
      · -- a name that counts is declared only once, so it is not set again
        intro n hn hc
        have hfirst : 0 < p.names.count n := List.count_pos_iff.2 hn
        refine ⟨List.mem_append_left _ hn, fun hin => ?_⟩
        have hbehind := List.count_pos_iff.2 hin
        have := hboth n hc
        omega
      · intro a ha
        have := hr.holds.sequence_lt
        exact ⟨by omega, by omega⟩
      · -- behind a step that takes no keyword the hash is not on the stack
        rintro b ⟨hb, hkey⟩
        have := hr.holds.base_le
        refine ⟨fun hstaged => ?_, by omega⟩
        rw [Param.staged_after, hkey] at hstaged
        cases hstaged
      · intro hkey
        have hsome : (hand.after o.start s'.side p).keywords.isSome = true := by
          rw [Hand.isSome_after, hkey]
          rfl
        rw [← (hr₁.finish hrest).2 hsome]
        refine hk ?_
        rw [← hfinal]
        show ((hand.after o.start s'.side p).finish o.start (turnsOf steps)).keywords.isSome
        exact Hand.isSome_finish hsome
    · exact ih hr₁ (fun step hmem => hp step (List.mem_cons_of_mem _ hmem)) hrest
        (fun n hn => Nat.le_trans (Nat.le_add_left ..) (hboth n hn))
        (hext.mono (fun n hn => List.mem_append_right _ hn) (fun _ h => h) fun _ h => h) hfinal x hx

/-- The keys that some keyword parameters take are names that they declare. -/
theorem Param.key_mem {name : String} {ps : List Param}
    (h : Key.sym name ∈ ps.filterMap Param.key?) : name ∈ Param.allNames ps := by
  obtain ⟨p, hp, hkey⟩ := List.mem_filterMap.1 h
  refine Param.mem_allNames hp ?_
  cases p with
  | keyword n default span =>
    cases hkey
    exact List.mem_singleton.2 rfl
  | _ => cases hkey

/-- A keyword parameter whose name does not count is bound, whatever its share. -/
theorem Param.bound_of_not_counts {o : Outcome} {name : String} {default : Option Expr}
    {span : Span} (hn : ¬ o.counts name) (v : Option Value) :
    (Param.keyword name default span).Bound o (.ofOption v) := by
  cases v with
  | some v => exact fun hc => absurd hc hn
  | none => cases default <;> exact fun hc => absurd hc hn

/-- A keyword hash has no key twice. -/
theorem Level.nodup_keywords {ps : List Param} {h : Heap} (xs : List Value)
    (hs : (∃ p ∈ ps, p.opens) → h.Sound) : (Level.mk ps h xs).keywords.keys.Nodup := by
  unfold Level.keywords Level.hash?
  split
  · rename_i hany
    obtain ⟨p, hp, hkey⟩ := List.any_eq_true.1 hany
    have hsound := hs ⟨p, hp, by cases p <;> first | rfl | cases hkey⟩
    cases he : Machine.stagedHash? h (xs.drop (Level.mk ps h xs).leading) with
    | none => exact .nil
    | some entries => exact hsound.stagedHash? he
  · exact .nil

/-- A level at the start of its run. -/
theorem Shape.running {ps : List Param} (shape : Shape Param.part ps) {h₀ : Heap} {q : Nat}
    {xs : List Value} {t : Trail} (hq : q < t.heap.arrays.size) (hxs : t.heap.arrayAt q = xs)
    (hsound : (∃ p ∈ ps, p.opens) → h₀.Sound ∧ ∀ v ∈ xs, v.Within h₀)
    (hgrows : h₀.Grows t.heap) (hfresh : h₀.arrays.size ≤ q) :
    Running h₀ t.heap.hashes.size q (Plan.ofList Param.part ps).steps {} 0 ⟨xs, none⟩ t where
  holds := ⟨hq, hxs, Nat.le_refl _, nofun⟩
  staged := shape.stagedOnce xs
  linked := ⟨_, Plan.linked_ofList Param.part ps⟩
  grows := hgrows
  fresh := ⟨hfresh, hgrows.hashes_le⟩
  sound := fun ⟨step, hstep, hopens⟩ => hsound ⟨step.2, Plan.mem_of_mem_ofList hstep, hopens⟩

/-- **Levels.** A level binds its parameters to their shares. -/
theorem levelAct_bound {o : Outcome} {localOnly : Bool} {ps : List Param} {q : Nat}
    {xs : List Value} {u : Unit} {t t' : Trail} (hp : ∀ p ∈ ps, p.Settles localOnly)
    (hacc : Phase.leading.Accepts (ps.map Param.part))
    (h : levelAct (Param.tasks localOnly ps) q t = .ok u t') (hq : q < t.heap.arrays.size)
    (hxs : t.heap.arrayAt q = xs)
    (hsound : (∃ p ∈ ps, p.opens) → o.start.Sound ∧ ∀ v ∈ xs, v.Within o.start)
    (hgrows : o.start.Grows t.heap) (hfresh : o.start.arrays.size ≤ q)
    (hcount : ∀ n, o.counts n → (Param.allNames ps).count n ≤ 1)
    (hext : o.Extends (Param.allNames ps) (q ≤ ·) (t.heap.hashes.size ≤ ·) t') :
    Param.AllBound o ⟨ps, o.start, xs⟩ [] ps := by
  obtain ⟨shape⟩ := exists_shape hacc
  obtain ⟨k, hrun⟩ := levelAct_ok h
  have hturns : turnsOf (Plan.ofList Param.part ps).steps = shape.turns := shape.turns_eq.1
  have hmem : ∀ step ∈ (Plan.ofList Param.part ps).steps, step.2 ∈ ps :=
    fun step hstep => Plan.mem_of_mem_ofList hstep
  have hnames : (Param.allNames ((Plan.ofList Param.part ps).steps.map Prod.snd)).Perm
      (Param.allNames ps) := by
    rw [Param.allNames_eq, Param.allNames_eq]
    exact shape.steps_perm.flatMap_right _
  have hr := shape.running hq hxs hsound hgrows hfresh
  obtain ⟨hholds, -⟩ := hr.finish hrun
  rw [hturns] at hholds
  have hdeals := hr.deals (fun step hstep => hp _ (hmem step hstep)) hrun
    (fun n hn => by rw [hnames.count_eq]; exact hcount n hn)
    (hext.mono (fun n hn => hnames.mem_iff.1 hn) (fun _ h => h) fun _ h => h)
    ((hext.heap.arrayAt_eq q hholds.sequence_lt (Nat.le_refl q)).trans hholds.sequence_eq)
    (fun hsome => by
      obtain ⟨entries, he⟩ := Option.isSome_iff_exists.1 hsome
      obtain ⟨hb, hlt, hat⟩ := hholds.keywords entries he
      rw [hext.heap.hashAt_eq k hlt hb, hat, Hand.entries, he]
      rfl)
    (congrArg _ hturns)
  rw [hturns] at hdeals
  refine Param.allBound_of_forall rfl fun pre p post (hsplit : ps = pre ++ p :: post) => ?_
  have hn := Level.nodup_keywords xs fun h => (hsound h).1
  by_cases hkey : ∀ key, p.key? = some key → key ∉ (pre ++ post).filterMap Param.key?
  · exact hdeals _ (shape.share_mem_deals o.start xs hsplit hkey hn)
  · -- a keyword that is taken twice belongs to a name that is declared twice, which does not count
    cases p with
    | keyword name default span =>
      refine Param.bound_of_not_counts (fun hc => hkey ?_) _
      rintro key ⟨⟩ hin
      have hin := List.count_pos_iff.2 (Param.key_mem hin)
      have hone := hcount name hc
      rw [Param.allNames_eq, List.flatMap_append, List.count_append] at hin
      rw [hsplit, Param.allNames_eq, List.flatMap_append, List.flatMap_cons, List.count_append,
        List.count_append, Param.names, List.count_singleton_self] at hone
      omega
    | _ => exact absurd (fun key h => by cases h) hkey

/-! ## The tasks bind -/

/-- The value at an end of the sequence is one of the values, or `nil`. -/
theorem Side.within_next {h : Heap} {items : List Value} (hi : ∀ v ∈ items, v.Within h)
    (side : Side) : (side.next items).Within h := by
  cases side with
  | left =>
    cases items with
    | nil => exact trivial
    | cons v items => exact hi v List.mem_cons_self
  | right =>
    rw [Side.next, List.getLastD_eq_getLast?]
    cases hl : items.getLast? with
    | none => exact trivial
    | some v => exact hi v (List.mem_of_getLast? hl)

/-- A group binds its parameters. -/
theorem Param.group_settles {localOnly : Bool} {children : List Param} {span : Span}
    (hp : ∀ p ∈ children, p.Settles true)
    (hacc : Phase.leading.Accepts (children.map Param.part)) :
    (Param.group children span).Settles localOnly := by
  intro o base q steps s s' k k' hand final t t' hr h hcount hext hq hk
  obtain ⟨hsound, hwithin⟩ := hr.sound ⟨_, List.mem_cons_self, rfl⟩
  cases Param.task_ok h with
  | @group _ _ items _ hitems hlevel =>
    have htaken := t.heap.keeps_setArray q (s'.side.others (t.heap.arrayAt q))
    have hgrows : o.start.Grows (t.taken s'.side q).heap :=
      hr.grows.comp htaken (fun a hlt _ => Nat.ne_of_lt (Nat.lt_of_lt_of_le hlt hr.fresh.1))
        fun _ _ _ => trivial
    obtain ⟨hlt, hat⟩ := t.opened_taken s'.side q items
    have hopened := hgrows.trans (Heap.grows_newArray _ items)
    rw [hr.holds.sequence_eq] at hitems
    have helements := hgrows.elements (Side.within_next hwithin s'.side) hitems
    exact ⟨items, helements, levelAct_bound hp hacc hlevel hlt hat
      (fun _ => ⟨hsound, Value.within_elements hsound helements⟩) hopened hr.grows.arrays_le hcount
      (hext.mono (fun _ h => h) (fun _ ha => ha) fun b hb => ⟨hb, rfl⟩)⟩

/-- A keyword parameter is bound to its value in the keyword hash. -/
theorem Param.keyword_settles {localOnly : Bool} {name : String} {default : Option Expr}
    {span : Span} : (Param.keyword name default span).Settles localOnly := by
  intro o base q steps s s' k k' hand final t t' hr h hcount hext hq hk
  have hname : name ∈ (Param.keyword name default span).names := List.mem_singleton_self name
  rw [Hand.share]
  cases Param.task_ok h with
  | keywordGiven he hv hl =>
    have hsome := (Act.takeKeyword_ok hv).1
    rw [hr.hashAt_opened rfl he] at hsome
    rw [hsome]
    exact hext.binds hname hl rfl
  | keywordAbsent he hpresent hv hl =>
    rw [hr.hashAt_opened rfl he] at hpresent
    rw [Entries.get?_of_not_contains (Bool.not_eq_true _ ▸ hpresent)]
    exact hext.binds hname hl (hext.evaluated hv hl)

/-- Every parameter that is accepted is bound to its share by its task. -/
theorem Param.task_settles (localOnly : Bool) {inGroup : Bool} (p : Param)
    (hacc : p.Accepted inGroup) : p.Settles localOnly := by
  induction p generalizing localOnly inGroup with
  | required name span =>
    intro o base q steps s s' k k' hand final t t' hr h hcount hext hq hk
    cases Param.task_ok h with
    | required hl =>
      rw [hr.holds.sequence_eq] at hl
      exact hext.binds (List.mem_singleton_self name) hl rfl
  | optional name default span =>
    intro o base q steps s s' k k' hand final t t' hr h hcount hext hq hk
    have hname : name ∈ (Param.optional name default span).names := List.mem_singleton_self name
    rw [Hand.share]
    cases Param.task_ok h with
    | absent hempty hv hl =>
      rw [hr.holds.sequence_eq] at hempty
      rw [hempty]
      exact hext.binds hname hl (hext.evaluated hv hl)
    | given hne hl =>
      rw [hr.holds.sequence_eq] at hne hl
      obtain ⟨v, others, hitems⟩ := List.exists_cons_of_ne_nil hne
      rw [hitems] at hl ⊢
      exact hext.binds hname hl rfl
  | rest name span =>
    intro o base q steps s s' k k' hand final t t' hr h hcount hext hq hk
    cases Param.task_ok h with
    | rest hl =>
      cases name with
      | none => exact fun n hn => by cases hn
      | some name =>
        rintro n ⟨⟩
        exact hext.binds (List.mem_singleton_self name) hl ⟨q, rfl, hq⟩
  | keyword name default span => exact Param.keyword_settles
  | keywordRest name span =>
    intro o base q steps s s' k k' hand final t t' hr h hcount hext hq hk
    cases Param.task_ok h with
    | keywordRest he hl =>
      cases name with
      | none => exact fun n hn => by cases hn
      | some name =>
        rintro n ⟨⟩
        exact hext.binds (List.mem_singleton_self name) hl ⟨k', rfl, hk rfl⟩
  | group children span ih =>
    exact Param.group_settles
      (fun p hp => ih p hp true (Param.allAccepted_iff.1 hacc.2 p hp)) hacc.1
  | attr receiver writer span => exact fun _ _ _ _ _ _ _ _ _ _ _ _ _ _ _ _ _ _ => trivial

/-! ## Calls -/

/-- What a call of a compiled stream leaves behind. -/
def callOutcome (ps : List Param) (code : Stream) (arguments : List Value) (m m' : Machine) :
    Outcome where
  start := m.heap
  finish := m'.toEnv
  counts n := (Param.allNames ps).count n = 1
  pushed := Pushes 0 code (entered (fun _ => arguments) m)

/-- The level of a call at the start of its run. -/
theorem Shape.running_entered {ps : List Param} (shape : Shape Param.part ps) (env : Env)
    (arguments : List Value)
    (hsound : (∃ p ∈ ps, p.opens) → env.heap.Sound ∧ ∀ v ∈ arguments, v.Within env.heap) :
    Running env.heap (env.entered fun _ => arguments).heap.hashes.size env.heap.arrays.size
      (Plan.ofList Param.part ps).steps {} 0 ⟨arguments, none⟩ (env.entered fun _ => arguments) :=
  shape.running (by simp [Env.entered, Heap.newArray]) (env.heap.arrayAt_newArray arguments) hsound
    (env.heap.grows_newArray arguments) (Nat.le_refl _)

/-- A call of a compiled stream that ends well binds the parameters to their shares. The heap
matters only to parameters that look into a value. -/
theorem bindArguments_bound {list : Option ParamList} {localOnly : Bool} {code : Stream}
    {ps : List Param} {arguments : List Value} {m m' : Machine}
    (hc : ParamList.compile? list localOnly = .ok code) (hps : ParamList.check? list = .ok ps)
    (hsound : (∃ p ∈ ps, p.opens) → m.heap.Sound ∧ ∀ v ∈ arguments, v.Within m.heap)
    (hrun : bindArguments code arguments m = .ok () m') :
    Param.AllBound (callOutcome ps code arguments m m') ⟨ps, m.heap, arguments⟩ [] ps := by
  obtain ⟨ps', hps', hr⟩ := compile_params_realizes hc
  obtain rfl : ps' = ps := Except.ok.inj (hps'.symm.trans hps)
  obtain ⟨hacc, hall⟩ := ParamList.check?_accepted hps
  have hcall : call code (fun _ => arguments) m = .ok () m' := hrun
  obtain ⟨t, hact, ht, hpushed⟩ := act_of_call hr hcall
  rw [callAct_apply] at hact
  have hq : m.heap.arrays.size < (m.toEnv.entered fun _ => arguments).heap.arrays.size := by
    simp [Env.entered, Heap.newArray]
  have hext : (callOutcome ps' code arguments m m').Extends (Param.allNames ps')
      (m.heap.arrays.size ≤ ·) (m.heap.hashes.size ≤ ·) t := by
    refine ⟨fun n _ _ => ?_, ?_, hpushed⟩
    · exact congrArg (Env.local? · n) ht.symm
    · exact congrArg Env.heap ht ▸ .refl _
  exact levelAct_bound
    (fun p hp => Param.task_settles localOnly p (Param.allAccepted_iff.1 hall p hp)) hacc hact hq
    (m.heap.arrayAt_newArray arguments) hsound (m.heap.grows_newArray arguments) (Nat.le_refl _)
    (fun n hn => Nat.le_of_eq hn) hext

/-- **Binding.** Whenever the call of a compiled stream ends well, every parameter whose name is
declared once is bound to the share that is due to it, on the outermost level and in every group. -/
theorem compiled_binding {list : Option ParamList} {localOnly : Bool} {code : Stream}
    {arguments : List Value} {m m' : Machine}
    (hc : ParamList.compile? list localOnly = .ok code)
    (hsound : m.heap.Sound) (hargs : ∀ v ∈ arguments, v.Within m.heap)
    (hrun : bindArguments code arguments m = .ok () m') :
    ∃ ps, ParamList.check? list = .ok ps ∧
      Param.AllBound (callOutcome ps code arguments m m') ⟨ps, m.heap, arguments⟩ [] ps := by
  obtain ⟨ps, hps, -⟩ := compile_params_realizes hc
  exact ⟨ps, hps, bindArguments_bound hc hps (fun _ => ⟨hsound, hargs⟩) hrun⟩

/-- `(a, (b, *c), d = a, k:)` is compiled, and a call with a number, an array and a hash binds
it. -/
theorem nested_binding : ∃ code m',
    ParamList.compile? (some ⟨[.required "a" {}, .group [.required "b" {}, .rest (some "c") {}] {},
      .optional "d" (.localVar "a") {}, .keyword "k" none {}], {}⟩) true = .ok code ∧
    bindArguments code [.int 1, .array 0, .hash 0]
      ⟨⟨⟨#[[.int 2, .int 3]], #[[(.sym "k", .int 4)]], #[]⟩, [], [], [], .nil⟩, [], 0⟩ = .ok () m' ∧
    ∃ ps, ParamList.check? (some ⟨[.required "a" {}, .group [.required "b" {},
      .rest (some "c") {}] {}, .optional "d" (.localVar "a") {}, .keyword "k" none {}], {}⟩) =
      .ok ps ∧ Param.AllBound (callOutcome ps code [.int 1, .array 0, .hash 0]
        ⟨⟨⟨#[[.int 2, .int 3]], #[[(.sym "k", .int 4)]], #[]⟩, [], [], [], .nil⟩, [], 0⟩ m')
        ⟨ps, ⟨#[[.int 2, .int 3]], #[[(.sym "k", .int 4)]], #[]⟩, [.int 1, .array 0, .hash 0]⟩
          [] ps := by
  have hcode : ParamList.compile? (some ⟨[.required "a" {}, .group [.required "b" {},
      .rest (some "c") {}] {}, .optional "d" (.localVar "a") {}, .keyword "k" none {}], {}⟩) true =
      .ok [⟨.arrayShift, {}⟩, ⟨.localSet "a" true, {}⟩, ⟨.arrayShift, {}⟩, ⟨.dup, {}⟩,
        ⟨.toArray, {}⟩, ⟨.arrayShift, {}⟩, ⟨.localSet "b" true, {}⟩, ⟨.dup, {}⟩,
        ⟨.localSet "c" true, {}⟩, ⟨.pop, {}⟩, ⟨.pop, {}⟩, ⟨.stageKeywords, {}⟩,
        ⟨.takeKeyword "k", {}⟩, ⟨.localSet "k" true, {}⟩, ⟨.checkKeywords, {}⟩, ⟨.pop, {}⟩,
        ⟨.arrayIsEmpty, {}⟩, ⟨.ifTrue, {}⟩, ⟨.localGet "a", {}⟩, ⟨.orElse, {}⟩, ⟨.arrayShift, {}⟩,
        ⟨.endIf, {}⟩, ⟨.localSet "d" true, {}⟩, ⟨.pop, {}⟩] := by
    cbv
  have hsound : Heap.Sound ⟨#[[.int 2, .int 3]], #[[(.sym "k", .int 4)]], #[]⟩ := by
    refine ⟨fun items hi v hv => ?_, fun entries he => ?_⟩
    · obtain rfl : items = [.int 2, .int 3] := by simpa using hi
      rcases List.mem_cons.1 hv with rfl | hv
      · exact trivial
      · obtain rfl := List.mem_singleton.1 hv
        exact trivial
    · obtain rfl : entries = [(.sym "k", .int 4)] := by simpa using he
      exact List.pairwise_singleton _ _
  refine ⟨_, _, hcode, by cbv, compiled_binding hcode hsound ?_ (by cbv)⟩
  simp [Value.Within]

end Formals
