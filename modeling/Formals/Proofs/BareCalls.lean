import Formals.Proofs.BareRuns

/-!
# Calls with nothing to give

A call in which no parameter finds a value that it could do without: `nil` for the required
parameters in front, and a hash with the keywords that are required (`Shape.bareArguments`). When a
parameter has its turn there is nothing for it (`Shape.bare_turn`), so every optional parameter
takes its default, and a default that reads a variable before it is bound fails
(`exists_undefined`).
-/

namespace Formals

open Machine

/-! ## A heap of keywords -/

/-- A hash of keywords at the end is taken for the keyword hash. -/
theorem stagedHash?_concat {h : Heap} {b : Nat} (vs : List Value)
    (hs : ∀ key ∈ (h.hashAt b).keys, key.symbol?.isSome) :
    stagedHash? h (vs ++ [.hash b]) = some (h.hashAt b) := by
  have hall : Value.isKeywordHash h (.hash b) = true := by
    rw [Value.isKeywordHash, List.all_eq_true]
    exact fun e he => hs e.1 (List.mem_map_of_mem he)
  rw [stagedHash?, List.getLast?_concat]
  exact if_pos hall

namespace Heap

variable {keys : List Key}

/-- A heap with one hash, in which some keys have the value `nil`. -/
def ofKeys (keys : List Key) : Heap := { hashes := #[keys.map (·, .nil)] }

/-- A hash of keys has these keys. -/
theorem keys_ofKeys : Entries.keys (keys.map (·, Value.nil)) = keys := by
  rw [Entries.keys, List.map_map]
  exact List.map_id keys

/-- A hash of keys has none of them twice if they differ. -/
theorem nodup_ofKeys (hn : keys.Nodup) : (Entries.keys (keys.map (·, Value.nil))).Nodup :=
  keys_ofKeys.symm ▸ hn

/-- A heap with a hash of different keys is sound. -/
theorem sound_ofKeys (hn : keys.Nodup) : (ofKeys keys).Sound where
  arrays := by simp [ofKeys]
  hashes entries he := by
    obtain rfl : entries = keys.map (·, .nil) := by simpa [ofKeys] using he
    exact nodup_ofKeys hn

/-- A hash of symbols is taken for the keyword hash. -/
theorem stagedHash?_ofKeys (hs : ∀ key ∈ keys, key.symbol?.isSome) :
    stagedHash? (ofKeys keys) [.hash 0] = some (keys.map (·, .nil)) := by
  refine stagedHash?_concat [] fun key hkey => ?_
  obtain ⟨e, he, rfl⟩ := List.mem_map.1 hkey
  obtain ⟨key, hmem, rfl⟩ := List.mem_map.1 he
  exact hs key hmem

end Heap

/-! ## The turns of a level that finds nothing -/

namespace Hand

variable {h : Heap} {hand : Hand}

/-- Only those that take from the keyword hash change it. -/
theorem keywords_after {side : Side} {p : Param} (hp : p.isKeyword = false) :
    (hand.after h side p).keywords = hand.keywords := by
  cases p with
  | keyword | keywordRest => cases hp
  | _ => rfl

/-- Turns of parameters that take nothing from the keyword hash leave it. -/
theorem keywords_finish {turns : List (Side × Param)}
    (hp : ∀ turn ∈ turns, turn.2.isKeyword = false) :
    (hand.finish h turns).keywords = hand.keywords := by
  induction turns generalizing hand with
  | nil => rfl
  | cons turn turns ih =>
    rw [finish, ih fun turn hmem => hp turn (List.mem_cons_of_mem _ hmem),
      keywords_after (hp turn List.mem_cons_self)]

end Hand

/-- A parameter that takes nothing from the keyword hash has no key. -/
theorem Param.key?_eq_none {p : Param} (hp : p.isKeyword = false) : p.key? = none := by
  cases p <;> first | rfl | cases hp

/-- What a parameter finds in a hand: no value, if it wants one, and some keywords if it takes from
the keyword hash. Otherwise nothing is left of the keywords. -/
structure Hand.Bare (h : Heap) (hand : Hand) (entries : Entries Key Value) (side : Side)
    (p : Param) : Prop where
  meets : p.Meets side hand.items
  opened : p.isKeyword = true → (hand.opened h).entries = entries
  taken : p.isKeyword = false → hand.keywords.isSome → hand.entries = []

section

variable {h : Heap} {hand : Hand} {entries : Entries Key Value} {side : Side} {p : Param}

/-- A parameter that takes no keyword finds nothing if there is no value for it. -/
theorem Hand.Bare.of_not_isKeyword (hk : p.isKeyword = false) (hmeets : p.Meets side hand.items)
    (htaken : hand.keywords.isSome → hand.entries = []) : hand.Bare h entries side p := by
  refine ⟨hmeets, fun hk' => ?_, fun _ => htaken⟩
  rw [hk] at hk'
  cases hk'

/-- A parameter that takes a keyword finds the keywords that are left. -/
theorem Hand.Bare.of_isKeyword (hk : p.isKeyword = true)
    (hopened : (hand.opened h).entries = entries) : hand.Bare h entries side p := by
  refine ⟨⟨fun ho => ?_, fun ho => ?_⟩, fun _ => hopened, fun hk' => ?_⟩
  · rw [Param.isKeyword_eq_false ho (by decide)] at hk
    cases hk
  · rw [Param.isKeyword_eq_false ho (by decide)] at hk
    cases hk
  · rw [hk] at hk'
    cases hk'

end

namespace Shape

variable {ps : List Param} (s : Shape Param.part ps)

/-- The turns behind those that take from the keyword hash do not take from it. -/
theorem Stages.isKeyword_behind {s : Shape Param.part ps} (st : Stages s) :
    ∀ turn ∈ sided .right s.tail.reverse ++ (st.midway ++ (sided .right s.middle.reverse ++
      (sided .left s.optionals ++ st.late))), turn.2.isKeyword = false := by
  have hsided : ∀ {side : Side} {qs : List Param} {part : Part}, (∀ p ∈ qs, p.part = part) →
      part ≠ .keyword ∧ part ≠ .keywordRest → ∀ turn ∈ sided side qs, turn.2.isKeyword = false := by
    intro side qs part hqs hpart turn hturn
    obtain ⟨p, hp, rfl⟩ := List.mem_map.1 hturn
    exact Param.isKeyword_eq_false (hqs p hp) hpart
  have hrest : ∀ turn ∈ st.early ++ (st.midway ++ st.late), turn.2.isKeyword = false :=
    fun turn hturn => Param.isKeyword_eq_false (st.part_rest turn hturn) (by decide)
  intro turn hturn
  simp only [List.mem_append] at hturn hrest
  rcases hturn with hin | hin | hin | hin | hin
  · exact hsided (fun p hp => s.part_tail p (List.mem_reverse.1 hp)) (by decide) turn hin
  · exact hrest turn (.inr (.inl hin))
  · exact hsided (fun p hp => s.part_middle p (List.mem_reverse.1 hp)) (by decide) turn hin
  · exact hsided s.part_optionals (by decide) turn hin
  · exact hrest turn (.inr (.inr hin))

/-- The arguments without which binding does not get to the parameters: `nil` for the required ones
in front, and a keyword hash if there are keyword parameters. -/
def bareArguments : List Value :=
  List.replicate s.leading.length .nil ++ if s.hashed.isEmpty then [] else [.hash 0]

/-- The required parameters in front leave at most the keyword hash of such arguments. -/
theorem start_bareArguments :
    s.start s.bareArguments = ⟨if s.hashed.isEmpty then [] else [.hash 0], none⟩ := by
  simp [start, bareArguments]

variable {keys : List Key}

/-- Such arguments are values of the heap with that hash. -/
theorem within_bareArguments (keys : List Key) :
    ∀ v ∈ s.bareArguments, v.Within (Heap.ofKeys keys) := by
  intro v hv
  rcases List.mem_append.1 hv with hv | hv
  · rw [List.eq_of_mem_replicate hv]
    trivial
  · split at hv
    · cases hv
    · rw [List.mem_singleton.1 hv]
      exact Nat.zero_lt_one

/-- Taking the keyword hash out of these arguments leaves no values. -/
theorem opened_bareArguments (hs : ∀ key ∈ keys, key.symbol?.isSome) (hne : s.hashed ≠ []) :
    (s.start s.bareArguments).opened (Heap.ofKeys keys) = ⟨[], some (keys.map (·, .nil))⟩ := by
  rw [s.start_bareArguments, List.isEmpty_eq_false_iff.2 hne]
  simp only [Bool.false_eq_true, if_false, Hand.opened, Heap.stagedHash?_ofKeys hs]
  rfl

/-- The parameters in front take no keywords. -/
theorem Stages.keys_front {s : Shape Param.part ps} (st : Stages s) (c : List (Side × Param)) :
    ((sided .left s.leading ++ (st.early ++ c)).map Prod.snd).filterMap Param.key? =
      (c.map Prod.snd).filterMap Param.key? := by
  have hleading : s.leading.filterMap Param.key? = [] := List.filterMap_eq_nil_iff.2 fun q hq =>
    Param.key?_eq_none (Param.isKeyword_eq_false (s.part_leading q hq) (by decide))
  have hearly : (st.early.map Prod.snd).filterMap Param.key? = [] := by
    refine List.filterMap_eq_nil_iff.2 fun q hq => ?_
    obtain ⟨turn, hturn, rfl⟩ := List.mem_map.1 hq
    have hpart := st.part_rest turn (List.mem_append_left _ hturn)
    exact Param.key?_eq_none (Param.isKeyword_eq_false hpart (by decide))
  rw [List.map_append, List.map_append, snd_sided, List.filterMap_append, List.filterMap_append,
    hleading, hearly]
  rfl

/-- Nothing is left when those that take from the keyword hash had their turns. -/
theorem Stages.finish_bareArguments {s : Shape Param.part ps} (st : Stages s)
    (hs : ∀ key ∈ keys, key.symbol?.isSome) (hn : keys.Nodup)
    (hin : ∀ key ∈ keys, key ∈ ps.filterMap Param.key?) :
    (st.afterHashed (Heap.ofKeys keys) s.bareArguments).items = [] ∧
      (st.afterHashed (Heap.ofKeys keys) s.bareArguments).entries = [] := by
  rw [afterHashed]
  by_cases hnil : st.hashed = []
  · have hempty : s.hashed = [] := List.nil_perm.1 (hnil ▸ st.hashed_perm)
    rw [hnil, s.start_bareArguments, hempty]
    exact ⟨rfl, rfl⟩
  · have hne : s.hashed ≠ [] := fun hempty => hnil (List.perm_nil.1 (hempty ▸ st.hashed_perm))
    have hkeyword : ∀ q ∈ st.hashed, q.isKeyword = true := fun q hq =>
      s.isKeyword_hashed q (st.hashed_perm.mem_iff.1 hq)
    rw [Hand.finish_hashed hkeyword hnil, s.opened_bareArguments hs hne]
    refine ⟨rfl, ?_⟩
    show Hand.erasing st.hashed (keys.map (·, Value.nil)) = []
    refine Hand.erasing_eq_nil (Heap.nodup_ofKeys hn) fun key hmem => ?_
    rw [Heap.keys_ofKeys] at hmem
    exact (st.hashed_perm.filterMap _).mem_iff.2 ((s.mem_keys_hashed key).2 (hin key hmem))

/-- One of the parameters in front finds `nil`. -/
theorem bare_front {pre post : List Param} {p : Param} (h : s.leading = pre ++ p :: post)
    {heap : Heap} {entries : Entries Key Value} :
    (Hand.finish heap ⟨s.bareArguments, none⟩ (sided .left pre)).Bare heap entries .left p := by
  have hpart : ∀ q ∈ pre ++ p :: post, q.part = .positional := h ▸ s.part_leading
  have hpositional : p.part = .positional := hpart p (by simp)
  have hlt : pre.length < s.leading.length := by simp [h]
  rw [Hand.finish_left fun q hq => .inl (hpart q (by simp [hq]))]
  refine .of_not_isKeyword (Param.isKeyword_eq_false hpositional (by decide))
    ⟨fun _ => ?_, fun ho => ?_⟩ nofun
  · rw [Side.next_drop, bareArguments, List.getElem?_append_left (by simpa using hlt),
      List.getElem?_replicate_of_lt hlt]
    rfl
  · rw [hpositional] at ho
    cases ho

/-- One of the parameters that take from the keyword hash finds the keywords that were not taken. -/
theorem Stages.bare_hashed {s : Shape Param.part ps} (st : Stages s)
    (hs : ∀ key ∈ keys, key.symbol?.isSome) (hn : keys.Nodup) {pre post : List Param} {p : Param}
    (h : st.hashed = pre ++ p :: post) :
    ((s.start s.bareArguments).finish (Heap.ofKeys keys) (sided st.side pre)).Bare
      (Heap.ofKeys keys)
      ((keys.map (·, Value.nil)).filter fun e => e.1 ∉ pre.filterMap Param.key?) st.side p := by
  have hkeyword : ∀ q ∈ pre ++ p :: post, q.isKeyword = true := fun q hq =>
    s.isKeyword_hashed q (st.hashed_perm.mem_iff.1 (h ▸ hq))
  have hne : s.hashed ≠ [] := fun hnil => by
    have hperm := st.hashed_perm
    rw [hnil, h] at hperm
    simpa using hperm.eq_nil
  refine .of_isKeyword (hkeyword p (by simp)) ?_
  rw [Hand.opened_finish_hashed fun q hq => hkeyword q (by simp [hq]),
    s.opened_bareArguments hs hne, ← Hand.erasing_eq_filter (Heap.nodup_ofKeys hn)]
  rfl

/-- A parameter behind those that take from the keyword hash finds nothing at all. -/
theorem Stages.bare_behind {s : Shape Param.part ps} (st : Stages s)
    (hs : ∀ key ∈ keys, key.symbol?.isSome) (hn : keys.Nodup)
    (hin : ∀ key ∈ keys, key ∈ ps.filterMap Param.key?) {a b : List (Side × Param)} {side : Side}
    {p : Param} (h : sided .right s.tail.reverse ++ (st.midway ++ (sided .right s.middle.reverse ++
      (sided .left s.optionals ++ st.late))) = a ++ (side, p) :: b) {entries : Entries Key Value} :
    ((st.afterHashed (Heap.ofKeys keys) s.bareArguments).finish (Heap.ofKeys keys) a).Bare
      (Heap.ofKeys keys) entries side p := by
  have hbehind : ∀ turn ∈ a ++ (side, p) :: b, turn.2.isKeyword = false := h ▸ st.isKeyword_behind
  obtain ⟨hnil, hentries⟩ := st.finish_bareArguments hs hn hin
  have hitems : ((st.afterHashed (Heap.ofKeys keys) s.bareArguments).finish (Heap.ofKeys keys)
      a).items = [] := by
    refine List.eq_nil_iff_forall_not_mem.2 fun v hv => ?_
    have hleft := Hand.items_finish_subset v hv
    rw [hnil] at hleft
    cases hleft
  refine .of_not_isKeyword (hbehind (side, p) (by simp)) ?_ fun _ => ?_
  · rw [hitems]
    exact p.meets_nil side
  · rw [Hand.entries, Hand.keywords_finish fun turn hturn => hbehind turn (by simp [hturn])]
    exact hentries

/-- Where a turn of some parameters from one side stands. -/
theorem split_sided {side side' : Side} {p : Param} {qs : List Param} {a b : List (Side × Param)}
    (h : sided side qs = a ++ (side', p) :: b) :
    ∃ pre post, qs = pre ++ p :: post ∧ a = sided side pre ∧ side' = side := by
  obtain ⟨pre, post, rfl, rfl, hpost⟩ := List.map_eq_append_iff.1 h
  obtain ⟨q, post, rfl, hq, -⟩ := List.map_eq_cons_iff.1 hpost
  obtain ⟨rfl, rfl⟩ := Prod.mk.inj hq
  exact ⟨pre, post, rfl, rfl, rfl⟩

/-- **Turns.** When a parameter has its turn, it finds no value that it wants, and only the keywords
that were not taken before. -/
theorem bare_turn (hs : ∀ key ∈ keys, key.symbol?.isSome) (hn : keys.Nodup)
    (hin : ∀ key ∈ keys, key ∈ ps.filterMap Param.key?) {a b : List (Side × Param)} {side : Side}
    {p : Param} (h : s.turns = a ++ (side, p) :: b) :
    (Hand.finish (Heap.ofKeys keys) ⟨s.bareArguments, none⟩ a).Bare (Heap.ofKeys keys)
      ((keys.map (·, Value.nil)).filter fun e => e.1 ∉ (a.map Prod.snd).filterMap Param.key?)
      side p := by
  obtain ⟨st⟩ := s.exists_stages
  have hearly : ∀ turn ∈ st.early, turn.2.part = .rest :=
    fun turn hturn => st.part_rest turn (List.mem_append_left _ hturn)
  rw [st.turns_eq] at h
  rcases split_cases h with ⟨c, hl, -⟩ | ⟨a, rfl, h₁⟩
  · -- in front
    obtain ⟨pre, post, hleading, rfl, rfl⟩ := split_sided hl
    exact s.bare_front hleading
  rw [Hand.finish_append, s.finish_leading]
  rcases split_cases h₁ with ⟨c, he, -⟩ | ⟨a, rfl, h₂⟩
  · -- the rest, before the others
    have hpart : p.part = .rest := hearly (side, p) (by simp [he])
    rw [Hand.finish_rests fun turn hturn => hearly turn (by simp [he, hturn])]
    refine .of_not_isKeyword (Param.isKeyword_eq_false hpart (by decide))
      ⟨fun ho => ?_, fun ho => ?_⟩ nofun
    · rw [hpart] at ho
      cases ho
    · rw [hpart] at ho
      cases ho
  rw [Hand.finish_append, Hand.finish_rests hearly]
  rcases split_cases h₂ with ⟨c, hh, -⟩ | ⟨a, rfl, h₃⟩
  · -- among those that take from the keyword hash
    obtain ⟨pre, post, hhashed, rfl, rfl⟩ := split_sided hh
    rw [st.keys_front, snd_sided]
    exact st.bare_hashed hs hn hhashed
  -- behind them
  rw [Hand.finish_append]
  exact st.bare_behind hs hn hin h₃

end Shape

/-! ## Keywords that are required -/

/-- The keyword without which a parameter is not bound. -/
def Param.requiredKey? : Param → Option Key
  | .keyword name none _ => some (.sym name)
  | _ => none

/-- A keyword that is required is the one that the parameter takes, and a symbol. -/
theorem Param.key?_of_requiredKey? {p : Param} {key : Key} (h : p.requiredKey? = some key) :
    p.key? = some key ∧ key.symbol?.isSome ∧ ∃ name span, p = .keyword name none span := by
  cases p with
  | keyword name default span =>
    cases default with
    | none =>
      cases h
      exact ⟨rfl, rfl, name, span, rfl⟩
    | some default => cases h
  | _ => cases h

namespace Slot

/-- The keywords without which binding does not get past some slots. -/
def requiredKeys (slots : List Slot) : List Key := slots.filterMap fun x => x.param.requiredKey?

variable {slots : List Slot}

/-- Required keywords are symbols. -/
theorem symbol_requiredKeys : ∀ key ∈ requiredKeys slots, key.symbol?.isSome := fun key hkey => by
  obtain ⟨x, -, hx⟩ := List.mem_filterMap.1 hkey
  exact (Param.key?_of_requiredKey? hx).2.1

/-- Required keywords are among those that are taken. -/
theorem requiredKeys_subset : ∀ key ∈ requiredKeys slots, key ∈ keys slots := fun key hkey => by
  obtain ⟨x, hmem, hx⟩ := List.mem_filterMap.1 hkey
  exact List.mem_filterMap.2 ⟨x, hmem, (Param.key?_of_requiredKey? hx).1⟩

/-- Slots that are passable require no keyword twice, and none that is taken. -/
theorem Passable.requiredKeys {taken : List Key} (h : Passable taken slots) :
    (requiredKeys slots).Nodup ∧ ∀ key ∈ Slot.requiredKeys slots, key ∉ taken := by
  induction slots generalizing taken with
  | nil => exact ⟨.nil, nofun⟩
  | cons x slots ih =>
    obtain ⟨hx, hrest⟩ := h
    obtain ⟨hn, htaken⟩ := ih hrest
    have hlater : ∀ key ∈ Slot.requiredKeys slots, key ∉ taken := fun key hkey hin =>
      htaken key hkey (List.mem_append_left _ hin)
    rw [Slot.requiredKeys, List.filterMap_cons]
    cases hk : x.param.requiredKey? with
    | none => exact ⟨hn, hlater⟩
    | some key =>
      obtain ⟨hkey, -, name, span, hparam⟩ := Param.key?_of_requiredKey? hk
      refine ⟨List.nodup_cons.2 ⟨fun hin => ?_, hn⟩, ?_⟩
      · refine htaken key hin (List.mem_append_right _ ?_)
        rw [hkey]
        exact List.mem_singleton_self key
      · rintro key' (_ | ⟨_, hin⟩)
        · rw [hparam] at hk
          cases hk
          exact hx name span hparam
        · exact hlater key' hin

end Slot

/-- The keywords that the slots of some steps take are those of the parameters. -/
theorem Param.keys_steps {steps : List (LevelState × List String × Param)}
    (hacc : ∀ step ∈ steps, step.2.2.Accepted false) : Slot.keys (steps.flatMap stepSlots) =
      ((turnsOf (steps.map unplaced)).map Prod.snd).filterMap key? := by
  rw [snd_turnsOf, List.map_map]
  induction steps with
  | nil => rfl
  | cons step steps ih =>
    rw [List.flatMap_cons, Slot.keys, List.filterMap_append, List.map_cons]
    have hfirst : Slot.keys (stepSlots step) = step.2.2.key?.toList :=
      keys_slots_eq step.2.1 (hacc step List.mem_cons_self)
    have hrest := ih fun step hmem => hacc step (List.mem_cons_of_mem _ hmem)
    rw [← Slot.keys, ← Slot.keys, hfirst, hrest, List.filterMap_cons,
      show (Prod.snd ∘ unplaced) step = step.2.2 from rfl]
    cases step.2.2.key? <;> rfl

/-! ## Steps that find nothing -/

/-- The keyword hash is dropped without an error where nothing is left of it. -/
theorem Holds.unstage_ne_error {base q k : Nat} {s : LevelState} {hand : Hand} {t : Trail}
    (hh : Holds base q k hand t) (hheld : s.keywordsStaged → hand.keywords.isSome)
    (htaken : hand.keywords.isSome → hand.entries = []) (e : RuntimeError) (t' : Trail) :
    Act.unstage s k t ≠ .error e t' := fun h => by
  obtain ⟨⟨hstaged, -⟩, hleftover, -⟩ := Act.unstage_error h
  have hsome := hheld hstaged
  obtain ⟨left, hleft⟩ := Option.isSome_iff_exists.1 hsome
  have hnil := htaken hsome
  rw [Hand.entries, hleft] at hnil
  exact hleftover ((hh.keywords _ hleft).2.2.trans hnil)

/-- A step finds no keywords left over if none are left in the hand. -/
theorem Running.unstage_ne_error {h₀ : Heap} {base q k : Nat} {rest : List (LevelState × Param)}
    {s s' : LevelState} {hand : Hand} {t : Trail} {p : Param}
    (hr : Running h₀ base q ((s', p) :: rest) s k hand t)
    (htaken : hand.keywords.isSome → hand.entries = []) (e : RuntimeError) (t' : Trail) :
    Act.unstage s' k t ≠ .error e t' := by
  obtain ⟨_, ⟨side, rfl⟩, -⟩ := hr.linked
  exact hr.holds.unstage_ne_error hr.staged.held htaken e t'

section

variable {h₀ : Heap} {base q k : Nat} {rest : List (LevelState × Param)} {s s' : LevelState}
  {hand : Hand} {t t' : Trail} {p : Param} {entries : Entries Key Value} {e : RuntimeError}
  (hr : Running h₀ base q ((s', p) :: rest) s k hand t) (hbare : hand.Bare h₀ entries s'.side p)

include hr hbare

/-- What a step that takes from the keyword hash finds there. -/
theorem Running.hashAt_bare (hk : p.isKeyword = true) {k₁ : Nat} {t₁ : Trail}
    (he : Act.ensureStaged s' q k t = .ok k₁ t₁) : t₁.heap.hashAt k₁ = entries :=
  (hr.hashAt_opened hk he).trans (hbare.opened hk)

/-- A step that finds nothing fails only with an undefined variable. -/
theorem Running.bare_error (hacc : p.Accepted false) (hsimple : p.Simple) (h : p.Fails s' q k t e)
    (hkey : ∀ key, p.requiredKey? = some key → (entries.get? key).isSome) :
    ∃ name, e = .undefinedVariable name := by
  cases hk : p.isKeyword with
  | false =>
    have hmeets := hbare.meets
    rw [← hr.holds.sequence_eq] at hmeets
    exact (Param.exposes [] (hacc.inGroup hk) hsimple).fails (hr.unstage_ne_error (hbare.taken hk))
      hmeets h
  | true =>
    cases h with
    | leftOver hk' _ =>
      rw [hk] at hk'
      cases hk'
    | missing he hnone _ =>
      have hsome := hkey _ rfl
      rw [hr.hashAt_bare hbare hk he] at hnone
      rw [hnone] at hsome
      cases hsome
    | keyword _ _ he => exact hsimple.error he
    | optional | elements | group | attr => cases hk

/-- A step that finds nothing and goes well reads only local variables that are defined. -/
theorem Running.bare_ok {localOnly : Bool} {earlier before : List String} {k' : Nat}
    (hacc : p.Accepted false) (hsimple : p.Simple) (ht : t.Defines before)
    (h : p.Runs localOnly s' q k t k' t')
    (hkey : ∀ key, p.key? = some key → entries.get? key = none) :
    Slot.Bound before (p.slots earlier) := by
  cases hk : p.isKeyword with
  | false =>
    have hmeets := hbare.meets
    rw [← hr.holds.sequence_eq] at hmeets
    exact (Param.exposes earlier (hacc.inGroup hk) hsimple).runs ht hmeets h
  | true =>
    cases h with
    | @keywordGiven name default span _ _ _ _ _ he hv _ =>
      have hsome := (Act.takeKeyword_ok hv).1
      rw [hr.hashAt_bare hbare hk he, hkey _ rfl] at hsome
      cases hsome
    | keywordAbsent he _ hv _ =>
      refine Param.bound_singleton rfl fun name hname => ?_
      rw [hname] at hv
      exact (ht.ensureStaged he).mem_of_evalDefault hv
    | keywordRest => exact Param.bound_of_default?_eq_none rfl
    | required | attr | group | given | absent | rest => cases hk

end

/-! ## Calls that find nothing -/

section

variable {ps : List Param} {localOnly : Bool} {front back : List (LevelState × List String × Param)}
  {step : LevelState × List String × Param}

/-- The keywords that binding needs to get past some steps. -/
def neededKeys (front : List (LevelState × List String × Param)) : List Key :=
  Slot.requiredKeys (front.flatMap Param.stepSlots)

/-- A machine with nothing but a hash of the keywords that are needed. -/
def bareMachine (keys : List Key) : Machine := ⟨{ heap := .ofKeys keys, selfValue := .nil }, [], 0⟩

/-- What is left of the keywords that are needed, when some steps had their turns. -/
def leftEntries (front f : List (LevelState × List String × Param)) : Entries Key Value :=
  ((neededKeys front).map (·, Value.nil)).filter
    fun e => e.1 ∉ Slot.keys (f.flatMap Param.stepSlots)

/-- A required keyword is a slot of its own. -/
theorem Param.stepSlots_of_requiredKey? {key : Key} (h : step.2.2.requiredKey? = some key) :
    Param.stepSlots step = [⟨step.2.2, step.2.1⟩] := by
  obtain ⟨-, -, name, span, hp⟩ := Param.key?_of_requiredKey? h
  rw [Param.stepSlots, hp]
  rfl

/-- A step that needs a keyword finds it. -/
theorem isSome_leftEntries {f c : List (LevelState × List String × Param)}
    (hpass : Slot.Passable [] ((f ++ step :: c).flatMap Param.stepSlots)) {key : Key}
    (hkey : step.2.2.requiredKey? = some key) :
    ((leftEntries (f ++ step :: c) f).get? key).isSome := by
  obtain ⟨-, -, name, span, hp⟩ := Param.key?_of_requiredKey? hkey
  have hslots := Param.stepSlots_of_requiredKey? hkey
  have hfree : key ∉ Slot.keys (f.flatMap Param.stepSlots) := by
    rw [List.flatMap_append, List.flatMap_cons, hslots, Slot.passable_append] at hpass
    rw [hp] at hkey
    cases hkey
    exact hpass.2.1 name span hp
  have hneeded : key ∈ neededKeys (f ++ step :: c) := by
    rw [neededKeys, List.flatMap_append, List.flatMap_cons, hslots]
    exact List.mem_filterMap.2 ⟨⟨step.2.2, step.2.1⟩, by simp, hkey⟩
  refine Entries.isSome_get? (List.mem_map.2 ⟨(key, .nil), ?_, rfl⟩)
  exact List.mem_filter.2 ⟨List.mem_map.2 ⟨key, hneeded, rfl⟩, decide_eq_true hfree⟩

/-- The steps take all keywords that they need. -/
theorem leftEntries_self : leftEntries front front = [] := by
  refine List.filter_eq_nil_iff.2 fun e he => ?_
  obtain ⟨key, hkey, rfl⟩ := List.mem_map.1 he
  simpa using Slot.requiredKeys_subset key hkey

variable (shape : Shape Param.part ps) (hacc : ∀ p ∈ ps, p.Accepted false)
  (hsplit : Param.placedSteps [] ps = front ++ step :: back)
  (hpass : Slot.Passable [] (front.flatMap Param.stepSlots))

include hacc hsplit hpass

/-- What a step finds in a call with nothing but the keywords that are needed. -/
theorem Shape.bare_step {f b : List (LevelState × List String × Param)}
    {x : LevelState × List String × Param} {k₁ : Nat} {t₁ : Trail}
    (hx : Param.placedSteps [] ps = f ++ x :: b)
    (hrun : Act.steps 0 (stepTasks localOnly (f.map Param.unplaced)) 0
      ((bareMachine (neededKeys front)).toEnv.entered fun _ => shape.bareArguments) = .ok k₁ t₁) :
    ∃ base rest s hand, Running (.ofKeys (neededKeys front)) base 0 (Param.unplaced x :: rest) s k₁
      hand t₁ ∧ hand.Bare (.ofKeys (neededKeys front)) (leftEntries front f) x.1.side x.2.2 := by
  have hmem : ∀ {y}, y ∈ Param.placedSteps [] ps → y.2.2.Accepted false := fun hy =>
    hacc _ (Param.mem_of_mem_placedSteps hy)
  have hkeys : ∀ {g : List (LevelState × List String × Param)},
      (∀ y ∈ g, y ∈ Param.placedSteps [] ps) → Slot.keys (g.flatMap Param.stepSlots) =
        ((turnsOf (g.map Param.unplaced)).map Prod.snd).filterMap Param.key? := fun hg =>
    Param.keys_steps fun y hy => hmem (hg y hy)
  obtain ⟨hnodup, -⟩ := hpass.requiredKeys
  have hin : ∀ key ∈ neededKeys front, key ∈ ps.filterMap Param.key? := fun key hkey => by
    have hfront := Slot.requiredKeys_subset key hkey
    rw [hkeys fun y hy => by rw [hsplit]; simp [hy]] at hfront
    obtain ⟨p, hp, hkey⟩ := List.mem_filterMap.1 hfront
    rw [snd_turnsOf, List.map_map] at hp
    obtain ⟨y, hy, rfl⟩ := List.mem_map.1 hp
    exact List.mem_filterMap.2 ⟨_, Param.mem_of_mem_placedSteps (by rw [hsplit]; simp [hy]), hkey⟩
  have hrunning := shape.running_entered (bareMachine (neededKeys front)).toEnv shape.bareArguments
    fun _ => ⟨Heap.sound_ofKeys hnodup, shape.within_bareArguments _⟩
  rw [Param.steps_eq [], hx, List.map_append, List.map_cons] at hrunning
  obtain ⟨s, hr, -⟩ := hrunning.run hrun
  refine ⟨_, _, s, _, hr, ?_⟩
  rw [leftEntries, hkeys fun y hy => by rw [hx]; simp [hy]]
  have hturns : shape.turns = turnsOf (f.map Param.unplaced) ++
      (x.1.side, x.2.2) :: turnsOf (b.map Param.unplaced) := by
    rw [← shape.turns_eq.1, Plan.turns, Param.steps_eq [], hx, List.map_append, List.map_append]
    rfl
  exact shape.bare_turn Slot.symbol_requiredKeys hnodup hin hturns

/-- The steps up to one that requires no keyword fail only with an undefined variable. -/
theorem Shape.bare_steps_error (hsimple : ∀ p ∈ ps, p.Simple) (hfree : step.2.2.requiredKey? = none)
    {e : RuntimeError} {t : Trail}
    (hrun : Act.steps 0 (stepTasks localOnly ((front ++ [step]).map Param.unplaced)) 0
      ((bareMachine (neededKeys front)).toEnv.entered fun _ => shape.bareArguments) = .error e t) :
    ∃ n, e = .undefinedVariable n := by
  obtain ⟨f, y, b, k, t, hfront, ha, hfails⟩ := Param.placedSteps_error hrun
  have hplaced : Param.placedSteps [] ps = f ++ y :: (b ++ back) := by
    rw [hsplit, List.append_cons, hfront]
    simp
  have hy : y.2.2 ∈ ps := Param.mem_of_mem_placedSteps (by rw [hplaced]; simp)
  obtain ⟨_, _, _, _, hr, hbare⟩ := shape.bare_step hacc hsplit hpass hplaced ha
  refine hr.bare_error hbare (hacc _ hy) (hsimple _ hy) hfails fun key hkey => ?_
  rcases Shape.split_cases hfront with ⟨c, rfl, -⟩ | ⟨c, -, hc⟩
  · exact isSome_leftEntries hpass hkey
  · obtain rfl : y = step := List.mem_singleton.1 (hc ▸ by simp)
    rw [hfree] at hkey
    cases hkey

/-- If the steps up to one go well, then that one reads only variables that are bound before it. -/
theorem Shape.bare_steps_ok (hsimple : ∀ p ∈ ps, p.Simple) {k : Nat} {t : Trail}
    (hrun : Act.steps 0 (stepTasks localOnly ((front ++ [step]).map Param.unplaced)) 0
      ((bareMachine (neededKeys front)).toEnv.entered fun _ => shape.bareArguments) = .ok k t) :
    Slot.Bound (Slot.names (front.flatMap Param.stepSlots)) (Param.stepSlots step) := by
  have hmem : ∀ {y}, y ∈ front ++ step :: back → y.2.2 ∈ ps := fun hy =>
    Param.mem_of_mem_placedSteps (hsplit ▸ hy)
  rw [List.map_append] at hrun
  obtain ⟨k₁, t₁, hfront, hrest⟩ := steps_append_ok hrun
  obtain ⟨k₂, t₂, htask, -⟩ := steps_cons_ok hrest
  obtain ⟨_, _, _, _, hr, hbare⟩ := shape.bare_step hacc hsplit hpass hsplit hfront
  have hempty : ((bareMachine (neededKeys front)).toEnv.entered fun _ =>
      shape.bareArguments).Defines [] := fun n => by
    simp [Env.entered, bareMachine, Env.local?, Env.scopes, Entries.get?]
  have hdefines := Param.placedSteps_define
    (fun y hy => hacc _ (hmem (List.mem_append_left _ hy))) hempty hfront
  rw [List.nil_append] at hdefines
  have hstep : step.2.2 ∈ ps := hmem (by simp)
  exact hr.bare_ok hbare (hacc _ hstep) (hsimple _ hstep) hdefines (Param.task_ok htask)
    fun _ _ => leftEntries_self ▸ rfl

/-- **Exposure.** If all defaults are simple, then a default that reads a variable which is not
bound before it makes some call fail with an undefined variable. -/
theorem Shape.bare_level {pre post : List Slot} {x : Slot} {name : String}
    (hsimple : ∀ p ∈ ps, p.Simple) (hstep : Param.stepSlots step = pre ++ x :: post)
    (hd : x.param.default? = some (.localVar name))
    (hname : name ∉ Slot.names (front.flatMap Param.stepSlots ++ pre)) : ∃ n t,
      levelAct (Param.tasks localOnly ps) 0 ((bareMachine (neededKeys front)).toEnv.entered
        fun _ => shape.bareArguments) = .error (.undefinedVariable n) t := by
  have hfree : step.2.2.requiredKey? = none := by
    rw [Option.eq_none_iff_forall_ne_some]
    intro key hkey
    have hx : x ∈ Param.stepSlots step := hstep ▸ by simp
    rw [Param.stepSlots_of_requiredKey? hkey] at hx
    obtain ⟨-, -, n, span, hp⟩ := Param.key?_of_requiredKey? hkey
    rw [List.mem_singleton.1 hx, hp] at hd
    cases hd
  have hsteps : (Plan.ofList Param.part ps).steps =
      (front ++ [step]).map Param.unplaced ++ back.map Param.unplaced := by
    rw [Param.steps_eq [], hsplit]
    simp
  cases hrun : Act.steps 0 (stepTasks localOnly ((front ++ [step]).map Param.unplaced)) 0
      ((bareMachine (neededKeys front)).toEnv.entered fun _ => shape.bareArguments) with
  | error e t =>
    obtain ⟨n, rfl⟩ := shape.bare_steps_error hacc hsplit hpass hsimple hfree hrun
    exact ⟨n, t, levelAct_of_steps_error (hsteps ▸ steps_append_error _ hrun)⟩
  | ok k t =>
    have hbound := shape.bare_steps_ok hacc hsplit hpass hsimple hrun pre x post name hstep hd
    rw [Slot.names_append] at hname
    exact absurd hbound hname

end

/-- **Exposure.** If all defaults are simple, and one reads a variable that is not bound before it
although binding can get there, then some call fails with an undefined variable. -/
theorem exists_undefined {list : Option ParamList} {localOnly : Bool} {code : Stream}
    {ps : List Param} {pre post : List Slot} {x : Slot} {name : String}
    (hc : ParamList.compile? list localOnly = .ok code) (hps : ParamList.check? list = .ok ps)
    (hsimple : Param.AllSimple ps) (hslots : Param.levelSlots [] ps = pre ++ x :: post)
    (hpass : Slot.Passable [] pre) (hd : x.param.default? = some (.localVar name))
    (hname : name ∉ Slot.names pre) : ∃ arguments m, (∀ n, m.local? n = none) ∧ m.heap.Sound ∧
      (∀ v ∈ arguments, v.Within m.heap) ∧
      ∃ n m', bindArguments code arguments m = .error (.undefinedVariable n) m' := by
  obtain ⟨ps', hps', hr⟩ := compile_params_realizes hc
  obtain rfl : ps' = ps := Except.ok.inj (hps'.symm.trans hps)
  obtain ⟨hacc, hall⟩ := ParamList.check?_accepted hps
  obtain ⟨shape⟩ := exists_shape hacc
  obtain ⟨front, step, back, u, v, hsplit, hstep, rfl⟩ := Param.levelSlots_split hslots
  obtain ⟨hfront, -⟩ := Slot.passable_append.1 hpass
  obtain ⟨n, t, hlevel⟩ : ∃ n t, levelAct (Param.tasks localOnly ps') 0
      ((bareMachine (neededKeys front)).toEnv.entered fun _ => shape.bareArguments) =
        .error (.undefinedVariable n) t :=
    shape.bare_level (Param.allAccepted_iff.1 hall) hsplit hfront (Param.allSimple_iff.1 hsimple)
      hstep hd hname
  have hact : callAct (fun _ => shape.bareArguments) (levelAct (Param.tasks localOnly ps'))
      (bareMachine (neededKeys front)).toEnv.trail = .error (.undefinedVariable n) t := hlevel
  obtain ⟨-, left, argc, hcall⟩ := call_error hr hact
  refine ⟨shape.bareArguments, bareMachine (neededKeys front), fun n => rfl,
    Heap.sound_ofKeys hfront.requiredKeys.1, shape.within_bareArguments _, n, _, hcall⟩

end Formals
