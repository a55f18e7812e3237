import Formals.Proofs.Keywords
import Formals.Proofs.Sparing

/-!
# Full calls

A call is full (`Level.Full`) when it has a value for every parameter that takes one, and a hash
with the keywords that are declared. When a parameter has its turn in a full call, what it wants is
there (`Shape.serving`). So its task goes well and evaluates no default (`Param.task_thrives`), and
the call ends well (`full_calls`), unless two keyword parameters have the same name, of which the
second one finds nothing (`repeated_keyword_missing`).
-/

namespace Formals

open Machine

/-! ## Values for every parameter -/

/-- Whether a parameter takes a value from the sequence for itself. -/
def Param.takesValue (p : Param) : Bool := p.part = .positional || p.part = .optional

mutual
/-- A value fills a parameter. A group is filled by an array of values for its parameters. -/
def Param.FilledBy (h : Heap) : Param → Value → Prop
  | .group children _, v => ∃ a, v = .array a ∧ Param.AllFilledBy h children (h.arrayAt a)
  | _, _ => True

/-- There is one value, in order, for each of some parameters that takes one. -/
def Param.AllFilledBy (h : Heap) : List Param → List Value → Prop
  | [], vs => vs = []
  | p :: ps, vs =>
    if p.takesValue then
      ∃ v others, vs = v :: others ∧ p.FilledBy h v ∧ Param.AllFilledBy h ps others
    else Param.AllFilledBy h ps vs
end

/-- The values of a level are full: there is one for every parameter that takes one and, if some
parameter takes from the keyword hash, behind them a hash whose keys are the declared keywords. -/
inductive Level.Full (l : Level) : Prop
  | plain : (∀ p ∈ l.params, p.isKeyword = false) →
      Param.AllFilledBy l.heap l.params l.values → Full l
  | keywords {values : List Value} {b : Nat} : (∃ p ∈ l.params, p.isKeyword = true) →
      Param.AllFilledBy l.heap l.params values → l.values = values ++ [.hash b] →
      (∀ key, key ∈ (l.heap.hashAt b).keys ↔ key ∈ l.params.filterMap Param.key?) → Full l

namespace Param

variable {h : Heap} {ps : List Param} {vs : List Value}

/-- What takes from the keyword hash takes no value. -/
theorem takesValue_eq_false {p : Param} (hk : p.isKeyword = true) : p.takesValue = false := by
  cases p <;> first | rfl | cases hk

/-- A parameter that has to be given and an optional one take a value. -/
theorem takesValue_of_part {p : Param} (hp : p.part = .positional ∨ p.part = .optional) :
    p.takesValue = true := by
  rcases hp with hp | hp <;> rw [takesValue, hp] <;> rfl

/-- Values for parameters that all take one. -/
theorem allFilledBy_cons {p : Param} (hp : p.takesValue = true) : AllFilledBy h (p :: ps) vs ↔
    ∃ v others, vs = v :: others ∧ p.FilledBy h v ∧ AllFilledBy h ps others := by
  rw [AllFilledBy, if_pos hp]

/-- Parameters none of which takes a value have none. -/
theorem AllFilledBy.eq_nil (hp : ∀ p ∈ ps, p.takesValue = false) (hf : AllFilledBy h ps vs) :
    vs = [] := by
  induction ps with
  | nil => exact hf
  | cons p ps ih =>
    rw [AllFilledBy, hp p List.mem_cons_self, if_neg Bool.false_ne_true] at hf
    exact ih (fun p hmem => hp p (List.mem_cons_of_mem _ hmem)) hf

/-- The values for two lists of parameters. -/
theorem AllFilledBy.split {qs : List Param} (hf : AllFilledBy h (ps ++ qs) vs) : ∃ xs ys,
    vs = xs ++ ys ∧ AllFilledBy h ps xs ∧ AllFilledBy h qs ys := by
  induction ps generalizing vs with
  | nil => exact ⟨[], vs, rfl, rfl, hf⟩
  | cons p ps ih =>
    rw [List.cons_append, AllFilledBy] at hf
    by_cases hp : p.takesValue = true
    · rw [if_pos hp] at hf
      obtain ⟨v, others, rfl, hv, hothers⟩ := hf
      obtain ⟨xs, ys, rfl, hxs, hys⟩ := ih hothers
      exact ⟨v :: xs, ys, rfl, (allFilledBy_cons hp).2 ⟨v, xs, rfl, hv, hxs⟩, hys⟩
    · rw [if_neg hp] at hf
      obtain ⟨xs, ys, rfl, hxs, hys⟩ := ih hf
      refine ⟨xs, ys, rfl, ?_, hys⟩
      rwa [AllFilledBy, if_neg hp]

/-- There are as many values as parameters that all take one. -/
theorem AllFilledBy.length_eq (hp : ∀ p ∈ ps, p.takesValue = true) (hf : AllFilledBy h ps vs) :
    vs.length = ps.length := by
  induction ps generalizing vs with
  | nil => exact congrArg List.length hf
  | cons p ps ih =>
    obtain ⟨v, others, rfl, -, hothers⟩ := (allFilledBy_cons (hp p List.mem_cons_self)).1 hf
    have hlength := ih (fun p hmem => hp p (List.mem_cons_of_mem _ hmem)) hothers
    rw [List.length_cons, List.length_cons, hlength]

end Param

/-! ## Turns that are served -/

/-- A parameter finds what it wants in a hand: a value that fills it, or its keyword. Where the
keyword hash is dropped nothing is left of it. -/
structure Hand.Serves (h : Heap) (hand : Hand) (side : Side) (p : Param) : Prop where
  value : p.takesValue = true → hand.items ≠ [] ∧ p.FilledBy h (side.next hand.items)
  keyword : ∀ key, p.key? = some key → ((hand.opened h).entries.get? key).isSome
  taken : p.isKeyword = false → hand.keywords.isSome → hand.entries = []

/-- In some turns, one after the other, the parameters find what they want. -/
def Hand.Serving (h : Heap) (hand : Hand) : List (Side × Param) → Prop
  | [] => True
  | (side, p) :: turns => hand.Serves h side p ∧ Hand.Serving h (hand.after h side p) turns

namespace Hand

variable {h : Heap} {hand : Hand} {side : Side} {ps : List Param} {vs : List Value}
  {keywords : Option (Entries Key Value)}

/-- Turns in a row are served if the first ones are, and the others with what those leave. -/
theorem serving_append {a b : List (Side × Param)} :
    hand.Serving h (a ++ b) ↔ hand.Serving h a ∧ (hand.finish h a).Serving h b := by
  induction a generalizing hand with
  | nil => exact (and_iff_right trivial).symm
  | cons turn a ih =>
    rw [List.cons_append, Serving, Serving, ih, and_assoc]
    rfl

/-- A parameter that takes a value and finds one is served. -/
theorem Serves.of_value {p : Param} (hp : p.part = .positional ∨ p.part = .optional)
    (hne : hand.items ≠ []) (hv : p.FilledBy h (side.next hand.items))
    (htaken : hand.keywords.isSome → hand.entries = []) : hand.Serves h side p where
  value _ := ⟨hne, hv⟩
  keyword key hkey := by
    have hk : p.isKeyword = false := by
      rcases hp with hp | hp <;> exact Param.isKeyword_eq_false hp (by decide)
    rw [Param.key?_eq_none hk] at hkey
    cases hkey
  taken _ := htaken

/-- Values on the left serve parameters that take them from the left. -/
theorem serving_left (others : List Value)
    (hp : ∀ p ∈ ps, p.part = .positional ∨ p.part = .optional)
    (hf : Param.AllFilledBy h ps vs) (htaken : keywords.isSome → keywords.getD [] = []) :
    Hand.Serving h ⟨vs ++ others, keywords⟩ (Shape.sided .left ps) ∧
      Hand.finish h ⟨vs ++ others, keywords⟩ (Shape.sided .left ps) = ⟨others, keywords⟩ := by
  induction ps generalizing vs with
  | nil =>
    obtain rfl : vs = [] := hf
    exact ⟨trivial, rfl⟩
  | cons p ps ih =>
    have hpart := hp p List.mem_cons_self
    obtain ⟨v, vs, rfl, hv, hvs⟩ := (Param.allFilledBy_cons (Param.takesValue_of_part hpart)).1 hf
    have hafter : Hand.after h ⟨v :: vs ++ others, keywords⟩ .left p =
        ⟨vs ++ others, keywords⟩ := by
      rcases hpart with hpart | hpart
      · exact after_positional hpart
      · exact after_optional hpart
    rw [Shape.sided, List.map_cons, Serving, finish, hafter]
    obtain ⟨hserving, hfinish⟩ := ih (fun p hmem => hp p (List.mem_cons_of_mem _ hmem)) hvs
    exact ⟨⟨.of_value hpart (List.cons_ne_nil _ _) hv htaken, hserving⟩, hfinish⟩

/-- Values on the right serve required parameters that take them from the right. -/
theorem serving_right (others : List Value) (hp : ∀ p ∈ ps, p.part = .positional)
    (hf : Param.AllFilledBy h ps vs) (htaken : keywords.isSome → keywords.getD [] = []) :
    Hand.Serving h ⟨others ++ vs, keywords⟩ (Shape.sided .right ps.reverse) ∧
      Hand.finish h ⟨others ++ vs, keywords⟩ (Shape.sided .right ps.reverse) =
        ⟨others, keywords⟩ := by
  induction ps using List.reverseRecOn generalizing vs with
  | nil =>
    obtain rfl : vs = [] := hf
    exact ⟨trivial, congrArg (Hand.mk · keywords) (List.append_nil others)⟩
  | append_singleton ps p ih =>
    have hpart : p.part = .positional := hp p (by simp)
    obtain ⟨vs, last, rfl, hvs, hlast⟩ := hf.split
    obtain ⟨v, _, rfl, hv, rfl⟩ :=
      (Param.allFilledBy_cons (Param.takesValue_of_part (.inl hpart))).1 hlast
    have hnext : Side.right.next (others ++ vs ++ [v]) = v := List.getLastD_concat
    have hothers : Side.right.others (others ++ vs ++ [v]) = others ++ vs := List.dropLast_concat
    rw [List.reverse_concat, ← List.append_assoc, Shape.sided, List.map_cons, Serving, finish,
      after_positional hpart, hothers]
    obtain ⟨hserving, hfinish⟩ := ih (fun p hmem => hp p (by simp [hmem])) hvs
    refine ⟨⟨.of_value (.inl hpart) (by simp) ?_ htaken, hserving⟩, hfinish⟩
    show p.FilledBy h (Side.right.next (others ++ vs ++ [v]))
    rwa [hnext]

/-- A rest wants nothing. -/
theorem serving_rests {turns : List (Side × Param)} (hp : ∀ turn ∈ turns, turn.2.part = .rest)
    (htaken : hand.keywords.isSome → hand.entries = []) : hand.Serving h turns := by
  induction turns with
  | nil => trivial
  | cons turn turns ih =>
    obtain ⟨side, p⟩ := turn
    have hpart : p.part = .rest := hp _ List.mem_cons_self
    refine ⟨⟨fun htakes => ?_, fun key hkey => ?_, fun _ => htaken⟩, ?_⟩
    · rw [Param.takesValue, hpart] at htakes
      cases htakes
    · rw [Param.key?_eq_none (Param.isKeyword_eq_false hpart (by decide))] at hkey
      cases hkey
    · rw [after_rest hpart]
      exact ih fun turn hmem => hp turn (List.mem_cons_of_mem _ hmem)

/-- A keyword hash serves keyword parameters, if no two of them take the same keyword. -/
theorem serving_hashed (hp : ∀ p ∈ ps, p.isKeyword = true) (hn : (ps.filterMap Param.key?).Nodup)
    (hkeys : ∀ key ∈ ps.filterMap Param.key?, ((hand.opened h).entries.get? key).isSome) :
    hand.Serving h (Shape.sided side ps) := by
  induction ps generalizing hand with
  | nil => trivial
  | cons p ps ih =>
    have hk : p.isKeyword = true := hp p List.mem_cons_self
    rw [← List.singleton_append, List.filterMap_append] at hn hkeys
    refine ⟨⟨fun htakes => ?_, fun key hkey => ?_, fun hk' => ?_⟩, ?_⟩
    · rw [Param.takesValue_eq_false hk] at htakes
      cases htakes
    · refine hkeys key (List.mem_append_left _ ?_)
      exact List.mem_filterMap.2 ⟨p, List.mem_singleton_self p, hkey⟩
    · rw [hk] at hk'
      cases hk'
    · rw [after_hashed hk]
      refine ih (fun p hmem => hp p (List.mem_cons_of_mem _ hmem)) (List.nodup_append.1 hn).2.1
        fun key hkey => ?_
      rw [opened_of_some rfl]
      show ((erasing [p] (hand.opened h).entries).get? key).isSome
      rw [get?_erasing fun hin => (List.nodup_append.1 hn).2.2 key hin key hkey rfl]
      exact hkeys key (List.mem_append_right _ hkey)

end Hand

/-! ## The turns of a full call -/

/-- The key that a parameter takes is a symbol. -/
theorem Param.symbol_of_key? {p : Param} {key : Key} (h : p.key? = some key) :
    key.symbol?.isSome := by
  cases p with
  | keyword name default span =>
    cases h
    rfl
  | _ => cases h

namespace Shape

variable {ps : List Param} (s : Shape Param.part ps) {h : Heap} {xs : List Value}

/-- The values for the parts of a level. -/
theorem exists_values (hf : Param.AllFilledBy h ps xs) : ∃ front optional middle tail,
    xs = front ++ (optional ++ (middle ++ tail)) ∧ Param.AllFilledBy h s.leading front ∧
      Param.AllFilledBy h s.optionals optional ∧ Param.AllFilledBy h s.middle middle ∧
      Param.AllFilledBy h s.tail tail := by
  rw [s.items_eq] at hf
  obtain ⟨front, others, rfl, hfront, hf⟩ := hf.split
  obtain ⟨optional, others, rfl, hoptional, hf⟩ := hf.split
  obtain ⟨middle, others, rfl, hmiddle, hf⟩ := hf.split
  obtain ⟨rest, others, rfl, hrest, hf⟩ := hf.split
  obtain ⟨tail, hashed, rfl, htail, hhashed⟩ := hf.split
  obtain rfl : rest = [] := hrest.eq_nil fun p hp => by
    rw [Param.takesValue, s.part_rest_toList p hp]
    rfl
  obtain rfl : hashed = [] := hhashed.eq_nil fun p hp =>
    Param.takesValue_eq_false (s.isKeyword_hashed p hp)
  exact ⟨front, optional, middle, tail, by simp, hfront, hoptional, hmiddle, htail⟩

/-- A keyword hash at the end of the values is what a level takes its keywords from. -/
theorem opened_start_concat {front vs : List Value} {b : Nat}
    (hfront : front.length = s.leading.length)
    (hsymbol : ∀ key ∈ (h.hashAt b).keys, key.symbol?.isSome) :
    (s.start (front ++ (vs ++ [.hash b]))).opened h = ⟨vs, some (h.hashAt b)⟩ := by
  rw [start, List.drop_left' hfront]
  simp only [Hand.opened, stagedHash?_concat _ hsymbol, List.dropLast_concat]

/-- What a full call has for the parts of a level: those that take from the keyword hash are served,
and leave the values for the others and no keywords. -/
theorem Stages.exists_full {s : Shape Param.part ps} (st : Stages s)
    (hf : (Level.mk ps h xs).Full) (hn : (ps.filterMap Param.key?).Nodup)
    (hu : (Level.mk ps h xs).keywords.keys.Nodup) : ∃ front optional middle tail others,
      xs = front ++ others ∧ Param.AllFilledBy h s.leading front ∧
      Param.AllFilledBy h s.optionals optional ∧ Param.AllFilledBy h s.middle middle ∧
      Param.AllFilledBy h s.tail tail ∧
      (s.start xs).Serving h (sided st.side st.hashed) ∧
      (st.afterHashed h xs).items = optional ++ (middle ++ tail) ∧
      (st.afterHashed h xs).entries = [] := by
  have hlength : ∀ {front : List Value}, Param.AllFilledBy h s.leading front →
      front.length = s.leading.length := fun hfront =>
    hfront.length_eq fun p hp => Param.takesValue_of_part (.inl (s.part_leading p hp))
  cases hf with
  | plain hk hvs =>
    obtain ⟨front, optional, middle, tail, rfl, hfront, hoptional, hmiddle, htail⟩ :=
      s.exists_values hvs
    -- no parameter takes from a keyword hash, so all values are for the others
    have hnil : st.hashed = [] := List.eq_nil_iff_forall_not_mem.2 fun p hp => by
      have hhashed := st.hashed_perm.mem_iff.1 hp
      have hfalse := hk p (s.hashed_suffix.subset hhashed)
      rw [s.isKeyword_hashed p hhashed] at hfalse
      cases hfalse
    rw [afterHashed, hnil]
    refine ⟨front, optional, middle, tail, _, rfl, hfront, hoptional, hmiddle, htail, trivial, ?_,
      rfl⟩
    exact List.drop_left' (hlength hfront)
  | @keywords values b hk hvs hvalues hkeys =>
    obtain ⟨p, hp, hk⟩ := hk
    obtain rfl : xs = values ++ [.hash b] := hvalues
    obtain ⟨front, optional, middle, tail, rfl, hfront, hoptional, hmiddle, htail⟩ :=
      s.exists_values hvs
    -- the last value is the keyword hash, and its keys are those that are declared
    have hmem := s.mem_hashed hp hk
    have hkeyword : ∀ q ∈ st.hashed, q.isKeyword = true := fun q hq =>
      s.isKeyword_hashed q (st.hashed_perm.mem_iff.1 hq)
    have hdeclared : ∀ key, key ∈ st.hashed.filterMap Param.key? ↔ key ∈ (h.hashAt b).keys :=
      fun key => (st.hashed_perm.filterMap _).mem_iff.trans
        ((s.mem_keys_hashed key).trans (hkeys key).symm)
    have hsymbol : ∀ key ∈ (h.hashAt b).keys, key.symbol?.isSome := fun key hkey => by
      obtain ⟨q, -, hq⟩ := List.mem_filterMap.1 ((hkeys key).1 hkey)
      exact Param.symbol_of_key? hq
    have hopened : (s.start (front ++ (optional ++ (middle ++ tail)) ++ [.hash b])).opened h =
        ⟨optional ++ (middle ++ tail), some (h.hashAt b)⟩ := by
      rw [List.append_assoc]
      exact s.opened_start_concat (hlength hfront) hsymbol
    have hkeywords := (s.opened_start h _ (List.ne_nil_of_mem hmem)).symm.trans hopened
    rw [(Option.some.inj (Hand.mk.inj hkeywords).2)] at hu
    refine ⟨front, optional, middle, tail, _, List.append_assoc .., hfront, hoptional, hmiddle,
      htail, ?_, ?_⟩
    · refine Hand.serving_hashed hkeyword ?_ fun key hkey => ?_
      · have hnodup := hn.sublist (s.hashed_suffix.sublist.filterMap Param.key?)
        exact (st.hashed_perm.filterMap _).nodup_iff.2 hnodup
      · rw [hopened]
        exact Entries.isSome_get? ((hdeclared key).1 hkey)
    · have hne : st.hashed ≠ [] := List.ne_nil_of_mem (st.hashed_perm.mem_iff.2 hmem)
      rw [afterHashed, Hand.finish_hashed hkeyword hne, hopened]
      exact ⟨rfl, Hand.erasing_eq_nil hu fun key hkey => (hdeclared key).2 hkey⟩

/-- **Turns.** In a full call every parameter finds what it wants when it has its turn, and no
keywords are left in the end. -/
theorem serving (hf : (Level.mk ps h xs).Full) (hn : (ps.filterMap Param.key?).Nodup)
    (hu : (Level.mk ps h xs).keywords.keys.Nodup) :
    Hand.Serving h ⟨xs, none⟩ s.turns ∧ (Hand.finish h ⟨xs, none⟩ s.turns).entries = [] := by
  obtain ⟨st⟩ := s.exists_stages
  obtain ⟨front, optional, middle, tail, others, rfl, hfront, hoptional, hmiddle, htail, hhashed,
    hitems, hentries⟩ := st.exists_full hf hn hu
  have hearly : ∀ turn ∈ st.early, turn.2.part = .rest :=
    fun turn hturn => st.part_rest turn (List.mem_append_left _ hturn)
  have hmidway : ∀ turn ∈ st.midway, turn.2.part = .rest := fun turn hturn =>
    st.part_rest turn (List.mem_append_right _ (List.mem_append_left _ hturn))
  have hlate : ∀ turn ∈ st.late, turn.2.part = .rest := fun turn hturn =>
    st.part_rest turn (List.mem_append_right _ (List.mem_append_right _ hturn))
  have hnone : (none : Option (Entries Key Value)).isSome → ([] : Entries Key Value) = [] :=
    fun _ => rfl
  obtain ⟨hservingFront, -⟩ :=
    Hand.serving_left others (fun p hp => .inl (s.part_leading p hp)) hfront hnone
  refine ⟨?_, ?_⟩
  · rw [st.turns_eq, Hand.serving_append, s.finish_leading, Hand.serving_append,
      Hand.finish_rests hearly, Hand.serving_append]
    refine ⟨hservingFront, Hand.serving_rests hearly hnone, hhashed, ?_⟩
    show (st.afterHashed h (front ++ others)).Serving h _
    cases hafter : st.afterHashed h (front ++ others) with
    | mk items keywords =>
      rw [hafter] at hitems hentries
      obtain rfl : items = optional ++ middle ++ tail := hitems.trans (List.append_assoc ..).symm
      have htaken : keywords.isSome → keywords.getD [] = [] := fun _ => hentries
      obtain ⟨hservingTail, htailLeaves⟩ :=
        Hand.serving_right (optional ++ middle) s.part_tail htail htaken
      obtain ⟨hservingMiddle, hmiddleLeaves⟩ :=
        Hand.serving_right optional s.part_middle hmiddle htaken
      obtain ⟨hservingOptional, hoptionalLeaves⟩ :=
        Hand.serving_left [] (fun p hp => .inr (s.part_optionals p hp)) hoptional htaken
      rw [List.append_nil] at hservingOptional hoptionalLeaves
      rw [Hand.serving_append, htailLeaves, Hand.serving_append, Hand.finish_rests hmidway,
        Hand.serving_append, hmiddleLeaves, Hand.serving_append, hoptionalLeaves]
      exact ⟨hservingTail, Hand.serving_rests hmidway htaken, hservingMiddle, hservingOptional,
        Hand.serving_rests hlate htaken⟩
  · rw [st.finish_turns]
    exact hentries

end Shape

/-! ## Parameters that thrive -/

namespace Act

variable {t t' : Trail} {s : LevelState} {q k k' : Nat}

/-- Taking the keyword hash out of the sequence evaluates no default. -/
theorem defaults_ensureStaged (h : ensureStaged s q k t = .ok k' t') :
    t'.defaults = t.defaults := by
  unfold ensureStaged at h
  split at h
  · cases h
    rfl
  · rw [(stage_ok h).2]

/-- Setting a local variable evaluates no default. -/
theorem defaults_setLocal {name : String} {v : Value} {localOnly : Bool} {u : Unit}
    (h : setLocal name v localOnly t = .ok u t') : t'.defaults = t.defaults := by
  rw [setLocal_ok h]

/-- Binding a share evaluates no default. -/
theorem defaults_share {name : Option String} {v : Value} {localOnly : Bool} {u : Unit}
    (h : share name v localOnly t = .ok u t') : t'.defaults = t.defaults := by
  cases name with
  | none =>
    cases h
    rfl
  | some name => exact defaults_setLocal h

/-- Taking a keyword evaluates no default. -/
theorem defaults_takeKeyword {name : String} {v : Value} (h : takeKeyword k name t = .ok v t') :
    t'.defaults = t.defaults := by
  rw [(takeKeyword_ok h).2]

end Act

/-- A parameter thrives if its task goes well and evaluates no default wherever it is served. -/
structure Param.Thrives (localOnly : Bool) (p : Param) : Prop where
  error : ∀ {h₀ base q steps s s' k hand t}, Running h₀ base q ((s', p) :: steps) s k hand t →
    hand.Serves h₀ s'.side p → ∀ e, ¬ p.Fails s' q k t e
  ok : ∀ {h₀ base q steps s s' k hand t}, Running h₀ base q ((s', p) :: steps) s k hand t →
    hand.Serves h₀ s'.side p → ∀ {k' t'}, p.Runs localOnly s' q k t k' t' →
      t'.defaults = t.defaults

section

variable {localOnly : Bool} {h₀ : Heap} {base q k : Nat} {steps : List (LevelState × Param)}
  {s s' final : LevelState} {hand : Hand} {t : Trail} {p : Param}

/-- Where a parameter that thrives is served its task goes well, without evaluating a default. -/
theorem Param.Thrives.exists_ok (hp : p.Thrives localOnly)
    (hr : Running h₀ base q ((s', p) :: steps) s k hand t) (hs : hand.Serves h₀ s'.side p) :
    ∃ k' t', (p.task localOnly).run s' q k t = .ok k' t' ∧ t'.defaults = t.defaults := by
  cases h : (p.task localOnly).run s' q k t with
  | ok k' t' => exact ⟨k', t', rfl, hp.ok hr hs (Param.task_ok h)⟩
  | error e t' => exact absurd (Param.task_error h) (hp.error hr hs e)

/-- **Steps.** Where the parameters are served, one after the other, the steps of a level go
well. -/
theorem Running.exists_ok (hr : Running h₀ base q steps s k hand t)
    (hp : ∀ step ∈ steps, step.2.Thrives localOnly) (hs : hand.Serving h₀ (turnsOf steps)) :
    ∃ k' t', Act.steps q (stepTasks localOnly steps) k t = .ok k' t' ∧
      t'.defaults = t.defaults := by
  induction steps generalizing s k hand t with
  | nil => exact ⟨k, t, rfl, rfl⟩
  | cons step steps ih =>
    obtain ⟨s', p⟩ := step
    obtain ⟨k₁, t₁, hfirst, hdefaults⟩ := (hp _ List.mem_cons_self).exists_ok hr hs.1
    obtain ⟨k', t', hrest, hdefaults'⟩ := ih (hr.step hfirst).1
      (fun step hmem => hp step (List.mem_cons_of_mem _ hmem)) hs.2
    exact ⟨k', t', bind_eq_ok.2 ⟨k₁, t₁, hfirst, hrest⟩, hdefaults'.trans hdefaults⟩

/-- The keyword hash is on the stack in the end only if it was taken out of the hand. -/
theorem StagedOnce.finish (hs : StagedOnce s hand steps)
    (hl : Plan.Linked Param.part s steps final) (h : Heap) :
    final.keywordsStaged → (hand.finish h (turnsOf steps)).keywords.isSome := by
  induction steps generalizing s hand with
  | nil =>
    obtain ⟨side, rfl⟩ := hl
    exact hs.held
  | cons step steps ih =>
    obtain ⟨⟨side, hside⟩, hl⟩ := hl
    exact ih (hs.tail h step.1.side) hl

end

/-- **Levels.** A level whose parameters thrive goes well in a full call, and evaluates no
default. -/
theorem levelAct_full {localOnly : Bool} {ps : List Param} {h₀ : Heap} {base q : Nat}
    {xs : List Value} {t : Trail} (shape : Shape Param.part ps)
    (hr : Running h₀ base q (Plan.ofList Param.part ps).steps {} 0 ⟨xs, none⟩ t)
    (hp : ∀ p ∈ ps, p.Thrives localOnly) (hf : (Level.mk ps h₀ xs).Full)
    (hn : (ps.filterMap Param.key?).Nodup) (hu : (Level.mk ps h₀ xs).keywords.keys.Nodup) :
    ∃ t', levelAct (Param.tasks localOnly ps) q t = .ok () t' ∧ t'.defaults = t.defaults := by
  have hturns : turnsOf (Plan.ofList Param.part ps).steps = shape.turns := shape.turns_eq.1
  obtain ⟨hserving, hentries⟩ := shape.serving hf hn hu
  rw [← hturns] at hserving hentries
  obtain ⟨k, t', hsteps, hdefaults⟩ := hr.exists_ok
    (fun step hstep => hp _ (Plan.mem_of_mem_ofList hstep)) hserving
  have hheld := hr.staged.finish (Plan.linked_ofList Param.part ps) h₀
  have hlevel : ∀ e t'', Act.unstage (Plan.ofList Param.part ps).final k t' ≠ .error e t'' :=
    (hr.finish hsteps).1.unstage_ne_error hheld fun _ => hentries
  rw [levelAct_eq]
  cases hunstage : Act.unstage (Plan.ofList Param.part ps).final k t' with
  | error e t'' => exact absurd hunstage (hlevel e t'')
  | ok u t'' =>
    obtain rfl := Act.unstage_ok hunstage
    exact ⟨t'', bind_eq_ok.2 ⟨k, t'', hsteps, hunstage⟩, hdefaults⟩

namespace Param

variable {localOnly : Bool} {h₀ : Heap} {base q k : Nat} {steps : List (LevelState × Param)}
  {s s' : LevelState} {hand : Hand} {t : Trail}

/-- A group that is served finds an array, and its level goes well. -/
theorem group_served {children : List Param} {span : Span} (hp : ∀ p ∈ children, p.Thrives true)
    (hacc : (group children span).Accepted false)
    (hr : Running h₀ base q ((s', group children span) :: steps) s k hand t)
    (hs : hand.Serves h₀ s'.side (group children span)) : ∃ items t',
      (s'.side.next (t.heap.arrayAt q)).elements (t.taken s'.side q).heap = .ok items ∧
      levelAct (Param.tasks true children) t.heap.arrays.size ((t.taken s'.side q).opened items) =
        .ok () t' ∧ t'.defaults = t.defaults := by
  obtain ⟨hsound, hwithin⟩ := hr.sound ⟨_, List.mem_cons_self, rfl⟩
  obtain ⟨a, ha, hfilled⟩ := (hs.value rfl).2
  have hk : ∀ p ∈ children, p.isKeyword = false := fun p hmem =>
    isKeyword_of_accepted (allAccepted_iff.1 hacc.2 p hmem)
  have hkeys : children.filterMap key? = [] :=
    List.filterMap_eq_nil_iff.2 fun p hmem => key?_eq_none (hk p hmem)
  -- only the sequence was written since the call began, so the array is what it was
  have htaken := t.heap.keeps_setArray q (s'.side.others (t.heap.arrayAt q))
  have hgrows : h₀.Grows (t.taken s'.side q).heap :=
    hr.grows.comp htaken (fun b hlt _ => Nat.ne_of_lt (Nat.lt_of_lt_of_le hlt hr.fresh.1))
      fun _ _ _ => trivial
  have hat : (t.taken s'.side q).heap.arrayAt a = h₀.arrayAt a := by
    have hin := Side.within_next hwithin s'.side
    rw [ha] at hin
    exact hgrows.arrayAt_eq a hin trivial
  obtain ⟨hlt, hitems⟩ := t.opened_taken s'.side q (h₀.arrayAt a)
  obtain ⟨shape⟩ := exists_shape hacc.1
  obtain ⟨t', hlevel, hdefaults⟩ := levelAct_full shape
    (shape.running hlt hitems (fun _ => ⟨hsound, hsound.arrayAt a⟩)
      (hgrows.trans (Heap.grows_newArray _ _)) hr.grows.arrays_le)
    hp (.plain hk hfilled) (hkeys ▸ .nil) (Level.nodup_keywords _ fun _ => hsound)
  refine ⟨h₀.arrayAt a, t', ?_, hlevel, hdefaults⟩
  rw [hr.holds.sequence_eq, ha]
  exact congrArg Except.ok hat

/-- A keyword parameter that is served finds its keyword. -/
theorem keyword_served {name : String} {default : Option Expr} {span : Span}
    (hr : Running h₀ base q ((s', keyword name default span) :: steps) s k hand t)
    (hs : hand.Serves h₀ s'.side (keyword name default span)) {k₁ : Nat} {t₁ : Trail}
    (he : Act.ensureStaged s' q k t = .ok k₁ t₁) :
    (t₁.heap.hashAt k₁).contains (.sym name) = true := by
  rw [hr.hashAt_opened rfl he]
  exact hs.keyword (.sym name) rfl

/-- A keyword parameter thrives: its keyword is given. -/
theorem thrives_keyword (name : String) (default : Option Expr) (span : Span) :
    (keyword name default span).Thrives localOnly where
  error hr hs e h := by
    cases h with
    | leftOver hk => cases hk
    | missing he hnone =>
      have hgiven := keyword_served hr hs he
      rw [Entries.contains, hnone] at hgiven
      cases hgiven
    | keyword he habsent =>
      have hgiven := keyword_served hr hs he
      rw [habsent] at hgiven
      cases hgiven
  ok hr hs _ _ h := by
    cases h with
    | keywordGiven he hv hl =>
      rw [Act.defaults_setLocal hl, Act.defaults_takeKeyword hv, Act.defaults_ensureStaged he]
    | keywordAbsent he habsent =>
      have hgiven := keyword_served hr hs he
      rw [habsent] at hgiven
      cases hgiven

/-- **Parameters.** Every parameter that is accepted thrives, if it is no attribute and has none in
it. -/
theorem task_thrives (localOnly : Bool) {inGroup : Bool} (p : Param) (hacc : p.Accepted inGroup)
    (hattr : p.NoAttr) : p.Thrives localOnly := by
  induction p generalizing localOnly inGroup with
  | required name span =>
    refine ⟨fun hr hs e h => ?_, fun hr hs k' t' h => ?_⟩
    · cases h with
      | leftOver hk hu => exact hr.unstage_ne_error (hs.taken hk) _ _ hu
    · cases h with
      | required hl => rw [Act.defaults_setLocal hl, Trail.taken]
  | optional name default span =>
    refine ⟨fun hr hs e h => ?_, fun hr hs k' t' h => ?_⟩
    · cases h with
      | leftOver hk hu => exact hr.unstage_ne_error (hs.taken hk) _ _ hu
      | optional hnil => exact (hs.value rfl).1 (hr.holds.sequence_eq.symm.trans hnil)
    · cases h with
      | given _ hl => rw [Act.defaults_setLocal hl, Trail.taken]
      | absent hnil => exact absurd (hr.holds.sequence_eq.symm.trans hnil) (hs.value rfl).1
  | rest name span =>
    refine ⟨fun hr hs e h => ?_, fun hr hs k' t' h => ?_⟩
    · cases h with
      | leftOver hk hu => exact hr.unstage_ne_error (hs.taken hk) _ _ hu
    · cases h with
      | rest hl => exact Act.defaults_share hl
  | keyword name default span => exact thrives_keyword name default span
  | keywordRest name span =>
    refine ⟨fun hr hs e h => ?_, fun hr hs k' t' h => ?_⟩
    · cases h with
      | leftOver hk => cases hk
    · cases h with
      | keywordRest he hl => exact (Act.defaults_share hl).trans (Act.defaults_ensureStaged he)
  | group children span ih =>
    have hp : ∀ p ∈ children, p.Thrives true := fun p hp =>
      ih p hp true (allAccepted_iff.1 hacc.2 p hp) (allNoAttr_iff.1 hattr p hp)
    refine ⟨fun hr hs e h => ?_, fun hr hs k' t' h => ?_⟩
    · obtain ⟨items, t', hitems, hlevel, -⟩ := group_served hp hacc hr hs
      cases h with
      | leftOver hk hu => exact hr.unstage_ne_error (hs.taken hk) _ _ hu
      | elements he =>
        rw [hitems] at he
        cases he
      | group hi hl =>
        obtain rfl := Except.ok.inj (hi.symm.trans hitems)
        rw [hlevel] at hl
        cases hl
    · obtain ⟨items, t', hitems, hlevel, hdefaults⟩ := group_served hp hacc hr hs
      cases h with
      | group hi hl =>
        obtain rfl := Except.ok.inj (hi.symm.trans hitems)
        rw [hlevel] at hl
        cases hl
        exact hdefaults
  | attr => exact hattr.elim

end Param

/-! ## Calls -/

/-- The names of the local variables that are defined. -/
theorem Trail.exists_defines (t : Trail) : ∃ names, t.Defines names := by
  refine ⟨t.scopes.flatMap Entries.keys, fun n => ?_⟩
  rw [Env.local?, List.findSome?_isSome_iff, List.mem_flatMap]
  refine exists_congr fun scope => and_congr_right fun _ => ⟨fun hsome => ?_, Entries.isSome_get?⟩
  by_contra hnot
  rw [Entries.get?_eq_none hnot] at hsome
  cases hsome

/-- **Full calls.** The call of a compiled stream for a list without attributes in which no two
keyword parameters have the same name ends well whenever it is full. It evaluates no default, and
afterwards the names of all parameters are defined. -/
theorem full_calls {list : Option ParamList} {localOnly : Bool} {code : Stream} {ps : List Param}
    {arguments : List Value} {m : Machine}
    (hc : ParamList.compile? list localOnly = .ok code) (hps : ParamList.check? list = .ok ps)
    (hattr : Param.AllNoAttr ps) (hkeywords : (ps.filterMap Param.key?).Nodup)
    (hsound : m.heap.Sound) (hargs : ∀ v ∈ arguments, v.Within m.heap)
    (hfull : (Level.mk ps m.heap arguments).Full) :
    ∃ m', bindArguments code arguments m = .ok () m' ∧
      EvaluatesNothing 0 code (entered (fun _ => arguments) m) ∧
      ∀ name ∈ Param.allNames ps, (m'.local? name).isSome := by
  obtain ⟨ps', hps', hr⟩ := compile_params_realizes hc
  obtain rfl : ps' = ps := Except.ok.inj (hps'.symm.trans hps)
  obtain ⟨hacc, hall⟩ := ParamList.check?_accepted hps
  obtain ⟨shape⟩ := exists_shape hacc
  have haccepted : ∀ p ∈ ps', p.Accepted false := Param.allAccepted_iff.1 hall
  have hp : ∀ p ∈ ps', p.Thrives localOnly := fun p hmem =>
    Param.task_thrives localOnly p (haccepted p hmem) (Param.allNoAttr_iff.1 hattr p hmem)
  obtain ⟨t, hlevel, hdefaults⟩ := levelAct_full shape
    (shape.running_entered m.toEnv arguments fun _ => ⟨hsound, hargs⟩) hp hfull hkeywords
    (Level.nodup_keywords arguments fun _ => hsound)
  have hact : callAct (fun _ => arguments) (levelAct (Param.tasks localOnly ps')) m.toEnv.trail =
      .ok () t := hlevel
  obtain ⟨argc, hcall⟩ := call_ok hr hact
  obtain ⟨before, hbefore⟩ := (m.toEnv.entered fun _ => arguments).exists_defines
  have hdefines := levelAct_defines
    (fun p hmem => Param.task_defines localOnly p (haccepted p hmem)) hacc hbefore hlevel
  exact ⟨_, hcall, call_evaluatesNothing hc hps hattr hlevel hdefaults,
    fun name hname => (hdefines name).2 (List.mem_append_right _ hname)⟩

/-- `(a, (b, *c), d = a, k:, l: 2)` is compiled. A call with a number, an array of one, a number and
a hash with `l` and `k` is full, and does not take `a` for `d`. -/
theorem nested_full_calls : ∃ code ps m m',
    ParamList.compile? (some ⟨[.required "a" {}, .group [.required "b" {}, .rest (some "c") {}] {},
      .optional "d" (.localVar "a") {}, .keyword "k" none {}, .keyword "l" (some (.int 2)) {}], {}⟩)
      true = .ok code ∧
    ParamList.check? (some ⟨[.required "a" {}, .group [.required "b" {}, .rest (some "c") {}] {},
      .optional "d" (.localVar "a") {}, .keyword "k" none {}, .keyword "l" (some (.int 2)) {}],
      {}⟩) = .ok ps ∧
    m.heap = ⟨#[[.int 2]], #[[(.sym "l", .int 3), (.sym "k", .int 4)]], #[]⟩ ∧
    (Level.mk ps m.heap [.int 1, .array 0, .int 5, .hash 0]).Full ∧
    bindArguments code [.int 1, .array 0, .int 5, .hash 0] m = .ok () m' ∧
    EvaluatesNothing 0 code (entered (fun _ => [.int 1, .array 0, .int 5, .hash 0]) m) ∧
    ∀ name ∈ Param.allNames ps, (m'.local? name).isSome := by
  have hcode : ParamList.compile? (some ⟨[.required "a" {}, .group [.required "b" {},
      .rest (some "c") {}] {}, .optional "d" (.localVar "a") {}, .keyword "k" none {},
      .keyword "l" (some (.int 2)) {}], {}⟩) true =
      .ok [⟨.arrayShift, {}⟩, ⟨.localSet "a" true, {}⟩, ⟨.arrayShift, {}⟩, ⟨.dup, {}⟩,
        ⟨.toArray, {}⟩, ⟨.arrayShift, {}⟩, ⟨.localSet "b" true, {}⟩, ⟨.dup, {}⟩,
        ⟨.localSet "c" true, {}⟩, ⟨.pop, {}⟩, ⟨.pop, {}⟩, ⟨.stageKeywords, {}⟩,
        ⟨.hasKeyword "l", {}⟩, ⟨.ifTrue, {}⟩, ⟨.takeKeyword "l", {}⟩, ⟨.orElse, {}⟩,
        ⟨.pushInt 2, {}⟩, ⟨.endIf, {}⟩, ⟨.localSet "l" true, {}⟩, ⟨.takeKeyword "k", {}⟩,
        ⟨.localSet "k" true, {}⟩, ⟨.checkKeywords, {}⟩, ⟨.pop, {}⟩, ⟨.arrayIsEmpty, {}⟩,
        ⟨.ifTrue, {}⟩, ⟨.localGet "a", {}⟩, ⟨.orElse, {}⟩, ⟨.arrayShift, {}⟩, ⟨.endIf, {}⟩,
        ⟨.localSet "d" true, {}⟩, ⟨.pop, {}⟩] := by
    cbv
  have hcheck : ParamList.check? (some ⟨[.required "a" {}, .group [.required "b" {},
      .rest (some "c") {}] {}, .optional "d" (.localVar "a") {}, .keyword "k" none {},
      .keyword "l" (some (.int 2)) {}], {}⟩) =
      .ok [.required "a" {}, .group [.required "b" {}, .rest (some "c") {}] {},
        .optional "d" (.localVar "a") {}, .keyword "k" none {},
        .keyword "l" (some (.int 2)) {}] := by
    cbv
  have hsound : Heap.Sound ⟨#[[.int 2]], #[[(.sym "l", .int 3), (.sym "k", .int 4)]], #[]⟩ := by
    refine ⟨fun items hi v hv => ?_, fun entries he => ?_⟩
    · obtain rfl : items = [.int 2] := by simpa using hi
      obtain rfl := List.mem_singleton.1 hv
      exact trivial
    · obtain rfl : entries = [(.sym "l", .int 3), (.sym "k", .int 4)] := by simpa using he
      decide
  have hfull : (Level.mk [.required "a" {}, .group [.required "b" {}, .rest (some "c") {}] {},
      .optional "d" (.localVar "a") {}, .keyword "k" none {}, .keyword "l" (some (.int 2)) {}]
      ⟨#[[.int 2]], #[[(.sym "l", .int 3), (.sym "k", .int 4)]], #[]⟩
      [.int 1, .array 0, .int 5, .hash 0]).Full := by
    refine @Level.Full.keywords _ [.int 1, .array 0, .int 5] 0 ⟨.keyword "k" none {}, by simp, rfl⟩
      ?_ rfl fun key => ?_
    · exact ⟨_, _, rfl, trivial, _, _, rfl, ⟨0, rfl, _, _, rfl, trivial, rfl⟩, _, _, rfl, trivial,
        rfl⟩
    · show key ∈ [Key.sym "l", .sym "k"] ↔ key ∈ [Key.sym "k", .sym "l"]
      simp [or_comm]
  obtain ⟨m', hrun, hnothing, hnames⟩ := full_calls hcode hcheck
    (m := ⟨{ heap := ⟨#[[.int 2]], #[[(.sym "l", .int 3), (.sym "k", .int 4)]], #[]⟩,
             selfValue := .nil }, [], 0⟩)
    (by simp [Param.AllNoAttr, Param.NoAttr]) (by decide) hsound (by simp [Value.Within]) hfull
  exact ⟨_, _, _, m', hcode, hcheck, rfl, hfull, hrun, hnothing, hnames⟩

/-- Two keyword parameters of one name are accepted if it begins with `_`. The first one takes the
keyword, and the second one is missing it. -/
theorem repeated_keyword_missing : ∃ code ps m m',
    ParamList.compile? (some ⟨[.keyword "_k" none {}, .keyword "_k" none {}], {}⟩) true = .ok code ∧
    ParamList.check? (some ⟨[.keyword "_k" none {}, .keyword "_k" none {}], {}⟩) = .ok ps ∧
    Param.AllNoAttr ps ∧ m.heap = { hashes := #[[(.sym "_k", .int 1)]] } ∧ m.heap.Sound ∧
    (Level.mk ps m.heap [.hash 0]).Full ∧
    bindArguments code [.hash 0] m = .error (.missingKeyword "_k") m' := by
  have hcode : ParamList.compile? (some ⟨[.keyword "_k" none {}, .keyword "_k" none {}], {}⟩) true =
      .ok [⟨.stageKeywords, {}⟩, ⟨.takeKeyword "_k", {}⟩, ⟨.localSet "_k" true, {}⟩,
        ⟨.takeKeyword "_k", {}⟩, ⟨.localSet "_k" true, {}⟩, ⟨.checkKeywords, {}⟩, ⟨.pop, {}⟩,
        ⟨.pop, {}⟩] := by
    cbv
  have hcheck : ParamList.check? (some ⟨[.keyword "_k" none {}, .keyword "_k" none {}], {}⟩) =
      .ok [.keyword "_k" none {}, .keyword "_k" none {}] := by
    cbv
  have hsound : Heap.Sound { hashes := #[[(.sym "_k", .int 1)]] } := by
    refine ⟨by simp, fun entries he => ?_⟩
    obtain rfl : entries = [(.sym "_k", .int 1)] := by simpa using he
    exact List.pairwise_singleton _ _
  refine ⟨_, _, ⟨{ heap := _, selfValue := .nil }, [], 0⟩, _, hcode, hcheck, ?_, rfl, hsound, ?_,
    by cbv⟩
  · simp [Param.AllNoAttr, Param.NoAttr]
  · refine @Level.Full.keywords _ [] 0 ⟨.keyword "_k" none {}, by simp, rfl⟩ rfl rfl fun key => ?_
    show key ∈ [Key.sym "_k"] ↔ key ∈ [Key.sym "_k", .sym "_k"]
    simp

end Formals
