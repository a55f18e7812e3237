import Formals.Machine.Run
import Formals.Proofs.Order
import Mathlib.Data.List.TakeWhile

/-!
# Shares

What a parameter receives is its `Share`. `Level.share` says what the share is, from the place of
the parameter on its level alone: the required parameters in front take values from the left end,
the required parameters behind take values from the right end, the keyword hash is the last value
that the parameters in front leave, and the optional parameters and the rest divide what is left
between.

Binding deals the shares one after the other: a `Hand` is what is left of the values of a level, and
`Hand.deals` are the shares that are dealt in some order. `Shape.share_mem_deals` says that the
order in which a level is bound deals every parameter the share that is due to it.
-/

namespace Formals

/-! ## Erasing keys -/

namespace Entries

variable {κ α : Type} [DecidableEq κ] {key other : κ} {entries : Entries κ α}

/-- Erasing a key leaves the values of the others. -/
theorem get?_erase (h : key ≠ other) : (entries.erase key).get? other = entries.get? other := by
  induction entries with
  | nil => rfl
  | cons e rest ih =>
    obtain ⟨k, v⟩ := e
    by_cases hk : k = key
    · subst hk
      simp only [erase, if_true, get?, if_neg h]
    · simp only [erase, if_neg hk, get?, ih]

/-- Erasing a key that has no value. -/
theorem erase_of_get?_eq_none (h : entries.get? key = none) : entries.erase key = entries := by
  induction entries with
  | nil => rfl
  | cons e rest ih =>
    obtain ⟨k, v⟩ := e
    by_cases hk : k = key
    · simp only [get?, if_pos hk] at h
      cases h
    · simp only [get?, if_neg hk] at h
      simp only [erase, if_neg hk, ih h]

/-- Erasing a key that stands in a table at most once. -/
theorem erase_eq_filter (h : entries.keys.Nodup) :
    entries.erase key = entries.filter fun e => e.1 ≠ key := by
  induction entries with
  | nil => rfl
  | cons e rest ih =>
    obtain ⟨k, v⟩ := e
    obtain ⟨hk, hrest⟩ := List.nodup_cons.1 h
    by_cases he : k = key
    · subst he
      have hall : ∀ e ∈ rest, e.1 ≠ k := fun e hmem heq => hk (List.mem_map.2 ⟨e, hmem, heq⟩)
      simp only [erase, if_true]
      rw [List.filter_cons_of_neg (by simp), List.filter_eq_self.2 (by simpa using hall)]
    · simp only [erase, if_neg he]
      rw [List.filter_cons_of_pos (by simpa using he), ih hrest]

/-- A key that does not stand in a table has no value there. -/
theorem get?_eq_none (h : key ∉ entries.keys) : entries.get? key = none := by
  induction entries with
  | nil => rfl
  | cons e rest ih =>
    obtain ⟨k, v⟩ := e
    obtain ⟨hk, hrest⟩ := List.ne_and_not_mem_of_not_mem_cons h
    rw [get?, if_neg (Ne.symm hk)]
    exact ih hrest

/-- A key that stands in a table has a value there. -/
theorem isSome_get? (h : key ∈ entries.keys) : (entries.get? key).isSome := by
  induction entries with
  | nil => cases h
  | cons e rest ih =>
    obtain ⟨k, v⟩ := e
    rw [get?]
    split
    · rfl
    · rename_i hk
      exact ih ((List.mem_cons.1 h).resolve_left (Ne.symm hk))

/-- A key that is erased from a table without a key twice has no value there. -/
theorem get?_erase_self (h : entries.keys.Nodup) : (entries.erase key).get? key = none := by
  rw [erase_eq_filter h]
  refine get?_eq_none fun hmem => ?_
  obtain ⟨e, he, hkey⟩ := List.mem_map.1 hmem
  have := (List.mem_filter.1 he).2
  simp [hkey] at this

omit [DecidableEq κ] in
/-- What is left of a table has no key twice if the table has none. -/
theorem nodup_keys_filter (h : entries.keys.Nodup) (f : κ × α → Bool) :
    (keys (entries.filter f)).Nodup :=
  h.sublist (List.filter_sublist.map _)

end Entries

/-! ## The shares of a level -/

/-- What a parameter receives. -/
inductive Share where
  | value (v : Value)
  /-- Nothing, so that the default counts. -/
  | absent
  /-- An array of what the others leave. -/
  | items (vs : List Value)
  /-- A hash of the keywords that the others leave. -/
  | entries (es : Entries Key Value)

/-- The share of a value that may be missing. -/
def Share.ofOption : Option Value → Share
  | some v => .value v
  | none => .absent

/-- The key under which a parameter finds its value in the keyword hash. -/
def Param.key? : Param → Option Key
  | .keyword name _ _ => some (.sym name)
  | _ => none

/-- How many of some parameters play a part. -/
def Param.count (part : Part) (ps : List Param) : Nat := ps.countP (·.part = part)

/-- A level that is bound: its parameters, and the values to which they are bound, in a heap. -/
structure Level where
  params : List Param
  heap : Heap
  values : List Value

namespace Level

/-- How many required parameters stand in front: before the first optional parameter if there is
one, and otherwise before the rest. -/
def leading (l : Level) : Nat :=
  let stop : Part := if l.params.any (·.part = .optional) then .optional else .rest
  Param.count .positional (l.params.takeWhile (·.part ≠ stop))

/-- How many required parameters stand behind. -/
def trailing (l : Level) : Nat := Param.count .positional l.params - l.leading

/-- The keyword hash, if some parameter wants one: the last of the values that the parameters in
front leave, if that is a hash with symbols for keys. -/
def hash? (l : Level) : Option (Entries Key Value) :=
  if l.params.any Param.isKeyword then Machine.stagedHash? l.heap (l.values.drop l.leading)
  else none

/-- The keywords that are given. -/
def keywords (l : Level) : Entries Key Value := l.hash?.getD []

/-- The values that the parameters in front leave, without the keyword hash. -/
def sequence (l : Level) : List Value :=
  match l.hash? with
  | some _ => (l.values.drop l.leading).dropLast
  | none => l.values.drop l.leading

/-- The values that the required parameters leave. -/
def between (l : Level) : List Value := l.sequence.take (l.sequence.length - l.trailing)

/-- The value that is left for a required parameter, of which `i` others stand before it. Those
behind count from the right end. Where there are too few values, it is `nil`. -/
def required (l : Level) (i : Nat) : Value :=
  if i < l.leading then l.values[i]?.getD .nil
  else if l.trailing ≤ l.sequence.length + (i - l.leading) then
    l.sequence[l.sequence.length + (i - l.leading) - l.trailing]?.getD .nil
  else .nil

/-- The share of a parameter, which stands behind the parameters `before`. -/
def share (l : Level) (before : List Param) : Param → Share
  | .required .. | .group .. | .attr .. => .value (l.required (Param.count .positional before))
  | .optional .. => .ofOption l.between[Param.count .optional before]?
  | .rest .. => .items (l.between.drop (Param.count .optional l.params))
  | .keyword name _ _ => .ofOption (l.keywords.get? (.sym name))
  | .keywordRest .. => .entries (l.keywords.filter fun e => e.1 ∉ l.params.filterMap Param.key?)

end Level

/-! ## Dealing the shares -/

/-- What is left of the values of a level, and of the keyword hash once that is taken out. -/
structure Hand where
  items : List Value
  keywords : Option (Entries Key Value) := none

/-- The next value at an end. -/
def Side.next (side : Side) (items : List Value) : Value :=
  match side with
  | .left => items.headD .nil
  | .right => items.getLastD .nil

/-- The values without the one at an end. -/
def Side.others (side : Side) (items : List Value) : List Value :=
  match side with
  | .left => items.tail
  | .right => items.dropLast

/-- The next value on the left of what is left when some values are gone. -/
theorem Side.next_drop (items : List Value) (n : Nat) :
    Side.left.next (items.drop n) = items[n]?.getD .nil := by
  rw [Side.next, List.headD_eq_head?_getD, List.head?_drop]

/-- The next value on the right of what is left when some values are gone. -/
theorem Side.next_take (items : List Value) (n : Nat) :
    Side.right.next (items.take (items.length - n)) =
      if n < items.length then items[items.length - (n + 1)]?.getD .nil else .nil := by
  rw [Side.next, List.getLastD_eq_getLast?, List.getLast?_take]
  by_cases h : n < items.length
  · have hlt : items.length - (n + 1) < items.length := by omega
    rw [if_neg (by omega), if_pos h, Nat.sub_sub, List.getElem?_eq_getElem hlt]
    rfl
  · rw [if_pos (by omega), if_neg h]
    rfl

/-- The value that is left for a required parameter behind, with `k` others behind it. -/
theorem Level.required_behind {l : Level} {j k : Nat} (h : l.trailing = j + (k + 1)) :
    l.required (l.leading + j) = Side.right.next (l.sequence.take (l.sequence.length - k)) := by
  rw [Level.required, Side.next_take, if_neg (by omega), Nat.add_sub_cancel_left, h]
  by_cases hk : k < l.sequence.length
  · rw [if_pos (by omega), if_pos hk]
    congr 2
    omega
  · rw [if_neg (by omega), if_neg hk]

/-- The share of a parameter that has to be given: the value that is left for it, by how many such
stand before it. -/
theorem Level.share_positional {l : Level} {before : List Param} {p : Param}
    (hp : p.part = .positional) :
    l.share before p = .value (l.required (Param.count .positional before)) := by
  cases p <;> first | rfl | cases hp

/-- The share of an optional parameter: the value that the required ones leave at its place, if
there is one. -/
theorem Level.share_optional {l : Level} {before : List Param} {p : Param}
    (hp : p.part = .optional) :
    l.share before p = .ofOption l.between[Param.count .optional before]? := by
  cases p <;> first | rfl | cases hp

namespace Hand

/-- The keywords that are left. -/
def entries (hand : Hand) : Entries Key Value := hand.keywords.getD []

/-- The hand after the keyword hash is taken out of the values, if it was not before. -/
def opened (h : Heap) (hand : Hand) : Hand :=
  match hand.keywords with
  | some _ => hand
  | none =>
    match Machine.stagedHash? h hand.items with
    | some entries => ⟨hand.items.dropLast, some entries⟩
    | none => ⟨hand.items, some []⟩

/-- The hand after a parameter has its share. -/
def after (h : Heap) (hand : Hand) (side : Side) : Param → Hand
  | .required .. | .group .. | .attr .. => ⟨side.others hand.items, hand.keywords⟩
  | .optional .. => ⟨hand.items.tail, hand.keywords⟩
  | .rest .. => hand
  | .keyword name _ _ =>
    ⟨(hand.opened h).items, some ((hand.opened h).entries.erase (.sym name))⟩
  | .keywordRest .. => hand.opened h

/-- The share that a parameter gets. A rest shares the values with the others, and so has in the end
what is left in the `final` hand. -/
def share (h : Heap) (hand final : Hand) (side : Side) : Param → Share
  | .required .. | .group .. | .attr .. => .value (side.next hand.items)
  | .optional .. => .ofOption hand.items.head?
  | .rest .. => .items final.items
  | .keyword name _ _ => .ofOption ((hand.opened h).entries.get? (.sym name))
  | .keywordRest .. => .entries final.entries

/-- The hand after some parameters have their shares. -/
def finish (h : Heap) (hand : Hand) : List (Side × Param) → Hand
  | [] => hand
  | (side, p) :: turns => finish h (hand.after h side p) turns

/-- The shares that are dealt, turn by turn. -/
def deals (h : Heap) (hand final : Hand) : List (Side × Param) → List (Param × Share)
  | [] => []
  | (side, p) :: turns =>
    (p, hand.share h final side p) :: deals h (hand.after h side p) final turns

variable {h : Heap} {final hand : Hand} {side : Side} {p : Param} {ps : List Param}

/-- After turns in a row the hand is that after the first ones and then after the others. -/
theorem finish_append (a b : List (Side × Param)) :
    hand.finish h (a ++ b) = (hand.finish h a).finish h b := by
  induction a generalizing hand with
  | nil => rfl
  | cons turn a ih => exact ih

/-- What is dealt in the middle of some turns. -/
theorem share_mem_deals (a b : List (Side × Param)) :
    (p, (hand.finish h a).share h final side p) ∈ hand.deals h final (a ++ (side, p) :: b) := by
  induction a generalizing hand with
  | nil => exact List.mem_cons_self
  | cons turn a ih => exact List.mem_cons_of_mem _ ih

/-- What is dealt behind some turns. -/
theorem mem_deals_append {x : Param × Share} (a : List (Side × Param)) {b : List (Side × Param)}
    (hx : x ∈ (hand.finish h a).deals h final b) : x ∈ hand.deals h final (a ++ b) := by
  induction a generalizing hand with
  | nil => exact hx
  | cons turn a ih => exact List.mem_cons_of_mem _ (ih hx)

/-- What is dealt among turns from one side. -/
theorem mem_deals_sided {share : Share} (a : List Param) {b : List Param}
    (hshare : (hand.finish h (Shape.sided side a)).share h final side p = share)
    (turns : List (Side × Param)) :
    (p, share) ∈ hand.deals h final (Shape.sided side (a ++ p :: b) ++ turns) := by
  rw [Shape.sided_append, List.append_assoc, ← hshare]
  exact share_mem_deals (Shape.sided side a) (Shape.sided side b ++ turns)

/-! ## Runs of turns -/

/-- A parameter that has to be given takes the next value at its end. -/
theorem after_positional (hp : p.part = .positional) :
    hand.after h side p = ⟨side.others hand.items, hand.keywords⟩ := by
  cases p <;> first | rfl | cases hp

/-- A parameter that has to be given has the next value at its end, or `nil`. -/
theorem share_positional (hp : p.part = .positional) :
    hand.share h final side p = .value (side.next hand.items) := by
  cases p <;> first | rfl | cases hp

/-- An optional parameter takes the next value on the left. -/
theorem after_optional (hp : p.part = .optional) :
    hand.after h .left p = ⟨hand.items.tail, hand.keywords⟩ := by
  cases p <;> first | rfl | cases hp

/-- An optional parameter has the next value on the left, if there is one. -/
theorem share_optional (hp : p.part = .optional) :
    hand.share h final side p = .ofOption hand.items.head? := by
  cases p <;> first | rfl | cases hp

/-- A rest takes nothing: it shares what is left. -/
theorem after_rest (hp : p.part = .rest) : hand.after h side p = hand := by
  cases p <;> first | rfl | cases hp

/-- Taking values from the left. -/
theorem finish_left (hp : ∀ p ∈ ps, p.part = .positional ∨ p.part = .optional) :
    hand.finish h (Shape.sided .left ps) = ⟨hand.items.drop ps.length, hand.keywords⟩ := by
  induction ps generalizing hand with
  | nil => rfl
  | cons p ps ih =>
    have hfirst : hand.after h .left p = ⟨hand.items.tail, hand.keywords⟩ := by
      rcases hp p List.mem_cons_self with hp | hp
      · exact after_positional hp
      · exact after_optional hp
    rw [Shape.sided, List.map_cons, finish, hfirst]
    refine (ih fun p h => hp p (List.mem_cons_of_mem _ h)).trans ?_
    rw [List.drop_tail, List.length_cons]

/-- Taking values from the right. -/
theorem finish_right (hp : ∀ p ∈ ps, p.part = .positional) :
    hand.finish h (Shape.sided .right ps) =
      ⟨hand.items.take (hand.items.length - ps.length), hand.keywords⟩ := by
  induction ps generalizing hand with
  | nil =>
    rw [List.length_nil, Nat.sub_zero, List.take_length]
    rfl
  | cons p ps ih =>
    rw [Shape.sided, List.map_cons, finish, after_positional (hp p List.mem_cons_self)]
    refine (ih fun p h => hp p (List.mem_cons_of_mem _ h)).trans ?_
    simp only [Side.others, List.dropLast_eq_take, List.take_take, List.length_take,
      List.length_cons]
    congr 2
    omega

/-- The keywords that some parameters leave. -/
def erasing (ps : List Param) (entries : Entries Key Value) : Entries Key Value :=
  (ps.filterMap Param.key?).foldl (fun entries key => entries.erase key) entries

/-- What some parameters and then others leave of the keywords is what all of them leave. -/
theorem erasing_append (a b : List Param) (entries : Entries Key Value) :
    erasing (a ++ b) entries = erasing b (erasing a entries) := by
  rw [erasing, List.filterMap_append, List.foldl_append]
  rfl

/-- A key that no parameter takes keeps its value. -/
theorem get?_erasing {key : Key} (hk : key ∉ ps.filterMap Param.key?)
    (entries : Entries Key Value) : (erasing ps entries).get? key = entries.get? key := by
  unfold erasing
  generalize ps.filterMap Param.key? = keys at hk
  induction keys generalizing entries with
  | nil => rfl
  | cons k keys ih =>
    rw [List.mem_cons, not_or] at hk
    rw [List.foldl_cons, ih _ hk.2, Entries.get?_erase (Ne.symm hk.1)]

/-- What is left are the entries whose keys no parameter takes. -/
theorem erasing_eq_filter {entries : Entries Key Value} (hn : entries.keys.Nodup) :
    erasing ps entries = entries.filter fun e => e.1 ∉ ps.filterMap Param.key? := by
  unfold erasing
  induction ps.filterMap Param.key? generalizing entries with
  | nil => exact (List.filter_eq_self.2 fun _ _ => by simp).symm
  | cons k keys ih =>
    rw [List.foldl_cons, Entries.erase_eq_filter hn, ih (Entries.nodup_keys_filter hn _),
      List.filter_filter]
    refine List.filter_congr fun e _ => ?_
    simp [Bool.and_comm]

/-- Nothing is left of a keyword hash all of whose keywords are taken. -/
theorem erasing_eq_nil {entries : Entries Key Value} (hu : entries.keys.Nodup)
    (hkeys : ∀ key ∈ entries.keys, key ∈ ps.filterMap Param.key?) : erasing ps entries = [] := by
  rw [erasing_eq_filter hu]
  refine List.filter_eq_nil_iff.2 fun e he => ?_
  simpa using hkeys e.1 (List.mem_map_of_mem he)

/-- The hand after some parameters took their keywords. -/
def without (hand : Hand) (ps : List Param) : Hand := ⟨hand.items, some (erasing ps hand.entries)⟩

/-- Parameters that take their keywords after others take them with these. -/
theorem without_without (a b : List Param) :
    (hand.without a).without b = hand.without (a ++ b) := by
  rw [without, without, without, erasing_append]
  rfl

/-- The keyword hash is taken out only once. -/
theorem opened_of_some {entries : Entries Key Value} (hk : hand.keywords = some entries) :
    hand.opened h = hand := by
  rw [opened, hk]

/-- A hand that is opened has keywords, if maybe none in them. -/
theorem keywords_opened : (hand.opened h).keywords = some (hand.opened h).entries := by
  unfold opened entries
  split
  · rename_i hk
    rw [hk]
    rfl
  · split <;> rfl

/-- A keyword parameter opens the hand and takes its keyword, and a keyword rest takes none. -/
theorem after_hashed (hp : p.isKeyword = true) :
    hand.after h side p = (hand.opened h).without [p] := by
  cases p with
  | keyword name default span => rfl
  | keywordRest name span =>
    show hand.opened h = ⟨(hand.opened h).items, some (hand.opened h).entries⟩
    rw [← keywords_opened]
  | _ => cases hp

/-- Taking keywords, when the hash is taken out. -/
theorem finish_opened (hp : ∀ p ∈ ps, p.isKeyword = true) {entries : Entries Key Value}
    (hk : hand.keywords = some entries) :
    hand.finish h (Shape.sided side ps) = hand.without ps := by
  induction ps generalizing hand entries with
  | nil =>
    have : hand.entries = entries := by rw [Hand.entries, hk]; rfl
    show hand = ⟨hand.items, some hand.entries⟩
    rw [this, ← hk]
  | cons p ps ih =>
    have hfirst : hand.after h side p = hand.without [p] := by
      rw [after_hashed (hp p List.mem_cons_self), opened_of_some hk]
    have hsome : (hand.without [p]).keywords = some (erasing [p] hand.entries) := rfl
    rw [Shape.sided, List.map_cons, finish, hfirst]
    refine (ih (fun p h => hp p (List.mem_cons_of_mem _ h)) hsome).trans ?_
    rw [without_without, List.singleton_append]

/-- Taking keywords, of which there are some. -/
theorem finish_hashed (hp : ∀ p ∈ ps, p.isKeyword = true) (hne : ps ≠ []) :
    hand.finish h (Shape.sided side ps) = (hand.opened h).without ps := by
  obtain ⟨p, ps, rfl⟩ := List.exists_cons_of_ne_nil hne
  have hsome : ((hand.opened h).without [p]).keywords =
      some (erasing [p] (hand.opened h).entries) := rfl
  rw [Shape.sided, List.map_cons, finish, after_hashed (hp p List.mem_cons_self)]
  refine (finish_opened (fun p h => hp p (List.mem_cons_of_mem _ h)) hsome).trans ?_
  rw [without_without, List.singleton_append]

/-- The keywords that are left behind some that were taken. -/
theorem opened_finish_hashed (hp : ∀ p ∈ ps, p.isKeyword = true) :
    (hand.finish h (Shape.sided side ps)).opened h = (hand.opened h).without ps := by
  cases ps with
  | nil =>
    show hand.opened h = ⟨(hand.opened h).items, some (hand.opened h).entries⟩
    rw [← keywords_opened]
  | cons p ps =>
    rw [finish_hashed hp (List.cons_ne_nil p ps)]
    exact opened_of_some rfl

end Hand

/-! ## The place of a parameter -/

namespace Param

/-- How many parameters play a part adds up. -/
theorem count_append (part : Part) (a b : List Param) :
    count part (a ++ b) = count part a + count part b := List.countP_append

/-- How many parameters play a part, when all play one. -/
theorem count_of_part {ps : List Param} {q : Part} (hp : ∀ p ∈ ps, p.part = q) (part : Part) :
    count part ps = if q = part then ps.length else 0 := by
  split
  · rename_i hq
    exact List.countP_eq_length.2 fun p hmem => decide_eq_true ((hp p hmem).trans hq)
  · rename_i hq
    exact List.countP_eq_zero.2 fun p hmem => by simpa [hp p hmem] using hq

/-- A parameter that plays another part is no keyword. -/
theorem isKeyword_eq_false {p : Param} {part : Part} (hp : p.part = part)
    (hk : part ≠ .keyword ∧ part ≠ .keywordRest) : p.isKeyword = false := by
  rw [isKeyword, hp, decide_eq_false hk.1, decide_eq_false hk.2]
  rfl

end Param

namespace Shape

variable {ps : List Param} (s : Shape Param.part ps)

/-- The rest of a level is a rest, if there is one. -/
theorem part_rest_toList : ∀ p ∈ s.rest.toList, p.part = .rest :=
  fun p hp => s.part_rest p (Option.mem_toList.1 hp)

/-- The parameters that look at the keyword hash are keywords. -/
theorem isKeyword_hashed : ∀ p ∈ s.hashed, p.isKeyword = true := by
  intro p hp
  rcases List.mem_append.1 hp with hp | hp
  · rw [Param.isKeyword, s.part_keywords p hp]
    rfl
  · rw [Param.isKeyword, s.part_keywordRest p (Option.mem_toList.1 hp)]
    rfl

/-- The parameters that look at the keyword hash are keyword parameters or a keyword rest. -/
theorem part_hashed : ∀ p ∈ s.hashed, p.part = .keyword ∨ p.part = .keywordRest := by
  intro p hp
  rcases List.mem_append.1 hp with hp | hp
  · exact .inl (s.part_keywords p hp)
  · exact .inr (s.part_keywordRest p (Option.mem_toList.1 hp))

/-- No other part is played by the parameters that look at the keyword hash. -/
theorem count_hashed (part : Part) (hpart : part ≠ .keyword ∧ part ≠ .keywordRest) :
    Param.count part s.hashed = 0 := by
  refine List.countP_eq_zero.2 fun p hp => ?_
  rcases s.part_hashed p hp with h | h
  · simpa [h] using hpart.1.symm
  · simpa [h] using hpart.2.symm

/-- The optional parameters of a level stand in one stretch. -/
theorem count_optional : Param.count .optional ps = s.optionals.length := by
  refine (congrArg (Param.count .optional) s.items_eq).trans ?_
  simp only [Param.count_append, ← List.append_assoc, Param.count_of_part s.part_leading,
    Param.count_of_part s.part_optionals, Param.count_of_part s.part_middle,
    Param.count_of_part s.part_rest_toList, Param.count_of_part s.part_tail]
  have := s.count_hashed .optional (by decide)
  rw [hashed, Param.count_append] at this
  simp
  omega

/-- The parameters of a level that have to be given stand in front, in the middle and behind the
rest. -/
theorem count_positional : Param.count .positional ps =
    s.leading.length + s.middle.length + s.tail.length := by
  refine (congrArg (Param.count .positional) s.items_eq).trans ?_
  simp only [Param.count_append, ← List.append_assoc, Param.count_of_part s.part_leading,
    Param.count_of_part s.part_optionals, Param.count_of_part s.part_middle,
    Param.count_of_part s.part_rest_toList, Param.count_of_part s.part_tail]
  have := s.count_hashed .positional (by decide)
  rw [hashed, Param.count_append] at this
  simp
  omega

/-- A level has an optional parameter if the stretch of them is not empty. -/
theorem any_optional : ps.any (·.part = .optional) = !s.optionals.isEmpty := by
  have h := s.count_optional
  cases ho : s.optionals with
  | nil =>
    rw [ho, List.length_nil, Param.count, List.countP_eq_zero] at h
    rw [List.isEmpty_nil, Bool.not_true, List.any_eq_false]
    exact h
  | cons p others =>
    rw [ho, List.length_cons] at h
    rw [List.isEmpty_cons, Bool.not_false, List.any_eq_true]
    exact List.countP_pos_iff.1 (by rw [Param.count] at h; omega)

/-- The parameters in front. -/
theorem takeWhile_eq {stop : Part}
    (hl : ∀ p ∈ s.leading, p.part ≠ stop) (others : List Param) (hps : ps = s.leading ++ others) :
    ps.takeWhile (·.part ≠ stop) = s.leading ++ others.takeWhile (·.part ≠ stop) := by
  refine (congrArg (List.takeWhile _) hps).trans ?_
  exact List.takeWhile_append_of_pos fun p hp => decide_eq_true (hl p hp)

/-- The required parameters that the shares count as those in front are the ones in front of the
shape. -/
theorem leading_eq (h : Heap) (xs : List Value) :
    (Level.mk ps h xs).leading = s.leading.length := by
  have hcount : Param.count .positional s.leading = s.leading.length := by
    rw [Param.count_of_part s.part_leading, if_pos rfl]
  have hstop : ∀ stop : Part, stop ≠ .positional → ∀ p ∈ s.leading, p.part ≠ stop :=
    fun stop hs p hp => by
      rw [s.part_leading p hp]
      exact hs.symm
  simp only [Level.leading, s.any_optional]
  cases ho : s.optionals with
  | cons p others =>
    have hp : p.part = .optional := s.part_optionals p (by simp [ho])
    simp only [List.isEmpty_cons, Bool.not_false, if_true]
    rw [s.takeWhile_eq (hstop .optional (by decide)) _ s.items_eq, ho, List.cons_append,
      List.takeWhile_cons_of_neg (by simp [hp]), List.append_nil, hcount]
  | nil =>
    simp only [List.isEmpty_nil, Bool.not_true, Bool.false_eq_true, if_false]
    rw [s.takeWhile_eq (hstop .rest (by decide)) _ s.items_eq, ho, s.middle_nil ho]
    cases hr : s.rest with
    | some r =>
      have hp : r.part = .rest := s.part_rest r (by simp [hr])
      simp only [List.nil_append, Option.toList_some, List.singleton_append]
      rw [List.takeWhile_cons_of_neg (by simp [hp]), List.append_nil, hcount]
    | none =>
      rw [s.tail_nil hr]
      simp only [List.nil_append, Option.toList_none]
      have hall : ∀ p ∈ s.keywords ++ s.keywordRest.toList, decide (p.part ≠ .rest) = true := by
        intro p hp
        rcases s.part_hashed p hp with h | h <;> rw [h] <;> rfl
      rw [List.takeWhile_eq_self_iff.2 hall, Param.count_append, hcount]
      have := s.count_hashed .positional (by decide)
      rw [hashed] at this
      omega

/-- The required parameters that the shares count as those behind stand in the middle and behind the
rest. -/
theorem trailing_eq (h : Heap) (xs : List Value) :
    (Level.mk ps h xs).trailing = s.middle.length + s.tail.length := by
  rw [Level.trailing, s.leading_eq, s.count_positional]
  omega

/-! ## The turns of a level -/

/-- A level looks at the keyword hash if it has a parameter that does. -/
theorem any_isKeyword : ps.any Param.isKeyword = !s.hashed.isEmpty := by
  have hno : ∀ {part : Part} {qs : List Param}, (∀ p ∈ qs, p.part = part) →
      part ≠ .keyword ∧ part ≠ .keywordRest → qs.any Param.isKeyword = false := fun hqs hk =>
    List.any_eq_false.2 fun p hp => by rw [Param.isKeyword_eq_false (hqs p hp) hk]; decide
  refine (congrArg (List.any · Param.isKeyword) s.items_eq).trans ?_
  simp only [List.any_append, hno s.part_leading (by decide), hno s.part_optionals (by decide),
    hno s.part_middle (by decide), hno s.part_rest_toList (by decide), hno s.part_tail (by decide),
    Bool.false_or]
  rw [← List.any_append]
  show s.hashed.any Param.isKeyword = _
  cases hh : s.hashed with
  | nil => rfl
  | cons p others =>
    rw [List.any_cons, s.isKeyword_hashed p (by simp [hh])]
    rfl

variable (h : Heap) (xs : List Value)

/-- What the required parameters in front leave. -/
def start : Hand := ⟨xs.drop s.leading.length, none⟩

/-- The required parameters in front leave the values behind theirs. -/
theorem finish_leading : Hand.finish h ⟨xs, none⟩ (sided .left s.leading) = s.start xs :=
  Hand.finish_left fun p hp => .inl (s.part_leading p hp)

/-- The keyword hash is taken out of what the parameters in front leave. -/
theorem opened_start (hne : s.hashed ≠ []) : (s.start xs).opened h =
    ⟨(Level.mk ps h xs).sequence, some (Level.mk ps h xs).keywords⟩ := by
  have hany : ps.any Param.isKeyword = true := by
    rw [s.any_isKeyword, List.isEmpty_eq_false_iff.2 hne]
    rfl
  simp only [Level.sequence, Level.keywords, Level.hash?, hany, if_true, s.leading_eq]
  show (match Machine.stagedHash? h (xs.drop s.leading.length) with
    | some entries => (⟨(xs.drop s.leading.length).dropLast, some entries⟩ : Hand)
    | none => ⟨xs.drop s.leading.length, some []⟩) = _
  cases Machine.stagedHash? h (xs.drop s.leading.length) <;> rfl

/-- Without keyword parameters no keyword hash is taken out. -/
theorem hash?_eq_none (hnil : s.hashed = []) : (Level.mk ps h xs).hash? = none := by
  have hany : ps.any Param.isKeyword = false := by
    rw [s.any_isKeyword, hnil]
    rfl
  rw [Level.hash?, hany]
  rfl

/-- The hand when the keyword parameters had their turns. -/
theorem finish_hashed {hs : List Param} (hp : hs.Perm s.hashed) (side : Side) :
    ((s.start xs).finish h (sided side hs)).items = (Level.mk ps h xs).sequence ∧
      ((s.start xs).finish h (sided side hs)).entries =
        Hand.erasing hs (Level.mk ps h xs).keywords := by
  by_cases hnil : s.hashed = []
  · rw [hnil] at hp
    rw [hp.eq_nil, Level.sequence, Level.keywords, s.hash?_eq_none h xs hnil, s.leading_eq]
    exact ⟨rfl, rfl⟩
  · have hne : hs ≠ [] := fun h => hnil (List.nil_perm.1 (h ▸ hp))
    have hk : ∀ p ∈ hs, p.isKeyword = true := fun p hmem =>
      s.isKeyword_hashed p (hp.mem_iff.1 hmem)
    rw [Hand.finish_hashed hk hne, s.opened_start h xs hnil]
    exact ⟨rfl, rfl⟩

/-- What the required parameters leave is what those in the middle and those behind the rest leave
of the sequence. -/
theorem between_eq : (Level.mk ps h xs).between = (Level.mk ps h xs).sequence.take
    ((Level.mk ps h xs).sequence.length - s.tail.length - s.middle.length) := by
  rw [Level.between, s.trailing_eq]
  congr 1
  omega

end Shape

/-! ## What the stages deal -/

/-- The rest has its share without changing the hand. -/
theorem Hand.finish_rests {h : Heap} {hand : Hand} {turns : List (Side × Param)}
    (hp : ∀ turn ∈ turns, turn.2.part = .rest) : hand.finish h turns = hand := by
  induction turns with
  | nil => rfl
  | cons turn turns ih =>
    rw [Hand.finish, Hand.after_rest (hp turn List.mem_cons_self)]
    exact ih fun turn hmem => hp turn (List.mem_cons_of_mem _ hmem)

namespace Shape

variable {ps : List Param} (s : Shape Param.part ps) (h : Heap) (xs : List Value)

/-- Behind the required parameters in front. -/
theorem mem_deals_leading {x : Param × Share} {final : Hand} {turns : List (Side × Param)}
    (hx : x ∈ (s.start xs).deals h final turns) :
    x ∈ Hand.deals h ⟨xs, none⟩ final (sided .left s.leading ++ turns) := by
  refine Hand.mem_deals_append _ ?_
  rwa [s.finish_leading]

namespace Stages

variable {s} (st : Stages s)

/-- The turns before, between and behind those of the stages are turns of the rest. -/
theorem part_rest : ∀ turn ∈ st.early ++ (st.midway ++ st.late), turn.2.part = .rest := by
  intro turn hturn
  refine s.part_rest_toList _ ?_
  rw [← st.rest_eq]
  exact List.mem_map_of_mem hturn

/-- The hand when the keyword parameters had their turns. -/
def afterHashed : Hand := (s.start xs).finish h (sided st.side st.hashed)

/-- Once the keyword parameters had their turns, the sequence is left. -/
theorem items_afterHashed :
    (st.afterHashed h xs).items = (Level.mk ps h xs).sequence :=
  (s.finish_hashed h xs st.hashed_perm st.side).1

/-- The hand when all turns are over. -/
def last : Hand := ⟨(Level.mk ps h xs).between.drop s.optionals.length,
  (st.afterHashed h xs).keywords⟩

/-- The hand when the required parameters behind had their turns, but for some of those that stand
behind the optional ones. -/
theorem finish_middle (qs : List Param) (hqs : ∀ p ∈ qs, p.part = .positional) :
    ((st.afterHashed h xs).finish h (sided .right s.tail.reverse ++ st.midway)).finish h
      (sided .right qs) = ⟨(Level.mk ps h xs).sequence.take
        ((Level.mk ps h xs).sequence.length - s.tail.length - qs.length),
        (st.afterHashed h xs).keywords⟩ := by
  have htail : ∀ p ∈ s.tail.reverse, p.part = .positional :=
    fun p hp => s.part_tail p (List.mem_reverse.1 hp)
  have hmidway : ∀ turn ∈ st.midway, turn.2.part = .rest :=
    fun turn hturn => st.part_rest turn (by simp [hturn])
  rw [Hand.finish_append, Hand.finish_rests hmidway, Hand.finish_right htail, Hand.finish_right hqs,
    st.items_afterHashed, List.length_reverse, List.length_take, List.take_take]
  congr 2
  omega

/-- Behind the keyword parameters. -/
theorem mem_deals_hashed {x : Param × Share} {final : Hand} {turns : List (Side × Param)}
    (hx : x ∈ (st.afterHashed h xs).deals h final turns) :
    x ∈ (s.start xs).deals h final (st.early ++ (sided st.side st.hashed ++ turns)) := by
  refine Hand.mem_deals_append _ (Hand.mem_deals_append _ ?_)
  rwa [Hand.finish_rests fun turn hturn => st.part_rest turn (List.mem_append_left _ hturn)]

/-- Behind all required parameters. -/
theorem mem_deals_required {x : Param × Share} {final : Hand} {turns : List (Side × Param)}
    (hx : x ∈ Hand.deals h ⟨(Level.mk ps h xs).between, (st.afterHashed h xs).keywords⟩ final
      turns) :
    x ∈ (st.afterHashed h xs).deals h final (sided .right s.tail.reverse ++ (st.midway ++
      (sided .right s.middle.reverse ++ turns))) := by
  rw [← List.append_assoc]
  refine Hand.mem_deals_append _ (Hand.mem_deals_append _ ?_)
  rw [st.finish_middle h xs _ fun p hp => s.part_middle p (List.mem_reverse.1 hp),
    List.length_reverse, ← s.between_eq]
  exact hx

/-- The hand when all turns are over. -/
theorem finish_turns : Hand.finish h ⟨xs, none⟩ s.turns = st.last h xs := by
  have hmiddle : ∀ p ∈ s.middle.reverse, p.part = .positional :=
    fun p hp => s.part_middle p (List.mem_reverse.1 hp)
  have hearly : ∀ turn ∈ st.early, turn.2.part = .rest :=
    fun turn hturn => st.part_rest turn (List.mem_append_left _ hturn)
  have hlate : ∀ turn ∈ st.late, turn.2.part = .rest :=
    fun turn hturn => st.part_rest turn (by simp [hturn])
  rw [st.turns_eq, Hand.finish_append, s.finish_leading, Hand.finish_append,
    Hand.finish_rests hearly, Hand.finish_append, ← List.append_assoc, Hand.finish_append,
    Hand.finish_append, Hand.finish_append, Hand.finish_rests hlate]
  show Hand.finish h (((st.afterHashed h xs).finish h (sided .right s.tail.reverse ++
    st.midway)).finish h (sided .right s.middle.reverse)) (sided .left s.optionals) = _
  rw [st.finish_middle h xs _ hmiddle, List.length_reverse, ← s.between_eq,
    Hand.finish_left fun p hp => .inr (s.part_optionals p hp)]
  rfl

end Stages

variable {final : Hand} {p : Param} {pre post : List Param}

/-- The share of a required parameter in front. -/
theorem deals_leading (hsplit : s.leading = pre ++ p :: post) :
    (p, .value (xs[pre.length]?.getD .nil)) ∈ Hand.deals h ⟨xs, none⟩ final s.turns := by
  have hpart : ∀ q ∈ pre ++ p :: post, q.part = .positional := hsplit ▸ s.part_leading
  rw [turns, hsplit]
  refine Hand.mem_deals_sided pre ?_ _
  rw [Hand.finish_left fun q hq => .inl (hpart q (by simp [hq])),
    Hand.share_positional (hpart p (by simp)), Side.next_drop]

/-- The share of a required parameter behind the rest. -/
theorem deals_tail (hsplit : s.tail = pre ++ p :: post) :
    (p, .value (Side.right.next ((Level.mk ps h xs).sequence.take
      ((Level.mk ps h xs).sequence.length - post.length)))) ∈
    Hand.deals h ⟨xs, none⟩ final s.turns := by
  have hpart : ∀ q ∈ pre ++ p :: post, q.part = .positional := hsplit ▸ s.part_tail
  obtain ⟨st⟩ := s.exists_stages
  rw [st.turns_eq]
  refine s.mem_deals_leading h xs (st.mem_deals_hashed h xs ?_)
  rw [hsplit, List.reverse_append, List.reverse_cons, List.append_assoc, List.singleton_append]
  refine Hand.mem_deals_sided post.reverse ?_ _
  rw [Hand.finish_right fun q hq => hpart q (by simp [List.mem_reverse.1 hq]),
    Hand.share_positional (hpart p (by simp)), st.items_afterHashed, List.length_reverse]

/-- The share of a required parameter behind the optional ones. -/
theorem deals_middle (hsplit : s.middle = pre ++ p :: post) :
    (p, .value (Side.right.next ((Level.mk ps h xs).sequence.take
      ((Level.mk ps h xs).sequence.length - s.tail.length - post.length)))) ∈
    Hand.deals h ⟨xs, none⟩ final s.turns := by
  have hpart : ∀ q ∈ pre ++ p :: post, q.part = .positional := hsplit ▸ s.part_middle
  obtain ⟨st⟩ := s.exists_stages
  rw [st.turns_eq]
  refine s.mem_deals_leading h xs (st.mem_deals_hashed h xs ?_)
  rw [← List.append_assoc]
  refine Hand.mem_deals_append _ ?_
  rw [hsplit, List.reverse_append, List.reverse_cons, List.append_assoc, List.singleton_append]
  refine Hand.mem_deals_sided post.reverse ?_ _
  rw [st.finish_middle h xs _ fun q hq => hpart q (by simp [List.mem_reverse.1 hq]),
    Hand.share_positional (hpart p (by simp)), List.length_reverse]

/-- The share of an optional parameter. -/
theorem deals_optional (hsplit : s.optionals = pre ++ p :: post) :
    (p, .ofOption (Level.mk ps h xs).between[pre.length]?) ∈
    Hand.deals h ⟨xs, none⟩ final s.turns := by
  have hpart : ∀ q ∈ pre ++ p :: post, q.part = .optional := hsplit ▸ s.part_optionals
  obtain ⟨st⟩ := s.exists_stages
  rw [st.turns_eq]
  refine s.mem_deals_leading h xs (st.mem_deals_hashed h xs (st.mem_deals_required h xs ?_))
  rw [hsplit]
  refine Hand.mem_deals_sided pre ?_ _
  rw [Hand.finish_left fun q hq => .inr (hpart q (by simp [hq])),
    Hand.share_optional (hpart p (by simp)), List.head?_drop]

/-- The share of a keyword parameter. -/
theorem deals_keyword {name : String} {default : Option Expr} {span : Span}
    (hsplit : s.hashed = pre ++ .keyword name default span :: post)
    (hkey : Key.sym name ∉ (pre ++ post).filterMap Param.key?) :
    (.keyword name default span, .ofOption ((Level.mk ps h xs).keywords.get? (.sym name))) ∈
    Hand.deals h ⟨xs, none⟩ final s.turns := by
  obtain ⟨st⟩ := s.exists_stages
  have hmem : .keyword name default span ∈ st.hashed :=
    st.hashed_perm.mem_iff.2 (by simp [hsplit])
  obtain ⟨a, b, hab⟩ := List.append_of_mem hmem
  have hperm : (a ++ b).Perm (pre ++ post) := by
    have := st.hashed_perm
    rw [hab, hsplit] at this
    exact (List.perm_middle.symm.trans (this.trans List.perm_middle)).cons_inv
  have hfree : Key.sym name ∉ a.filterMap Param.key? := fun hin =>
    hkey ((hperm.filterMap _).mem_iff.1 (by rw [List.filterMap_append]; simp [hin]))
  have hkeyword : ∀ p ∈ a, p.isKeyword = true := fun p hp =>
    s.isKeyword_hashed p (st.hashed_perm.mem_iff.1 (by simp [hab, hp]))
  rw [st.turns_eq]
  refine s.mem_deals_leading h xs (Hand.mem_deals_append _ ?_)
  rw [Hand.finish_rests fun turn hturn => st.part_rest turn (List.mem_append_left _ hturn), hab]
  refine Hand.mem_deals_sided a ?_ _
  rw [Hand.share, Hand.opened_finish_hashed hkeyword, s.opened_start h xs (by simp [hsplit])]
  exact congrArg _ (Hand.get?_erasing hfree _)

/-- A parameter whose share depends on the last hand alone. -/
theorem deals_of_mem {p : Param} {share : Share} {final : Hand} (hp : p ∈ ps)
    (hshare : ∀ hand side, Hand.share h hand final side p = share) :
    (p, share) ∈ Hand.deals h ⟨xs, none⟩ final s.turns := by
  obtain ⟨turn, hturn, rfl⟩ := List.mem_map.1 (s.turns_perm.mem_iff.2 hp)
  obtain ⟨a, b, hab⟩ := List.append_of_mem hturn
  rw [hab, ← hshare]
  exact Hand.share_mem_deals a b

/-- A parameter that takes from the keyword hash stands among those that do. -/
theorem mem_hashed {p : Param} (hp : p ∈ ps) (hk : p.isKeyword = true) : p ∈ s.hashed := by
  have hno : ∀ {part : Part} {qs : List Param}, (∀ q ∈ qs, q.part = part) →
      part ≠ .keyword ∧ part ≠ .keywordRest → p ∉ qs := fun hqs hpart hin => by
    rw [Param.isKeyword_eq_false (hqs p hin) hpart] at hk
    cases hk
  have hmem := s.items_eq ▸ hp
  simp only [List.mem_append] at hmem
  rcases hmem with hin | hin | hin | hin | hin | hin
  · exact absurd hin (hno s.part_leading (by decide))
  · exact absurd hin (hno s.part_optionals (by decide))
  · exact absurd hin (hno s.part_middle (by decide))
  · exact absurd hin (hno s.part_rest_toList (by decide))
  · exact absurd hin (hno s.part_tail (by decide))
  · exact List.mem_append.2 hin

/-- The parameters that take from the keyword hash stand at the end. -/
theorem hashed_suffix : s.hashed <:+ ps := by
  have h := s.items_eq
  simp only [← List.append_assoc] at h
  exact ⟨_, (List.append_assoc ..).symm.trans h.symm⟩

/-- The keys that the parameters of a level take. -/
theorem mem_keys_hashed (key : Key) :
    key ∈ s.hashed.filterMap Param.key? ↔ key ∈ ps.filterMap Param.key? := by
  have hkeyword : ∀ p : Param, p.key? = some key → p.isKeyword = true := fun p hp => by
    cases p <;> first | rfl | cases hp
  rw [List.mem_filterMap, List.mem_filterMap]
  constructor
  · rintro ⟨p, hp, hkey⟩
    exact ⟨p, s.hashed_suffix.subset hp, hkey⟩
  · rintro ⟨p, hp, hkey⟩
    exact ⟨p, s.mem_hashed hp (hkeyword p hkey), hkey⟩

/-- The values that the others leave to the rest. -/
theorem items_finish : (Hand.finish h ⟨xs, none⟩ s.turns).items =
    (Level.mk ps h xs).between.drop (Param.count .optional ps) := by
  obtain ⟨st⟩ := s.exists_stages
  rw [st.finish_turns, s.count_optional]
  rfl

/-- The keywords that the keyword parameters leave. -/
theorem entries_finish (hn : (Level.mk ps h xs).keywords.keys.Nodup) :
    (Hand.finish h ⟨xs, none⟩ s.turns).entries = (Level.mk ps h xs).keywords.filter
      fun e => e.1 ∉ ps.filterMap Param.key? := by
  obtain ⟨st⟩ := s.exists_stages
  rw [st.finish_turns]
  refine (s.finish_hashed h xs st.hashed_perm st.side).2.trans ?_
  rw [Hand.erasing_eq_filter hn]
  refine List.filter_congr fun e _ => decide_eq_decide.2 (not_congr ?_)
  rw [(st.hashed_perm.filterMap _).mem_iff, s.mem_keys_hashed]

/-! ## The shares are dealt -/

/-- An item of two lists stands in the first or in the second one. -/
theorem split_cases {α : Type} {a b before after : List α} {x : α}
    (h : a ++ b = before ++ x :: after) : (∃ c, a = before ++ x :: c ∧ after = c ++ b) ∨
      ∃ c, before = a ++ c ∧ b = c ++ x :: after := by
  rcases List.append_eq_append_iff.1 h with ⟨c, hbefore, hb⟩ | ⟨c, ha, hafter⟩
  · exact .inr ⟨c, hbefore, hb⟩
  · cases c with
    | nil => exact .inr ⟨[], by simpa using ha.symm, hafter.symm⟩
    | cons y c =>
      obtain ⟨rfl, rfl⟩ := List.cons_eq_cons.1 hafter
      exact .inl ⟨c, ha, rfl⟩

/-- There are as many parameters that have to be given in front as are counted there. -/
theorem count_leading : Param.count .positional s.leading = (Level.mk ps h xs).leading := by
  rw [Param.count_of_part s.part_leading, if_pos rfl, s.leading_eq]

/-- None of the optional parameters has to be given. -/
theorem count_optionals : Param.count .positional s.optionals = 0 := by
  rw [Param.count_of_part s.part_optionals]
  rfl

/-- The share that is due to a required parameter in front. -/
theorem share_leading (hsplit : s.leading = pre ++ p :: post) :
    (Level.mk ps h xs).share pre p = .value (xs[pre.length]?.getD .nil) := by
  have hpart : ∀ q ∈ pre ++ p :: post, q.part = .positional := hsplit ▸ s.part_leading
  have hcount : Param.count .positional pre = pre.length := by
    rw [Param.count_of_part fun q hq => hpart q (by simp [hq]), if_pos rfl]
  have hlt : pre.length < s.leading.length := by simp [hsplit]
  rw [Level.share_positional (hpart p (by simp)), hcount, Level.required, s.leading_eq, if_pos hlt]

/-- The share that is due to an optional parameter. -/
theorem share_optionals (hsplit : s.optionals = pre ++ p :: post) :
    (Level.mk ps h xs).share (s.leading ++ pre) p =
      .ofOption (Level.mk ps h xs).between[pre.length]? := by
  have hpart : ∀ q ∈ pre ++ p :: post, q.part = .optional := hsplit ▸ s.part_optionals
  have hcount : Param.count .optional (s.leading ++ pre) = pre.length := by
    rw [Param.count_append, Param.count_of_part s.part_leading,
      Param.count_of_part fun q hq => hpart q (by simp [hq]), if_pos rfl]
    simp
  rw [Level.share_optional (hpart p (by simp)), hcount]

/-- The share that is due to a required parameter behind the optional ones. -/
theorem share_middle (hsplit : s.middle = pre ++ p :: post) :
    (Level.mk ps h xs).share (s.leading ++ (s.optionals ++ pre)) p =
      .value (Side.right.next ((Level.mk ps h xs).sequence.take
        ((Level.mk ps h xs).sequence.length - s.tail.length - post.length))) := by
  have hpart : ∀ q ∈ pre ++ p :: post, q.part = .positional := hsplit ▸ s.part_middle
  have hcount : Param.count .positional (s.leading ++ (s.optionals ++ pre)) =
      (Level.mk ps h xs).leading + pre.length := by
    rw [Param.count_append, Param.count_append, s.count_leading h xs, s.count_optionals,
      Param.count_of_part fun q hq => hpart q (by simp [hq]), if_pos rfl, Nat.zero_add]
  have htrailing : (Level.mk ps h xs).trailing =
      pre.length + (s.tail.length + post.length + 1) := by
    rw [s.trailing_eq, hsplit, List.length_append, List.length_cons]
    omega
  rw [Level.share_positional (hpart p (by simp)), hcount, Level.required_behind htrailing,
    ← Nat.sub_sub]

/-- The share that is due to a required parameter behind the rest. -/
theorem share_tail (hsplit : s.tail = pre ++ p :: post) :
    (Level.mk ps h xs).share
      (s.leading ++ (s.optionals ++ (s.middle ++ (s.rest.toList ++ pre)))) p =
      .value (Side.right.next ((Level.mk ps h xs).sequence.take
        ((Level.mk ps h xs).sequence.length - post.length))) := by
  have hpart : ∀ q ∈ pre ++ p :: post, q.part = .positional := hsplit ▸ s.part_tail
  have hmiddle : Param.count .positional s.middle = s.middle.length := by
    rw [Param.count_of_part s.part_middle, if_pos rfl]
  have hrest : Param.count .positional s.rest.toList = 0 := by
    rw [Param.count_of_part s.part_rest_toList]
    rfl
  have hcount : Param.count .positional (s.leading ++ (s.optionals ++ (s.middle ++
      (s.rest.toList ++ pre)))) = (Level.mk ps h xs).leading + (s.middle.length + pre.length) := by
    simp only [Param.count_append]
    rw [s.count_leading h xs, s.count_optionals, hmiddle, hrest,
      Param.count_of_part fun q hq => hpart q (by simp [hq]), if_pos rfl]
    omega
  have htrailing : (Level.mk ps h xs).trailing =
      s.middle.length + pre.length + (post.length + 1) := by
    rw [s.trailing_eq, hsplit, List.length_append, List.length_cons]
    omega
  rw [Level.share_positional (hpart p (by simp)), hcount, Level.required_behind htrailing]

/-- **Shares.** In the order in which a level is bound every parameter gets the share that is due to
it, if no other one takes the same keyword. -/
theorem share_mem_deals {before after : List Param} {p : Param} (hsplit : ps = before ++ p :: after)
    (hkey : ∀ key, p.key? = some key → key ∉ (before ++ after).filterMap Param.key?)
    (hn : (Level.mk ps h xs).keywords.keys.Nodup) :
    (p, (Level.mk ps h xs).share before p) ∈
      Hand.deals h ⟨xs, none⟩ (Hand.finish h ⟨xs, none⟩ s.turns) s.turns := by
  have hp : p ∈ ps := hsplit ▸ by simp
  have hitems := s.items_eq.symm.trans hsplit
  clear hsplit
  rcases split_cases hitems with ⟨post, hl, -⟩ | ⟨pre, rfl, h₁⟩
  · -- in front
    rw [s.share_leading h xs hl]
    exact s.deals_leading h xs hl
  rcases split_cases h₁ with ⟨post, ho, -⟩ | ⟨pre, rfl, h₂⟩
  · -- among the optional parameters
    rw [s.share_optionals h xs ho]
    exact s.deals_optional h xs ho
  rcases split_cases h₂ with ⟨post, hm, -⟩ | ⟨pre, rfl, h₃⟩
  · -- behind the optional parameters
    rw [s.share_middle h xs hm]
    exact s.deals_middle h xs hm
  rcases split_cases h₃ with ⟨post, hr, -⟩ | ⟨pre, rfl, h₄⟩
  · -- the rest
    have hpart : p.part = .rest := s.part_rest_toList p (by simp [hr])
    refine s.deals_of_mem h xs hp fun hand side => ?_
    cases p with
    | rest name span => exact congrArg _ (s.items_finish h xs)
    | _ => cases hpart
  rcases split_cases h₄ with ⟨post, ht, -⟩ | ⟨pre, rfl, h₅⟩
  · -- behind the rest
    rw [s.share_tail h xs ht]
    exact s.deals_tail h xs ht
  -- among those that take from the keyword hash
  have hk : p.isKeyword = true := s.isKeyword_hashed p (by rw [hashed, h₅]; simp)
  cases p with
  | keyword name default span =>
    refine s.deals_keyword h xs h₅ fun hin => hkey _ rfl ?_
    simp only [List.filterMap_append, List.mem_append] at hin ⊢
    rcases hin with hin | hin <;> simp [hin]
  | keywordRest name span =>
    exact s.deals_of_mem h xs hp fun hand side => congrArg _ (s.entries_finish h xs hn)
  | _ => cases hk

end Shape

end Formals
