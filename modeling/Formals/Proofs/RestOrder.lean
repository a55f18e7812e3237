import Formals.Proofs.Failures

/-!
# The order of arguments around a rest

Parameters that are read in the order of their declaration give back the arguments, with the
elements of the rest in its place, unless a required parameter stands between an optional one and
the rest. Such a parameter takes its value from behind the values that are left to the rest, not
from in front of them (`rest_reading`).
-/

namespace Formals

open Machine

/-! ## Reading parameters -/

/-- The value of a local variable. -/
def Env.valueOf (env : Env) (name : String) : Value := (env.local? name).getD .nil

/-- The elements of the array in a local variable. -/
def Env.elementsOf (env : Env) (name : String) : List Value :=
  match env.local? name with
  | some (.array a) => env.heap.arrayAt a
  | _ => []

namespace Param

/-- Whether a parameter is a required or an optional one or a rest with a name. -/
def isPlain : Param → Bool
  | required .. | optional .. | rest (some _) _ => true
  | _ => false

/-- The value of a required or an optional parameter. -/
def valueIn (env : Env) : Param → Value
  | required name _ | optional name _ _ => env.valueOf name
  | _ => .nil

/-- The elements of a rest. -/
def elementsIn (env : Env) : Param → List Value
  | rest (some name) _ => env.elementsOf name
  | _ => []

/-- The values of some parameters in the order of their declaration: of the required ones, of the
first `n` optional ones, and the elements of the rest. -/
def readBack (env : Env) : List Param → Nat → List Value
  | [], _ => []
  | p :: ps, n =>
    match p.part with
    | .optional => if n = 0 then readBack env ps 0 else p.valueIn env :: readBack env ps (n - 1)
    | .rest => p.elementsIn env ++ readBack env ps n
    | .positional | .keyword | .keywordRest => p.valueIn env :: readBack env ps n

/-- The required parameters that stand between an optional one and the rest. -/
def beforeRest (ps : List Param) : List Param :=
  ((ps.takeWhile (·.part ≠ .rest)).dropWhile (·.part ≠ .optional)).filter (·.part = .positional)

/-- Their values. -/
def valuesBeforeRest (env : Env) (ps : List Param) : List Value := (beforeRest ps).map (valueIn env)

/-- The elements of the rest among some parameters. -/
def restElements (env : Env) (ps : List Param) : List Value := ps.flatMap (elementsIn env)

/-- Reading some parameters in the order of their declaration gives back the arguments. -/
def ReadsBack (env : Env) (ps : List Param) (arguments : List Value) : Prop :=
  readBack env ps (arguments.length - count .positional ps) = arguments

/-- Required and optional parameters and one rest, all with names of their own. -/
structure PlainList (ps : List Param) : Prop where
  plain : ∀ p ∈ ps, p.isPlain = true
  one_rest : count .rest ps = 1
  nodup : (allNames ps).Nodup

variable {env : Env} {n : Nat} {as bs : List Param}

/-- Required parameters in a row are read back as what they are bound to. -/
theorem readBack_positional (hp : ∀ p ∈ as, p.part = .positional) :
    readBack env (as ++ bs) n = as.map (valueIn env) ++ readBack env bs n := by
  induction as with
  | nil => rfl
  | cons p as ih =>
    rw [List.cons_append, readBack, hp p List.mem_cons_self]
    exact congrArg _ (ih fun p h => hp p (List.mem_cons_of_mem _ h))

/-- A rest is read back as its elements. -/
theorem readBack_rest {name : String} {span : Span} :
    readBack env (.rest (some name) span :: bs) n = env.elementsOf name ++ readBack env bs n := rfl

/-- Optional parameters in a row are read back as what they are bound to, as far as there were
arguments for them. -/
theorem readBack_optional (hp : ∀ p ∈ as, p.part = .optional) :
    readBack env (as ++ bs) n = (as.take n).map (valueIn env) ++
      readBack env bs (n - as.length) := by
  induction as generalizing n with
  | nil =>
    rw [List.take_nil]
    rfl
  | cons p as ih =>
    have hrest : ∀ p ∈ as, p.part = .optional := fun p h => hp p (List.mem_cons_of_mem _ h)
    rw [List.cons_append, readBack, hp p List.mem_cons_self]
    cases n with
    | zero => simpa using ih (n := 0) hrest
    | succ n =>
      rw [List.take_succ_cons, List.length_cons, Nat.add_sub_add_right]
      simpa using ih (n := n) hrest

end Param

/-! ## Lists by their places -/

section

variable {α β : Type}

/-- The images of some items, which are found in another list one after the other. -/
theorem map_eq_slice (d : β) {f : α → β} {xs : List α} {ys : List β} {k : Nat}
    (h : ∀ pre x post, xs = pre ++ x :: post → f x = ys[k + pre.length]?.getD d)
    (hle : k + xs.length ≤ ys.length) : xs.map f = (ys.drop k).take xs.length := by
  refine List.ext_getElem (by simp; omega) fun i hi _ => ?_
  have hi : i < xs.length := by simpa using hi
  have hlen : (xs.take i).length = i := by
    rw [List.length_take]
    omega
  have hplace := h (xs.take i) xs[i] (xs.drop (i + 1)) (by simp)
  rw [hlen, List.getElem?_eq_getElem (show k + i < ys.length by omega)] at hplace
  simpa using hplace

end

/-! ## The shape of a plain list -/

/-- The level of a parameter that is bound. -/
theorem Param.bound_of_allBound {o : Outcome} {l : Level} {before ps pre post : List Param}
    {p : Param} (h : Param.AllBound o l before ps) (hsplit : ps = pre ++ p :: post) :
    p.Bound o (l.share (before ++ pre) p) := by
  subst hsplit
  induction pre generalizing before with
  | nil =>
    rw [List.append_nil]
    exact h.1
  | cons q pre ih =>
    have := ih h.2
    rwa [List.append_assoc, List.singleton_append] at this

namespace Param

variable {ps : List Param}

/-- What a call binds an optional parameter to, if a value is left for it. -/
theorem valueIn_optional {o : Outcome} {l : Level}
    (hb : Param.AllBound o l [] ps) (hc : ∀ n ∈ Param.allNames ps, o.counts n)
    {pre post : List Param} {p : Param} (hsplit : ps = pre ++ p :: post)
    (hp : p.part = .optional) {v : Value}
    (hv : l.between[Param.count .optional pre]? = some v) : p.valueIn o.finish = v := by
  have hmem : p ∈ ps := hsplit ▸ by simp
  have hbound := Param.bound_of_allBound hb hsplit
  rw [List.nil_append, Level.share_optional hp, hv] at hbound
  cases p with
  | optional name default span =>
    obtain ⟨w, hw, rfl⟩ := hbound (hc name (Param.mem_allNames hmem (List.mem_singleton_self name)))
    rw [Param.valueIn, Env.valueOf, hw]
    rfl
  | _ => cases hp

/-- What a call binds the rest to. -/
theorem elementsIn_rest {o : Outcome} {l : Level}
    (hb : Param.AllBound o l [] ps) (hc : ∀ n ∈ Param.allNames ps, o.counts n)
    {pre post : List Param} {name : String} {span : Span}
    (hsplit : ps = pre ++ .rest (some name) span :: post) :
    o.finish.elementsOf name = l.between.drop (Param.count .optional l.params) := by
  have hmem : Param.rest (some name) span ∈ ps := hsplit ▸ by simp
  have hbound := Param.bound_of_allBound hb hsplit
  obtain ⟨w, hw, a, rfl, ha⟩ := hbound name rfl
    (hc name (Param.mem_allNames hmem (List.mem_singleton_self name)))
  rw [Env.elementsOf, hw]
  exact ha

end Param

namespace Param.PlainList

variable {ps : List Param} (h : PlainList ps) (s : Shape Param.part ps)

include h

/-- A plain list has no keywords. -/
theorem isKeyword_eq_false : ∀ p ∈ ps, p.isKeyword = false := by
  intro p hp
  have := h.plain p hp
  cases p <;> first | rfl | cases this

/-- A plain list does not look into values. -/
theorem not_opens : ¬ ∃ p ∈ ps, p.opens := by
  rintro ⟨p, hp, hopens⟩
  have := h.plain p hp
  cases p with
  | group | keyword | keywordRest => cases this
  | _ => cases hopens

/-- In a plain list nothing takes from the keyword hash. -/
theorem hashed_eq_nil : s.hashed = [] := by
  refine List.eq_nil_iff_forall_not_mem.2 fun p hp => ?_
  have hmem : p ∈ ps := by
    rw [s.items_eq]
    simp only [List.mem_append]
    exact .inr (.inr (.inr (.inr (.inr (List.mem_append.1 hp)))))
  have := h.isKeyword_eq_false p hmem
  rw [s.isKeyword_hashed p hp] at this
  cases this

/-- The parameters of a plain list. -/
theorem exists_rest : ∃ name span, s.rest = some (.rest (some name) span) ∧
    ps = s.leading ++ (s.optionals ++ (s.middle ++ (.rest (some name) span :: s.tail))) := by
  have hitems := s.items_eq
  rw [show s.keywords ++ s.keywordRest.toList = [] from h.hashed_eq_nil s, List.append_nil]
    at hitems
  cases hr : s.rest with
  | none =>
    have hcount := h.one_rest
    rw [hr, s.tail_nil hr] at hitems
    rw [hitems, Option.toList_none, List.append_nil, Param.count_append, Param.count_append,
      Param.count_of_part s.part_leading, Param.count_of_part s.part_optionals, List.append_nil,
      Param.count_of_part s.part_middle] at hcount
    cases hcount
  | some r =>
    rw [hr] at hitems
    have hmem : r ∈ ps := by
      rw [hitems]
      simp
    have hplain := h.plain r hmem
    have hpart := s.part_rest r (by simp [hr])
    cases r with
    | rest name span =>
      cases name with
      | none => cases hplain
      | some name => exact ⟨name, span, rfl, hitems⟩
    | _ => cases hpart

/-- The required parameters between an optional one and the rest. -/
theorem beforeRest_eq : Param.beforeRest ps = s.middle := by
  obtain ⟨name, span, -, hitems⟩ := h.exists_rest s
  have hfront : ps.takeWhile (·.part ≠ .rest) = s.leading ++ (s.optionals ++ s.middle) := by
    refine (congrArg (List.takeWhile _) hitems).trans ?_
    rw [← List.append_assoc, ← List.append_assoc, List.takeWhile_append_of_pos]
    · rw [List.takeWhile_cons_of_neg (by simp [Param.part]), List.append_nil, List.append_assoc]
    · intro p hp
      simp only [List.mem_append] at hp
      rcases hp with (hp | hp) | hp
      · rw [s.part_leading p hp]; rfl
      · rw [s.part_optionals p hp]; rfl
      · rw [s.part_middle p hp]; rfl
  rw [Param.beforeRest, hfront, List.dropWhile_append_of_pos]
  · cases ho : s.optionals with
    | nil => rw [s.middle_nil ho]; rfl
    | cons p others =>
      rw [List.cons_append, List.dropWhile_cons_of_neg]
      · rw [← List.cons_append, List.filter_append, List.filter_eq_nil_iff.2, List.nil_append]
        · exact List.filter_eq_self.2 fun q hq => decide_eq_true (s.part_middle q hq)
        · intro q hq
          rw [s.part_optionals q (by rw [ho]; exact hq)]
          decide
      · rw [s.part_optionals p (by simp [ho])]
        decide
  · intro p hp
    rw [s.part_leading p hp]
    rfl

/-- What a call binds a required parameter to. -/
theorem valueIn_positional {o : Outcome} {l : Level}
    (hb : Param.AllBound o l [] ps) (hc : ∀ n ∈ Param.allNames ps, o.counts n)
    {pre post : List Param} {p : Param} (hsplit : ps = pre ++ p :: post)
    (hp : p.part = .positional) :
    p.valueIn o.finish = l.required (Param.count .positional pre) := by
  have hmem : p ∈ ps := hsplit ▸ by simp
  have hplain := h.plain p hmem
  have hbound := Param.bound_of_allBound hb hsplit
  cases p with
  | required name span =>
    obtain ⟨v, hv, rfl⟩ := hbound (hc name (Param.mem_allNames hmem (List.mem_singleton_self name)))
    rw [Param.valueIn, Env.valueOf, hv]
    rfl
  | optional | rest | keyword | keywordRest => cases hp
  | group | attr => cases hplain

/-- The values that the level of a plain list leaves behind those in front. -/
theorem sequence_eq (heap : Heap) (xs : List Value) :
    (Level.mk ps heap xs).sequence = xs.drop s.leading.length := by
  rw [Level.sequence, s.hash?_eq_none heap xs (h.hashed_eq_nil s), s.leading_eq]

/-- What the required parameters of a plain list leave is the stretch of the arguments between those
in front and those behind. -/
theorem between_eq (heap : Heap) (xs : List Value) : (Level.mk ps heap xs).between =
    (xs.drop s.leading.length).take
      (xs.length - s.leading.length - (s.middle.length + s.tail.length)) := by
  rw [Level.between, h.sequence_eq s, s.trailing_eq, List.length_drop]

/-- The value of a required parameter behind. -/
theorem required_behind (heap : Heap) {xs : List Value} {i : Nat}
    (hn : Param.count .positional ps ≤ xs.length) :
    (Level.mk ps heap xs).required (s.leading.length + i) =
      xs[xs.length - (s.middle.length + s.tail.length) + i]?.getD .nil := by
  rw [s.count_positional] at hn
  rw [Level.required, s.leading_eq, if_neg (by omega), Nat.add_sub_cancel_left, s.trailing_eq,
    h.sequence_eq s, List.length_drop, if_pos (by omega), List.getElem?_drop]
  congr 2
  omega

section

variable {o : Outcome} {heap : Heap} {xs : List Value}
  (hb : Param.AllBound o ⟨ps, heap, xs⟩ [] ps) (hc : ∀ n ∈ Param.allNames ps, o.counts n)
  (hn : Param.count .positional ps ≤ xs.length)

include hb hc hn

omit hn in
/-- Required parameters in a row are bound to arguments in a row, if each is due the one in its
place. -/
theorem map_required {front mid back : List Param} {i : Nat} (hsplit : ps = front ++ (mid ++ back))
    (hmid : ∀ q ∈ mid, q.part = .positional)
    (hdue : ∀ j < mid.length, (Level.mk ps heap xs).required (Param.count .positional front + j) =
      xs[i + j]?.getD .nil) (hle : i + mid.length ≤ xs.length) :
    mid.map (Param.valueIn o.finish) = (xs.drop i).take mid.length := by
  refine map_eq_slice .nil (fun pre p post hmid' => ?_) hle
  have hpart : ∀ q ∈ pre ++ p :: post, q.part = .positional := hmid' ▸ hmid
  have hps : ps = (front ++ pre) ++ p :: (post ++ back) := by
    rw [hsplit, hmid']
    simp
  have hcount : Param.count .positional pre = pre.length := by
    rw [Param.count_of_part fun q hq => hpart q (by simp [hq]), if_pos rfl]
  rw [h.valueIn_positional hb hc hps (hpart p (by simp)), Param.count_append, hcount,
    hdue _ (by simp [hmid'])]

/-- The parameters in front are bound to the first arguments. -/
theorem map_leading : s.leading.map (Param.valueIn o.finish) = xs.take s.leading.length := by
  have hsplit : ps = [] ++ (s.leading ++ (s.optionals ++ (s.middle ++ (s.rest.toList ++
      (s.tail ++ (s.keywords ++ s.keywordRest.toList)))))) := s.items_eq
  refine (h.map_required (i := 0) hb hc hsplit s.part_leading (fun j hj => ?_) ?_).trans
    (by rw [List.drop_zero])
  · rw [show Param.count .positional [] = 0 from rfl, Nat.zero_add, Level.required, s.leading_eq,
      if_pos hj]
  · rw [s.count_positional] at hn
    omega

/-- The parameters in the middle are bound to the arguments in front of the last ones, though behind
an optional one they stand in front of the rest. -/
theorem map_middle : s.middle.map (Param.valueIn o.finish) =
    (xs.drop (xs.length - (s.middle.length + s.tail.length))).take s.middle.length := by
  have hsplit : ps = (s.leading ++ s.optionals) ++ (s.middle ++ (s.rest.toList ++
      (s.tail ++ (s.keywords ++ s.keywordRest.toList)))) :=
    s.items_eq.trans (List.append_assoc ..).symm
  have hcount : Param.count .positional (s.leading ++ s.optionals) = s.leading.length := by
    rw [Param.count_append, Param.count_of_part s.part_leading,
      Param.count_of_part s.part_optionals]
    simp
  refine h.map_required hb hc hsplit s.part_middle (fun j _ => ?_) ?_
  · rw [hcount, h.required_behind s heap hn]
  · rw [s.count_positional] at hn
    omega

/-- The parameters behind the rest are bound to the last arguments. -/
theorem map_tail : s.tail.map (Param.valueIn o.finish) = xs.drop (xs.length - s.tail.length) := by
  have hsplit : ps = (s.leading ++ (s.optionals ++ (s.middle ++ s.rest.toList))) ++
      (s.tail ++ (s.keywords ++ s.keywordRest.toList)) := s.items_eq.trans (by simp)
  have hcount : Param.count .positional (s.leading ++ (s.optionals ++ (s.middle ++
      s.rest.toList))) = s.leading.length + s.middle.length := by
    simp only [Param.count_append]
    rw [Param.count_of_part s.part_leading, Param.count_of_part s.part_optionals,
      Param.count_of_part s.part_middle, Param.count_of_part s.part_rest_toList]
    simp
  have hle := hn
  rw [s.count_positional] at hle
  rw [h.map_required (i := xs.length - s.tail.length) hb hc hsplit s.part_tail (fun j _ => ?_)
    (by omega)]
  · exact List.take_of_length_le (by rw [List.length_drop]; omega)
  · rw [hcount, Nat.add_assoc, h.required_behind s heap hn]
    congr 2
    omega

omit h hn in
/-- What a call binds an optional parameter to that gets an argument. -/
theorem valueIn_given {pre post : List Param} {p : Param}
    (hlen : (Level.mk ps heap xs).between.length = xs.length - Param.count .positional ps)
    (hsplit : s.optionals.take (xs.length - Param.count .positional ps) = pre ++ p :: post) :
    p.valueIn o.finish = (Level.mk ps heap xs).between[pre.length]?.getD .nil := by
  have hfull : s.optionals = pre ++ p :: (post ++
      s.optionals.drop (xs.length - Param.count .positional ps)) := by
    rw [← List.cons_append, ← List.append_assoc, ← hsplit, List.take_append_drop]
  have hpart : ∀ q ∈ pre ++ p :: post, q.part = .optional := fun q hq =>
    s.part_optionals q (List.mem_of_mem_take (hsplit ▸ hq))
  have hps : ps = (s.leading ++ pre) ++ p :: (post ++
      s.optionals.drop (xs.length - Param.count .positional ps) ++ (s.middle ++
        (s.rest.toList ++ (s.tail ++ (s.keywords ++ s.keywordRest.toList))))) := by
    refine s.items_eq.trans ?_
    conv_lhs => rw [hfull]
    simp
  have hcount : Param.count .optional (s.leading ++ pre) = pre.length := by
    rw [Param.count_append, Param.count_of_part s.part_leading,
      Param.count_of_part fun q hq => hpart q (by simp [hq]), if_pos rfl, if_neg (by decide),
      Nat.zero_add]
  have hlt : pre.length < (Level.mk ps heap xs).between.length := by
    have := congrArg List.length hsplit
    rw [List.length_take, List.length_append, List.length_cons] at this
    omega
  rw [List.getElem?_eq_getElem hlt]
  refine Param.valueIn_optional hb hc hps (hpart p (by simp)) ?_
  rw [hcount, List.getElem?_eq_getElem hlt]
  rfl

omit hn in
/-- The optional parameters for which there are arguments are bound to those behind the ones in
front. -/
theorem map_optionals :
    (s.optionals.take (xs.length - Param.count .positional ps)).map (Param.valueIn o.finish) =
      (Level.mk ps heap xs).between.take s.optionals.length := by
  have hlen : (Level.mk ps heap xs).between.length =
      xs.length - Param.count .positional ps := by
    rw [h.between_eq s, List.length_take, List.length_drop, s.count_positional]
    omega
  have hplace : ∀ pre p post,
      s.optionals.take (xs.length - Param.count .positional ps) = pre ++ p :: post →
      p.valueIn o.finish = (Level.mk ps heap xs).between[0 + pre.length]?.getD .nil :=
    fun pre p post hsplit => by rw [Nat.zero_add, valueIn_given s hb hc hlen hsplit]
  rw [map_eq_slice .nil hplace (by rw [List.length_take]; omega), List.drop_zero,
    List.length_take, ← hlen, Nat.min_comm, ← List.take_take, List.take_length]

end

/-- The arguments in pieces: those in front, those between, and those behind. -/
theorem pieces_eq (heap : Heap) {xs : List Value} (hn : Param.count .positional ps ≤ xs.length) :
    xs = xs.take s.leading.length ++ ((Level.mk ps heap xs).between ++
      ((xs.drop (xs.length - (s.middle.length + s.tail.length))).take s.middle.length ++
        xs.drop (xs.length - s.tail.length))) := by
  rw [s.count_positional] at hn
  have hbehind : xs.drop (xs.length - s.tail.length) =
      (xs.drop (xs.length - (s.middle.length + s.tail.length))).drop s.middle.length := by
    rw [List.drop_drop]
    congr 1
    omega
  have hmid : xs.drop (xs.length - (s.middle.length + s.tail.length)) =
      (xs.drop s.leading.length).drop
        (xs.length - s.leading.length - (s.middle.length + s.tail.length)) := by
    rw [List.drop_drop]
    congr 1
    omega
  rw [hbehind, List.take_append_drop, hmid, h.between_eq s, List.take_append_drop,
    List.take_append_drop]

omit h in
/-- Only the rest has elements. -/
theorem flatMap_elementsIn {env : Env} {as : List Param} {part : Part}
    (hp : ∀ p ∈ as, p.part = part) (hpart : part ≠ .rest) :
    as.flatMap (Param.elementsIn env) = [] := by
  refine List.flatMap_eq_nil_iff.2 fun p hmem => ?_
  have := hp p hmem
  cases p with
  | rest => exact absurd this.symm hpart
  | _ => rfl

end Param.PlainList

namespace Param.PlainList

variable {ps : List Param} (h : PlainList ps) (s : Shape Param.part ps) {o : Outcome} {heap : Heap}
  {xs : List Value} (hb : Param.AllBound o ⟨ps, heap, xs⟩ [] ps)
  (hc : ∀ n ∈ Param.allNames ps, o.counts n)

include h s hb hc

/-- What the other parameters leave to the rest. -/
theorem restElements_eq : Param.restElements o.finish ps =
    (Level.mk ps heap xs).between.drop s.optionals.length := by
  obtain ⟨name, span, -, hitems⟩ := h.exists_rest s
  have hsplit : ps = (s.leading ++ (s.optionals ++ s.middle)) ++
      .rest (some name) span :: s.tail := hitems.trans (by simp)
  refine Eq.trans ?_ ((Param.elementsIn_rest hb hc hsplit).trans (by rw [← s.count_optional]))
  refine (congrArg (List.flatMap _) hitems).trans ?_
  rw [List.flatMap_append, List.flatMap_append, List.flatMap_append, List.flatMap_cons,
    flatMap_elementsIn s.part_leading (by decide), flatMap_elementsIn s.part_optionals (by decide),
    flatMap_elementsIn s.part_middle (by decide), flatMap_elementsIn s.part_tail (by decide)]
  exact List.append_nil _

/-- How many values the other parameters leave to the rest. -/
theorem length_restElements : (Param.restElements o.finish ps).length =
    xs.length - (Param.count .positional ps + Param.count .optional ps) := by
  rw [h.restElements_eq s hb hc, List.length_drop, h.between_eq s, List.length_take,
    List.length_drop, s.count_positional, s.count_optional]
  omega

/-- **Reading back.** The parameters of a plain list in the order of their declaration are the
arguments, but for one thing: what is left to the rest stands, among the arguments, in front of the
values of the required parameters between an optional one and the rest. -/
theorem readBack_eq (hn : Param.count .positional ps ≤ xs.length) : ∃ front back,
    xs = front ++ (Param.restElements o.finish ps ++ Param.valuesBeforeRest o.finish ps ++ back) ∧
      Param.readBack o.finish ps (xs.length - Param.count .positional ps) =
        front ++
          (Param.valuesBeforeRest o.finish ps ++ Param.restElements o.finish ps ++ back) := by
  obtain ⟨name, span, -, hitems⟩ := h.exists_rest s
  have hsplit : ps = (s.leading ++ (s.optionals ++ s.middle)) ++
      .rest (some name) span :: s.tail := hitems.trans (by simp)
  have helements : o.finish.elementsOf name = Param.restElements o.finish ps := by
    rw [h.restElements_eq s hb hc, ← s.count_optional]
    exact Param.elementsIn_rest hb hc hsplit
  have hread : Param.readBack o.finish ps (xs.length - Param.count .positional ps) =
      s.leading.map (Param.valueIn o.finish) ++
        ((s.optionals.take (xs.length - Param.count .positional ps)).map (Param.valueIn o.finish) ++
          (s.middle.map (Param.valueIn o.finish) ++ (o.finish.elementsOf name ++
            s.tail.map (Param.valueIn o.finish)))) := by
    have htail : ∀ n, Param.readBack o.finish s.tail n = s.tail.map (Param.valueIn o.finish) :=
      fun n => by
        have : Param.readBack o.finish (s.tail ++ []) n = _ := Param.readBack_positional s.part_tail
        rwa [List.append_nil, Param.readBack, List.append_nil] at this
    refine (congrArg (Param.readBack _ · _) hitems).trans ?_
    rw [Param.readBack_positional s.part_leading, Param.readBack_optional s.part_optionals,
      Param.readBack_positional s.part_middle, Param.readBack_rest, htail]
  refine ⟨xs.take s.leading.length ++ (Level.mk ps heap xs).between.take s.optionals.length,
    xs.drop (xs.length - s.tail.length), ?_, ?_⟩
  · refine (h.pieces_eq s heap hn).trans ?_
    rw [h.restElements_eq s hb hc, Param.valuesBeforeRest, h.beforeRest_eq s,
      h.map_middle s hb hc hn, List.append_assoc, List.append_assoc,
      ← List.append_assoc (List.take s.optionals.length _), List.take_append_drop]
  · rw [hread, helements, Param.valuesBeforeRest, h.beforeRest_eq s, h.map_leading s hb hc hn,
      h.map_optionals s hb hc, h.map_tail s hb hc hn]
    simp only [List.append_assoc]

end Param.PlainList

/-! ## Calls -/

/-- A turn of a plain list takes at most one value, and none for the rest. -/
theorem Hand.length_after (h : Heap) (hand : Hand) (side : Side) {p : Param}
    (hp : p.isPlain = true) : hand.items.length ≤ (hand.after h side p).items.length +
      (Param.count .positional [p] + Param.count .optional [p]) := by
  have hothers : ∀ side : Side, hand.items.length ≤ (side.others hand.items).length + 1 := by
    intro side
    cases side <;> simp [Side.others] <;> omega
  cases p with
  | required name span => exact hothers side
  | optional name default span => exact hothers .left
  | rest name span => exact Nat.le_add_right _ _
  | _ => cases hp

/-- A hand of a plain list loses no more values than parameters have their turns. -/
theorem Hand.length_finish (h : Heap) (hand : Hand) {turns : List (Side × Param)}
    (hp : ∀ turn ∈ turns, turn.2.isPlain = true) : hand.items.length ≤
      (hand.finish h turns).items.length + (Param.count .positional (turns.map Prod.snd) +
        Param.count .optional (turns.map Prod.snd)) := by
  induction turns generalizing hand with
  | nil => exact Nat.le_add_right _ _
  | cons turn turns ih =>
    obtain ⟨side, p⟩ := turn
    have hplain : p.isPlain = true := hp _ List.mem_cons_self
    have hfirst := hand.length_after h side hplain
    have hrest := ih (hand.after h side p) fun turn hmem => hp turn (List.mem_cons_of_mem _ hmem)
    have hcount : ∀ part, Param.count part (p :: turns.map Prod.snd) =
        Param.count part [p] + Param.count part (turns.map Prod.snd) := fun part =>
      Param.count_append part [p] (turns.map Prod.snd)
    rw [List.map_cons, hcount, hcount, Hand.finish]
    omega

namespace Param.PlainList

variable {ps : List Param}

/-- No step of a plain list fails while there are values for all parameters. -/
theorem not_fails (h : PlainList ps) (shape : Shape Param.part ps) {h₀ : Heap} {base q k : Nat}
    {before after : List (LevelState × Param)} {s s' : LevelState} {p : Param} {xs : List Value}
    {t : Trail} {e : RuntimeError}
    (hsplit : (Plan.ofList Param.part ps).steps = before ++ (s, p) :: after)
    (hr : Running h₀ base q ((s, p) :: after) s' k (Hand.finish h₀ ⟨xs, none⟩ (turnsOf before)) t)
    (hn : Param.count .positional ps + Param.count .optional ps ≤ xs.length) :
    ¬ p.Fails s q k t e := by
  intro hfails
  have hmem : ∀ step ∈ before ++ (s, p) :: after, step.2 ∈ ps := fun step hstep =>
    Plan.mem_of_mem_ofList (hsplit ▸ hstep)
  have hs : s.keywordsStaged = false :=
    (Plan.unstaged_ofList h.isKeyword_eq_false).1 (s, p) (hsplit ▸ by simp)
  have hplain : p.isPlain = true := h.plain p (hmem (s, p) (by simp))
  cases hfails with
  | leftOver _ hu => exact Act.unstage_of_unstaged hs hu
  | @optional name default span _ hempty _ =>
    rw [hr.holds.sequence_eq] at hempty
    have hturns : ∀ turn ∈ turnsOf before, turn.2.isPlain = true := fun turn hturn => by
      obtain ⟨step, hstep, rfl⟩ := List.mem_map.1 hturn
      exact h.plain _ (hmem step (List.mem_append_left _ hstep))
    have hlength : xs.length ≤ _ := Hand.length_finish h₀ ⟨xs, none⟩ hturns
    rw [hempty, snd_turnsOf] at hlength
    have hperm := shape.steps_perm
    rw [hsplit, List.map_append, List.map_cons] at hperm
    have hcounts : ∀ part, Param.count part ps = Param.count part (before.map Prod.snd) +
        (Param.count part [.optional name default span] +
          Param.count part (after.map Prod.snd)) := fun part => by
      rw [Param.count, ← hperm.countP_eq, ← List.singleton_append]
      simp only [Param.count, List.countP_append]
    have hpositional := hcounts .positional
    have hoptional := hcounts .optional
    rw [show Param.count .optional [.optional name default span] = 1 from rfl] at hoptional
    rw [List.length_nil] at hlength
    omega
  | _ => cases hplain

/-- A call with a value for every parameter of a plain list ends well. -/
theorem bindArguments_ok (h : PlainList ps) {list : Option ParamList} {localOnly : Bool}
    {code : Stream} (hc : ParamList.compile? list localOnly = .ok code)
    (hps : ParamList.check? list = .ok ps) {arguments : List Value}
    (hn : Param.count .positional ps + Param.count .optional ps ≤ arguments.length)
    (m : Machine) : ∃ m', bindArguments code arguments m = .ok () m' := by
  obtain ⟨ps', hps', hr⟩ := compile_params_realizes hc
  obtain rfl : ps' = ps := Except.ok.inj (hps'.symm.trans hps)
  obtain ⟨shape⟩ := exists_shape (ParamList.check?_accepted hps).1
  cases hact : levelAct (Param.tasks localOnly ps') m.heap.arrays.size
      (m.toEnv.entered fun _ => arguments) with
  | ok u t =>
    obtain ⟨argc, hcall⟩ := call_ok hr ((callAct_apply (fun _ => arguments) _ m.toEnv).trans hact)
    exact ⟨_, hcall⟩
  | error e t =>
    exfalso
    rcases levelAct_error hact with hsteps | ⟨k, t₁, -, hu⟩
    · obtain ⟨before, s, p, after, k, t₁, hsplit, hbefore, hfails⟩ := steps_error hsteps
      have hrunning := shape.running_entered m.toEnv arguments fun hopens =>
        absurd hopens h.not_opens
      rw [hsplit] at hrunning
      obtain ⟨s₁, hr₁, -⟩ := hrunning.run hbefore
      exact h.not_fails shape hsplit hr₁ hn hfails
    · exact Act.unstage_of_unstaged (Plan.unstaged_ofList h.isKeyword_eq_false).2 hu

/-- What a call binds a plain list to. -/
theorem allBound (h : PlainList ps) {list : Option ParamList} {localOnly : Bool}
    {code : Stream} (hc : ParamList.compile? list localOnly = .ok code)
    (hps : ParamList.check? list = .ok ps) {arguments : List Value} {m m' : Machine}
    (hrun : bindArguments code arguments m = .ok () m') :
    Param.AllBound (callOutcome ps code arguments m m') ⟨ps, m.heap, arguments⟩ [] ps ∧
      ∀ n ∈ Param.allNames ps, (callOutcome ps code arguments m m').counts n :=
  ⟨bindArguments_bound hc hps (fun hopens => absurd hopens h.not_opens) hrun,
    fun _ hn => List.count_eq_one_of_mem h.nodup hn⟩

end Param.PlainList

/-- Two lists with an element each whose elements are all different do not commute. -/
theorem eq_nil_of_append_comm {α : Type} {a b : List α} (hn : (a ++ b).Nodup)
    (h : a ++ b = b ++ a) (hb : b ≠ []) : a = [] := by
  cases a with
  | nil => rfl
  | cons x a =>
    obtain ⟨y, b, rfl⟩ := List.exists_cons_of_ne_nil hb
    obtain ⟨rfl, -⟩ := List.cons_eq_cons.1 h
    exact absurd List.mem_cons_self ((List.nodup_append.1 hn).2.2 x List.mem_cons_self x · rfl)

/-- Arguments that are all different. -/
def distinctArguments (n : Nat) : List Value :=
  (List.range n).map fun i => .str (String.ofList (List.replicate i 'a'))

/-- Texts of different lengths differ. -/
theorem nodup_distinctArguments (n : Nat) : (distinctArguments n).Nodup :=
  List.nodup_range.map fun i j h => by
    simpa using congrArg List.length (String.ofList_inj.1 (Value.str.inj h))

/-- **Rests.** A call of a stream for required and optional parameters and a rest can be read back
from the parameters, in the order of their declaration, exactly if the values of the required
parameters between an optional one and the rest commute with the elements of the rest. So all calls
can be read back exactly if there are no such parameters. -/
theorem rest_reading {list : Option ParamList} {localOnly : Bool} {code : Stream} {ps : List Param}
    (hc : ParamList.compile? list localOnly = .ok code) (hps : ParamList.check? list = .ok ps)
    (h : Param.PlainList ps) :
    (∀ arguments m m', Param.count .positional ps ≤ arguments.length →
      bindArguments code arguments m = .ok () m' →
      (Param.ReadsBack m'.toEnv ps arguments ↔
        Param.valuesBeforeRest m'.toEnv ps ++ Param.restElements m'.toEnv ps =
          Param.restElements m'.toEnv ps ++ Param.valuesBeforeRest m'.toEnv ps)) ∧
    ((∀ arguments m m', Param.count .positional ps ≤ arguments.length →
      bindArguments code arguments m = .ok () m' → Param.ReadsBack m'.toEnv ps arguments) ↔
        Param.beforeRest ps = []) := by
  obtain ⟨s⟩ := exists_shape (ParamList.check?_accepted hps).1
  have hreads : ∀ arguments m m', Param.count .positional ps ≤ arguments.length →
      bindArguments code arguments m = .ok () m' → (Param.ReadsBack m'.toEnv ps arguments ↔
        Param.valuesBeforeRest m'.toEnv ps ++ Param.restElements m'.toEnv ps =
          Param.restElements m'.toEnv ps ++ Param.valuesBeforeRest m'.toEnv ps) := by
    intro arguments m m' hn hrun
    obtain ⟨hb, hcounts⟩ := h.allBound hc hps hrun
    obtain ⟨front, back, harguments, hread⟩ := h.readBack_eq s hb hcounts hn
    rw [Param.ReadsBack]
    have : Param.readBack m'.toEnv ps (arguments.length - Param.count .positional ps) = _ := hread
    rw [this]
    conv_lhs => rw [harguments]
    rw [List.append_cancel_left_eq, List.append_cancel_right_eq]
    rfl
  refine ⟨hreads, fun hall => ?_, fun hnil arguments m m' hn hrun => ?_⟩
  · -- arguments that are all different, and one more than needed so that the rest has an element
    let arguments := distinctArguments (Param.count .positional ps + Param.count .optional ps + 1)
    have hlength : arguments.length =
        Param.count .positional ps + Param.count .optional ps + 1 := by
      simp [arguments, distinctArguments]
    have henough : Param.count .positional ps + Param.count .optional ps ≤ arguments.length := by
      omega
    obtain ⟨m', hrun⟩ := h.bindArguments_ok hc hps henough default
    have hn : Param.count .positional ps ≤ arguments.length := by omega
    have hcomm := (hreads arguments default m' hn hrun).1 (hall arguments default m' hn hrun)
    obtain ⟨hb, hcounts⟩ := h.allBound hc hps hrun
    obtain ⟨front, back, harguments, -⟩ := h.readBack_eq s hb hcounts hn
    have hone := h.length_restElements s hb hcounts
    rw [hlength, Nat.add_sub_cancel_left] at hone
    have hnodup : (front ++ (Param.restElements m'.toEnv ps ++ Param.valuesBeforeRest m'.toEnv ps ++
        back)).Nodup := Eq.mp (congrArg List.Nodup harguments) (nodup_distinctArguments _)
    have hpair := (List.nodup_append.1 (List.nodup_append.1 hnodup).2.1).1
    rw [← hcomm] at hpair
    have hvalues := eq_nil_of_append_comm hpair hcomm fun hnil => by
      rw [show Param.restElements (callOutcome ps code arguments default m').finish ps = []
        from hnil]
        at hone
      cases hone
    exact List.map_eq_nil_iff.1 hvalues
  · rw [hreads arguments m m' hn hrun, Param.valuesBeforeRest, hnil]
    simp

/-- Every call of `(a, b = 1, *c, d)` with two values or more can be read back. -/
theorem early_rest_reading : ∃ code,
    ParamList.compile? (some ⟨[.required "a" {}, .optional "b" (.int 1) {}, .rest (some "c") {},
      .required "d" {}], {}⟩) true = .ok code ∧
    ∀ arguments m m', 2 ≤ arguments.length → bindArguments code arguments m = .ok () m' →
      Param.ReadsBack m'.toEnv [.required "a" {}, .optional "b" (.int 1) {}, .rest (some "c") {},
        .required "d" {}] arguments := by
  have hcode : ParamList.compile? (some ⟨[.required "a" {}, .optional "b" (.int 1) {},
      .rest (some "c") {}, .required "d" {}], {}⟩) true = .ok [⟨.arrayShift, {}⟩,
        ⟨.localSet "a" true, {}⟩, ⟨.arrayPop, {}⟩, ⟨.localSet "d" true, {}⟩, ⟨.dup, {}⟩,
        ⟨.localSet "c" true, {}⟩, ⟨.arrayIsEmpty, {}⟩, ⟨.ifTrue, {}⟩, ⟨.pushInt 1, {}⟩,
        ⟨.orElse, {}⟩, ⟨.arrayShift, {}⟩, ⟨.endIf, {}⟩, ⟨.localSet "b" true, {}⟩, ⟨.pop, {}⟩] := by
    cbv
  have hplain : Param.PlainList [.required "a" {}, .optional "b" (.int 1) {},
      .rest (some "c") {}, .required "d" {}] := ⟨by simp [Param.isPlain], rfl, by decide⟩
  exact ⟨_, hcode, (rest_reading hcode (by cbv) hplain).2.2 (by decide)⟩

/-- A call of `(b = 1, c, *d)` with three values binds `c` to the last one, and so it cannot be read
back. -/
theorem late_rest_reading : ∃ code m',
    ParamList.compile? (some ⟨[.optional "b" (.int 1) {}, .required "c" {}, .rest (some "d") {}],
      {}⟩) true = .ok code ∧
    bindArguments code [.int 1, .int 2, .int 3] default = .ok () m' ∧
    ¬ Param.ReadsBack m'.toEnv
      [.optional "b" (.int 1) {}, .required "c" {}, .rest (some "d") {}]
      [.int 1, .int 2, .int 3] := by
  have hcode : ParamList.compile? (some ⟨[.optional "b" (.int 1) {}, .required "c" {},
      .rest (some "d") {}], {}⟩) true = .ok [⟨.dup, {}⟩, ⟨.localSet "d" true, {}⟩, ⟨.arrayPop, {}⟩,
        ⟨.localSet "c" true, {}⟩, ⟨.arrayIsEmpty, {}⟩, ⟨.ifTrue, {}⟩, ⟨.pushInt 1, {}⟩,
        ⟨.orElse, {}⟩, ⟨.arrayShift, {}⟩, ⟨.endIf, {}⟩, ⟨.localSet "b" true, {}⟩, ⟨.pop, {}⟩] := by
    cbv
  refine ⟨_, _, hcode, by cbv, fun hreads => ?_⟩
  cbv at hreads
  cases hreads

end Formals
