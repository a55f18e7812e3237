import Formals.Proofs.Calls
import Formals.Proofs.Targets

/-!
# The law of assignment

Multiple assignment gives every target the value that is due to it. `Target.due` says which one it
is, from the place of the target on its level alone: the targets before the splat take values from
the left end, those behind it take values from the right end, and the splat stands for what is left
between. `Target.Assigned` says what it means that all targets of a level have received what is due
to them, in some order, and the targets of nested levels too, and `assignment_law` that a call of a
compiled stream assigns its targets.
-/

namespace Formals

open Machine

/-! ## What is due -/

namespace Target

/-- How many targets stand before the splat, or how many there are if there is no splat. -/
def before (ts : List Target) : Nat := (ts.takeWhile (·.part ≠ .rest)).length

/-- How many targets stand behind the splat. -/
def behind (ts : List Target) : Nat := ts.length - (before ts + 1)

/-- The elements that the targets before the splat leave. -/
def remainder (ts : List Target) (xs : List Value) : List Value := xs.drop (before ts)

/-- The elements that the splat stands for. -/
def leftover (ts : List Target) (xs : List Value) : List Value :=
  (remainder ts xs).take ((remainder ts xs).length - behind ts)

/-- The `j`-th of the last `t` of some elements. Where there are too few, it is `nil`. -/
def fromRight (ys : List Value) (t j : Nat) : Value :=
  if ys.length + j < t then .nil else ys[ys.length + j - t]?.getD .nil

/-- The value that is due to the target at an index, if that is no splat. -/
def due (ts : List Target) (xs : List Value) (i : Nat) : Value :=
  if i < before ts then xs[i]?.getD .nil
  else fromRight (remainder ts xs) (behind ts) (i - (before ts + 1))

/-- What the targets of a level receive. The splat receives the array `q`. -/
def deliveries (ts : List Target) (xs : List Value) (q : Nat) : List (Target × Value) :=
  ts.mapIdx fun i x => (x, if x.part = .rest then .array q else due ts xs i)

end Target

/-! ## What it means to receive a value -/

namespace Env

/-- A local variable is set: in the innermost scope that has it, and in the innermost scope if none
has. -/
structure SetsLocal (name : String) (v : Value) (env env' : Env) : Prop where
  others : env' = { env with scope := env'.scope, outer := env'.outer }
  scopes : ∃ inner scope outer, env.scopes = inner ++ scope :: outer ∧
    env'.scopes = inner ++ scope.insert name v :: outer ∧
    ((∀ s ∈ inner, s.contains name = false) ∧ scope.contains name = true ∨
      inner = [] ∧ ∀ s ∈ env.scopes, s.contains name = false)

/-- The environment with a new array. -/
def opened (env : Env) (xs : List Value) : Env := { env with heap := (env.heap.newArray xs).2 }

/-- An environment with other elements in an array. -/
def UpTo (q : Nat) (env env' : Env) : Prop :=
  ∃ items, env' = { env with heap := env.heap.setArray q items }

end Env

mutual
/-- A target receives a value, in an environment that becomes another one: variables and attributes
are set, and a nested level takes the value apart. Local and global variables have the value in the
final environment too. -/
inductive Target.Receives (final : Env) : Target → Value → Env → Env → Prop
  | ofScope {name : String} {span : Span} {v : Value} {env env' : Env} :
      env.SetsLocal name v env' → final.local? name = some v →
      Receives final (.var .ofScope name span) v env env'
  | ofInstance {name : String} {span : Span} {v : Value} {env : Env} {self : Nat} :
      env.selfValue = .object self →
      Receives final (.var .ofInstance name span) v env
        { env with heap := env.heap.setVariable self name v }
  | ofProgram {name : String} {span : Span} {v : Value} {env : Env} :
      final.global? name = some v →
      Receives final (.var .ofProgram name span) v env
        { env with globals := env.globals.insert name v }
  | attr {receiver : Expr} {writer name : String} {span : Span} {v : Value} {object : Nat}
      {t t' : Trail} : receiver.eval t = .ok (.object object) t' →
      writtenAttribute? writer = some name →
      Receives final (.attr receiver writer span) v t.toEnv
        { t'.toEnv with heap := t'.heap.setVariable object ("@" ++ name) v }
  | nested {children : List Target} {span : Span} {v : Value} {xs : List Value} {env env' : Env} :
      v.elements env.heap = .ok xs → Target.Assigned final children xs env env' →
      Receives final (.nested children span) v env env'
  | nothing {span : Span} {v : Value} {env : Env} : Receives final (.rest none span) v env env
  | splat {target : Target} {span : Span} {v : Value} {env env' : Env} :
      Receives final target v env env' → Receives final (.rest (some target) span) v env env'

/-- The targets of a level are assigned to some elements: those are put into a new array, and all
targets receive what is due to them. In the final environment the array has the elements that the
splat stands for. -/
inductive Target.Assigned (final : Env) : List Target → List Value → Env → Env → Prop
  | intro {ts : List Target} {xs : List Value} {env env' : Env} {order : List (Target × Value)} :
      order.Perm (Target.deliveries ts xs env.heap.arrays.size) →
      Target.Delivered final env.heap.arrays.size order (env.opened xs) env' →
      ((∃ x ∈ ts, x.part = .rest) →
        final.heap.arrayAt env.heap.arrays.size = Target.leftover ts xs) →
      Assigned final ts xs env env'

/-- Targets receive values one after the other. In between only the array `q` changes. -/
inductive Target.Delivered (final : Env) : Nat → List (Target × Value) → Env → Env → Prop
  | nil {q : Nat} {env : Env} : Delivered final q [] env env
  | cons {q : Nat} {x : Target} {v : Value} {others : List (Target × Value)}
      {env env₁ env₂ env' : Env} : env.UpTo q env₁ → Target.Receives final x v env₁ env₂ →
      Delivered final q others env₂ env' → Delivered final q ((x, v) :: others) env env'
end

/-! ## Single targets -/

/-- Assigning a variable in a scope that has it. -/
theorem Env.assignIn?_cases (name : String) (v : Value) (scopes : List Scope) :
    (assignIn? name v scopes = none ∧ ∀ s ∈ scopes, s.contains name = false) ∨
    ∃ inner scope outer, scopes = inner ++ scope :: outer ∧
      assignIn? name v scopes = some (inner ++ scope.insert name v :: outer) ∧
      (∀ s ∈ inner, s.contains name = false) ∧ scope.contains name = true := by
  induction scopes with
  | nil => exact .inl ⟨rfl, nofun⟩
  | cons scope rest ih =>
    cases hc : scope.contains name with
    | true => exact .inr ⟨[], scope, rest, rfl, by rw [assignIn?, if_pos hc]; rfl, nofun, hc⟩
    | false =>
      have hassign : assignIn? name v (scope :: rest) =
          (assignIn? name v rest).map (scope :: ·) := by
        rw [assignIn?, hc, if_neg Bool.false_ne_true]
      rcases ih with ⟨hnone, hall⟩ | ⟨inner, s, outer, rfl, hsome, hinner, hs⟩
      · exact .inl ⟨by rw [hassign, hnone]; rfl, List.forall_mem_cons.2 ⟨hc, hall⟩⟩
      · exact .inr ⟨scope :: inner, s, outer, rfl, by rw [hassign, hsome]; rfl,
          List.forall_mem_cons.2 ⟨hc, hinner⟩, hs⟩

/-- A local variable that is not kept in the innermost scope is set where it is. -/
theorem Env.setsLocal (env : Env) (name : String) (v : Value) :
    env.SetsLocal name v (env.setLocal name v false) := by
  rw [setLocal, Bool.false_or]
  cases hc : env.scope.contains name with
  | true => exact ⟨rfl, [], env.scope, env.outer, rfl, rfl, .inl ⟨nofun, hc⟩⟩
  | false =>
    rw [if_neg Bool.false_ne_true]
    rcases Env.assignIn?_cases name v env.outer with
      ⟨hnone, hall⟩ | ⟨inner, s, outer, houter, hsome, hinner, hs⟩
    · rw [hnone]
      exact ⟨rfl, [], env.scope, env.outer, rfl, rfl, .inr ⟨rfl, List.forall_mem_cons.2 ⟨hc, hall⟩⟩⟩
    · rw [hsome]
      refine ⟨rfl, env.scope :: inner, s, outer, ?_, rfl,
        .inl ⟨List.forall_mem_cons.2 ⟨hc, hinner⟩, hs⟩⟩
      rw [scopes, houter]
      rfl

/-- The attribute that a writer writes. -/
theorem writtenAttribute?_of_isWriterName {writer : String} (h : isWriterName writer = true) :
    ∃ name, writtenAttribute? writer = some name := by
  unfold isWriterName at h
  split at h
  · rename_i name hrev
    exact ⟨String.ofList name.reverse, by simp only [writtenAttribute?, hrev]⟩
  · cases h

/-- Only an object answers a writer. -/
theorem dispatch_writer {h h' : Heap} {receiver v answer : Value} {writer name : String}
    (hw : writtenAttribute? writer = some name)
    (hd : dispatch h receiver writer [v] = .ok (answer, h')) :
    ∃ object, receiver = .object object ∧ h' = h.setVariable object ("@" ++ name) v := by
  have hnot : integerOperation? writer = none := by
    unfold integerOperation?
    split <;> first | rfl | simp [writtenAttribute?] at hw
  unfold dispatch at hd
  split at hd
  · cases hd
  cases receiver with
  | object object =>
    simp only [Formals.answer, hw] at hd
    cases hd
    exact ⟨object, rfl, rfl⟩
  | int n =>
    simp only [Formals.answer, hnot] at hd
    cases hd
  | str s =>
    simp only [Formals.answer] at hd
    split at hd <;> cases hd
  | _ => cases hd

/-- Writing an attribute sets an instance variable of an object. -/
theorem Act.writeAttr_object {receiver : Expr} {writer : String} {v : Value} {t t' : Trail}
    {u : Unit} (hw : isWriterName writer = true) (h : writeAttr receiver writer v t = .ok u t') :
    ∃ object name t₁, receiver.eval t = .ok (.object object) t₁ ∧
      writtenAttribute? writer = some name ∧
      t'.toEnv = { t₁.toEnv with heap := t₁.heap.setVariable object ("@" ++ name) v } := by
  obtain ⟨r, t₁, hr, h⟩ := bind_eq_ok.1 h
  obtain ⟨answer, t₂, hs, h⟩ := bind_eq_ok.1 h
  cases h
  obtain ⟨name, hname⟩ := writtenAttribute?_of_isWriterName hw
  unfold send at hs
  split at hs
  · rename_i hd
    cases hs
    obtain ⟨object, rfl, rfl⟩ := dispatch_writer hname hd
    exact ⟨object, name, t₁, hr, hname, rfl⟩
  · cases hs

/-! ## Dealing the values in turns -/

namespace Target

/-- What targets receive that have their turns one after the other. -/
def dealt (q : Nat) : List Value → List (Side × Target) → List (Target × Value)
  | _, [] => []
  | items, (side, x) :: turns =>
    if x.part = .rest then (x, .array q) :: dealt q items turns
    else (x, side.next items) :: dealt q (side.others items) turns

/-- The elements that are left when some targets had their turns. -/
def left : List Value → List (Side × Target) → List Value
  | items, [] => items
  | items, (side, x) :: turns =>
    left (if x.part = .rest then items else side.others items) turns

variable {q : Nat} {items : List Value} {ts : List Target}

/-- What is dealt in turns in a row is what is dealt in the first ones, and then in the others with
the elements that those leave. -/
theorem dealt_append (a b : List (Side × Target)) :
    dealt q items (a ++ b) = dealt q items a ++ dealt q (left items a) b := by
  induction a generalizing items with
  | nil => rfl
  | cons turn a ih =>
    obtain ⟨side, x⟩ := turn
    rw [List.cons_append, dealt, dealt, left]
    split <;> rw [ih, List.cons_append]

/-- What turns in a row leave is what the others leave of what the first ones do. -/
theorem left_append (a b : List (Side × Target)) :
    left items (a ++ b) = left (left items a) b := by
  induction a generalizing items with
  | nil => rfl
  | cons turn a ih =>
    obtain ⟨side, x⟩ := turn
    rw [List.cons_append, left, left]
    exact ih

/-- The first turn of a target that is no splat. -/
theorem dealt_positional {side : Side} {x : Target} {turns : List (Side × Target)}
    (hx : x.part = .positional) : dealt q items ((side, x) :: turns) =
      (x, side.next items) :: dealt q (side.others items) turns := by
  rw [dealt, if_neg (by rw [hx]; decide)]

/-- A target that is no splat leaves the elements without its own. -/
theorem left_positional {side : Side} {x : Target} {turns : List (Side × Target)}
    (hx : x.part = .positional) :
    left items ((side, x) :: turns) = left (side.others items) turns := by
  rw [left, if_neg (by rw [hx]; decide)]

/-- Turns from the left. -/
theorem dealt_left (items : List Value) (hp : ∀ x ∈ ts, x.part = .positional) :
    dealt q items (Shape.sided .left ts) = ts.mapIdx (fun i x => (x, items[i]?.getD .nil)) ∧
      left items (Shape.sided .left ts) = items.drop ts.length := by
  induction ts generalizing items with
  | nil => exact ⟨rfl, rfl⟩
  | cons x ts ih =>
    obtain ⟨hdealt, hleft⟩ := ih items.tail fun x h => hp x (List.mem_cons_of_mem _ h)
    have hx := hp x List.mem_cons_self
    rw [Shape.sided, List.map_cons, dealt_positional hx, left_positional hx, List.mapIdx_cons]
    refine ⟨?_, hleft.trans (by rw [List.drop_tail, List.length_cons])⟩
    rw [← List.drop_zero (l := items), Side.next_drop, List.drop_zero]
    refine congrArg _ (hdealt.trans ?_)
    simp only [List.getElem?_tail]

/-- The last of some elements. -/
theorem fromRight_last (n : Nat) : fromRight items (n + 1) n = Side.right.next items := by
  have h := Side.next_take items 0
  rw [Nat.sub_zero, List.take_length] at h
  rw [h, fromRight]
  cases items with
  | nil => rw [if_pos (by simp), if_neg (by simp)]
  | cons v others =>
    have hindex : (v :: others).length + n - (n + 1) = (v :: others).length - (0 + 1) := by omega
    rw [if_neg (by simp only [List.length_cons]; omega), if_pos (by simp), hindex]

/-- The others count from the right end of what the last one leaves. -/
theorem fromRight_dropLast {n j : Nat} (hj : j < n) :
    fromRight items.dropLast n j = fromRight items (n + 1) j := by
  rw [fromRight, fromRight, List.length_dropLast]
  cases items with
  | nil => rw [if_pos (by simp; omega), if_pos (by simp; omega)]
  | cons v others =>
    rw [List.length_cons, Nat.add_sub_cancel]
    by_cases hlt : others.length + j < n
    · rw [if_pos hlt, if_pos (by omega)]
    · rw [if_neg hlt, if_neg (by omega), List.getElem?_dropLast, if_pos (by simp; omega)]
      congr 2
      omega

/-- Turns from the right. -/
theorem dealt_right (items : List Value) (hp : ∀ x ∈ ts, x.part = .positional) :
    dealt q items (Shape.sided .right ts.reverse) =
        (ts.mapIdx fun j x => (x, fromRight items ts.length j)).reverse ∧
      left items (Shape.sided .right ts.reverse) = items.take (items.length - ts.length) := by
  induction ts using List.reverseRecOn generalizing items with
  | nil => exact ⟨rfl, by rw [List.length_nil, Nat.sub_zero, List.take_length]; rfl⟩
  | append_singleton ts x ih =>
    obtain ⟨hdealt, hleft⟩ := ih items.dropLast fun x h => hp x (List.mem_append_left _ h)
    have hx := hp x (by simp)
    have hsame : (ts.mapIdx fun j y => (y, fromRight items.dropLast ts.length j)) =
        ts.mapIdx fun j y => (y, fromRight items (ts.length + 1) j) :=
      List.mapIdx_eq_mapIdx_iff.2 fun j hj => by rw [fromRight_dropLast hj]
    rw [List.reverse_concat, Shape.sided, List.map_cons, dealt_positional hx, left_positional hx,
      List.length_append, List.length_singleton, List.mapIdx_concat, List.reverse_concat,
      fromRight_last]
    refine ⟨congrArg _ (hdealt.trans (by rw [hsame])), hleft.trans ?_⟩
    rw [List.length_dropLast, List.dropLast_eq_take, List.take_take]
    congr 1
    omega

section

variable {front back : List Target} {splat : Target} (hsplat : splat.part = .rest)
  (hfront : ∀ x ∈ front, x.part = .positional)

include hsplat hfront

/-- The targets before a splat are those in front of it. -/
theorem before_splat : before (front ++ splat :: back) = front.length := by
  rw [before, List.takeWhile_append_of_pos fun x hx => by simp [hfront x hx],
    List.takeWhile_cons_of_neg (by simp [hsplat]), List.append_nil]

/-- The targets behind a splat are those at the back. -/
theorem behind_splat : behind (front ++ splat :: back) = back.length := by
  rw [behind, before_splat hsplat hfront, List.length_append, List.length_cons]
  omega

/-- The targets in front of a splat count from the left, and those behind it from the right. -/
theorem deliveries_splat (xs : List Value) (q : Nat) (hback : ∀ x ∈ back, x.part = .positional) :
    deliveries (front ++ splat :: back) xs q =
      (front.mapIdx fun i x => (x, xs[i]?.getD .nil)) ++ (splat, .array q) ::
        back.mapIdx fun j x => (x, fromRight (xs.drop front.length) back.length j) := by
  have hbefore : before (front ++ splat :: back) = front.length := before_splat hsplat hfront
  have hbehind : behind (front ++ splat :: back) = back.length := behind_splat hsplat hfront
  rw [deliveries, List.mapIdx_append, List.mapIdx_cons, if_pos hsplat]
  congr 1
  · refine List.mapIdx_eq_mapIdx_iff.2 fun i hi => ?_
    rw [if_neg (by simp [hfront _ (List.getElem_mem hi)]), due, if_pos (hbefore ▸ hi)]
  · refine congrArg _ (List.mapIdx_eq_mapIdx_iff.2 fun j hj => ?_)
    rw [if_neg (by simp [hback _ (List.getElem_mem hj)]), due, remainder, hbefore, hbehind,
      if_neg (by omega)]
    congr 2
    omega

end

/-- **The index law.** In the order in which a level is assigned every target receives what is due
to it, and the splat is left with what it stands for. -/
theorem dealt_perm (q : Nat) (xs : List Value) (hacc : Phase.leading.Accepts (ts.map part)) :
    (dealt q xs (Plan.ofList part ts).turns).Perm (deliveries ts xs q) ∧
      ((∃ x ∈ ts, x.part = .rest) → left xs (Plan.ofList part ts).turns = leftover ts xs) := by
  rcases turns_cases hacc with ⟨hp, hturns⟩ | ⟨front, splat, back, rfl, hsplat, hp, hturns⟩
  · have hbefore : before ts = ts.length := by
      rw [before, List.takeWhile_eq_self_iff.2 fun x hx => by simp [hp x hx]]
    refine ⟨?_, fun ⟨x, hx, hrest⟩ => by rw [hp x hx] at hrest; cases hrest⟩
    rw [hturns, (dealt_left xs hp).1]
    refine .of_eq (List.mapIdx_eq_mapIdx_iff.2 fun i hi => ?_)
    rw [if_neg (by simp [hp _ (List.getElem_mem hi)]), due, if_pos (hbefore ▸ hi)]
  · have hfront : ∀ x ∈ front, x.part = .positional := fun x hx => hp x (List.mem_append_left _ hx)
    have hback : ∀ x ∈ back, x.part = .positional := fun x hx => hp x (List.mem_append_right _ hx)
    obtain ⟨hdealt, hleft⟩ := dealt_left xs hfront
    obtain ⟨hdealt', hleft'⟩ := dealt_right (xs.drop front.length) hback
    rw [hturns, dealt_append, left_append, hdealt, hleft, dealt, left, if_pos hsplat, if_pos hsplat,
      hdealt', hleft', deliveries_splat hsplat hfront xs q hback, leftover, remainder,
      before_splat hsplat hfront, behind_splat hsplat hfront]
    exact ⟨.append_left _ (.cons _ (List.reverse_perm _)), fun _ => rfl⟩

end Target

/-! ## What lasts -/

/-- The final environment has some variables and arrays as they are. -/
structure Trail.Lasts (final : Env) (vars : List (VariableKind × String)) (arrays : Nat → Prop)
    (t : Trail) : Prop where
  locals : ∀ n, (.ofScope, n) ∈ vars → final.local? n = t.local? n
  globals : ∀ n, (.ofProgram, n) ∈ vars → final.global? n = t.global? n
  arrays : ∀ a < t.heap.arrays.size, arrays a → final.heap.arrayAt a = t.heap.arrayAt a

namespace Trail.Lasts

variable {final : Env} {vars vars' changed : List (VariableKind × String)}
  {arrays arrays' arrays'' : Nat → Prop} {t t' : Trail}

/-- What lasts from after a run on lasts from before it on, if the run leaves it alone. -/
theorem framed (hl : t'.Lasts final vars arrays) (hf : Assigns changed arrays' t t')
    (hn : ∀ v ∈ vars', v ∈ vars ∧ v ∉ changed)
    (ha : ∀ a < t.heap.arrays.size, arrays'' a → arrays' a ∧ arrays a) :
    t.Lasts final vars' arrays'' where
  locals n hmem := (hl.locals n (hn _ hmem).1).trans (hf.locals n (hn _ hmem).2)
  globals n hmem := (hl.globals n (hn _ hmem).1).trans (hf.globals n (hn _ hmem).2)
  arrays a hlt hp :=
    (hl.arrays a (Nat.lt_of_lt_of_le hlt hf.heap.arrays_le) (ha a hlt hp).2).trans
      (hf.heap.arrayAt_eq a hlt (ha a hlt hp).1)

/-- What lasts may be forgotten in part. -/
theorem mono (hl : t.Lasts final vars arrays) (hn : ∀ v ∈ vars', v ∈ vars)
    (ha : ∀ a, arrays' a → arrays a) : t.Lasts final vars' arrays' where
  locals n hmem := hl.locals n (hn _ hmem)
  globals n hmem := hl.globals n (hn _ hmem)
  arrays a hlt hp := hl.arrays a hlt (ha a hp)

end Trail.Lasts

/-- An array that is set to what it has stays as it is, whether it is there or not. -/
theorem Heap.setArray_arrayAt (h : Heap) (q : Nat) : h.setArray q (h.arrayAt q) = h := by
  unfold setArray arrayAt
  congr 1
  refine Array.ext (by simp) fun i hi _ => ?_
  rw [Array.getElem_setIfInBounds]
  split
  · rename_i hq
    subst hq
    rw [Array.getD_eq_getD_getElem?, Array.getElem?_eq_getElem (by simpa using hi)]
    rfl
  · rfl

/-- A target receives the value that its action gets, if its variables and the new arrays last. -/
def Target.Settles (x : Target) : Prop :=
  ∀ ⦃final v t t'⦄, x.receive v t = .ok () t' → x.vars.Nodup →
    t'.Lasts final x.vars (t.heap.arrays.size ≤ ·) → x.Receives final v t.toEnv t'.toEnv

/-- **Steps.** The targets of some steps receive what is dealt to them. -/
theorem targetSteps_delivered {final : Env} {steps : List (LevelState × Target)} {q k k' : Nat}
    {t t' : Trail} (hx : ∀ step ∈ steps, step.2.Settles)
    (h : Act.steps q (targetTasks steps) k t = .ok k' t') (hq : q < t.heap.arrays.size)
    (hn : (Target.allVars (steps.map Prod.snd)).Nodup)
    (hl : t'.Lasts final (Target.allVars (steps.map Prod.snd)) (t.heap.arrays.size ≤ ·)) :
    Target.Delivered final q (Target.dealt q (t.heap.arrayAt q)
        (steps.map fun step => (step.1.side, step.2))) t.toEnv t'.toEnv ∧
      t'.heap.arrayAt q =
        Target.left (t.heap.arrayAt q) (steps.map fun step => (step.1.side, step.2)) := by
  induction steps generalizing k t with
  | nil =>
    cases h
    exact ⟨.nil, rfl⟩
  | cons step steps ih =>
    obtain ⟨s, x⟩ := step
    obtain ⟨k₁, t₁, hfirst, hrest⟩ := targetSteps_cons_ok h
    have hsettles : x.Settles := hx _ List.mem_cons_self
    rw [List.map_cons, Target.allVars] at hn hl
    obtain ⟨hvars, hothers, hdisjoint⟩ := List.nodup_append.1 hn
    have hlater := targetSteps_assign (fun step _ => step.2.receive_assigns) hrest
    -- what the target sets lasts, for the others neither set it nor change new arrays
    have hlast : ∀ {n}, q < n → t.heap.arrays.size ≤ n →
        t₁.Lasts final x.vars (n ≤ ·) := fun hqn hle =>
      hl.framed hlater (fun v hv =>
        ⟨List.mem_append_left _ hv, fun hv' => hdisjoint v hv v hv' rfl⟩)
        fun a _ ha => ⟨Nat.ne_of_gt (Nat.lt_of_lt_of_le hqn ha), Nat.le_trans hle ha⟩
    have hcontinue : ∀ {items}, t.heap.arrays.size ≤ t₁.heap.arrays.size →
        t₁.heap.arrayAt q = items → Target.Delivered final q (Target.dealt q items
          (steps.map fun step => (step.1.side, step.2))) t₁.toEnv t'.toEnv ∧
        t'.heap.arrayAt q = Target.left items (steps.map fun step => (step.1.side, step.2)) := by
      rintro items hle rfl
      exact ih (fun step hmem => hx step (List.mem_cons_of_mem _ hmem)) hrest
        (Nat.lt_of_lt_of_le hq hle) hothers
        (hl.mono (fun _ hv => List.mem_append_right _ hv) fun a ha => Nat.le_trans hle ha)
    rcases (Target.task_ok hfirst).2 with ⟨hpart, hr⟩ | ⟨hpart, hr⟩
    · have hsize := t.size_taken s.side q
      have hkeeps := (x.receive_assigns hr).heap
      have hreceives := hsettles hr hvars (hlast (hsize ▸ hq) (Nat.le_of_eq hsize.symm))
      obtain ⟨hdelivered, hleft⟩ := hcontinue (hsize ▸ hkeeps.arrays_le)
        ((hkeeps.arrayAt_eq q (hsize ▸ hq) trivial).trans (Heap.arrayAt_setArray hq _))
      rw [List.map_cons, Target.dealt_positional hpart, Target.left_positional hpart]
      exact ⟨.cons ⟨_, rfl⟩ hreceives hdelivered, hleft⟩
    · have hkeeps := (x.receive_assigns hr).heap
      have hreceives := hsettles hr hvars (hlast hq (Nat.le_refl _))
      obtain ⟨hdelivered, hleft⟩ := hcontinue hkeeps.arrays_le (hkeeps.arrayAt_eq q hq trivial)
      rw [List.map_cons, Target.dealt, Target.left, if_pos hpart, if_pos hpart]
      exact ⟨.cons ⟨t.heap.arrayAt q, by rw [Heap.setArray_arrayAt]⟩ hreceives hdelivered, hleft⟩

/-- **Levels.** The targets of a level are assigned to the elements in a new array. -/
theorem targetLevel_assigned {final : Env} {ts : List Target} {xs : List Value} {u : Unit}
    {t t' : Trail} (hx : ∀ x ∈ ts, x.Settles) (hacc : Phase.leading.Accepts (ts.map Target.part))
    (h : levelAct (Target.tasks ts) t.heap.arrays.size (t.opened xs) = .ok u t')
    (hn : (Target.allVars ts).Nodup)
    (hl : t'.Lasts final (Target.allVars ts) (t.heap.arrays.size ≤ ·)) :
    Target.Assigned final ts xs t.toEnv t'.toEnv := by
  obtain ⟨shape⟩ := exists_shape hacc
  obtain ⟨k, hsteps⟩ := targetLevel_ok h
  have hvars : (Target.allVars ((Plan.ofList Target.part ts).steps.map Prod.snd)).Perm
      (Target.allVars ts) := by
    rw [Target.allVars_eq, Target.allVars_eq]
    exact shape.steps_perm.flatMap_right _
  have hq : t.heap.arrays.size < (t.opened xs).heap.arrays.size := by
    simp [Trail.opened, Heap.newArray]
  have hat : (t.opened xs).heap.arrayAt t.heap.arrays.size = xs := t.heap.arrayAt_newArray xs
  obtain ⟨hdelivered, hleft⟩ := targetSteps_delivered
    (fun step hstep => hx _ (Plan.mem_of_mem_ofList hstep)) hsteps hq (hvars.nodup_iff.2 hn)
    (hl.mono (fun v hv => hvars.mem_iff.1 hv) fun a ha => Nat.le_trans (Nat.le_of_lt hq) ha)
  rw [hat] at hdelivered hleft
  obtain ⟨hperm, hsplat⟩ := Target.dealt_perm t.heap.arrays.size xs hacc
  refine .intro hperm hdelivered fun hrest => ?_
  have hkeeps := (targetLevel_assign (fun x _ => x.receive_assigns) h).heap
  rw [hl.arrays _ (Nat.lt_of_lt_of_le hq hkeeps.arrays_le) (Nat.le_refl _), ← hsplat hrest]
  exact hleft

/-- Variables receive what is assigned to them. -/
theorem Target.var_settles (kind : VariableKind) (name : String) (span : Span) :
    (Target.var kind name span).Settles := by
  intro final v t t' h _ hl
  cases kind with
  | ofScope =>
    have hlocal := hl.locals name (List.mem_singleton_self _)
    rw [Act.setLocal_ok h] at hlocal ⊢
    exact .ofScope (t.toEnv.setsLocal name v)
      (hlocal.trans ((t.toEnv.local?_setLocal name v false name).trans (if_pos rfl)))
  | ofInstance =>
    have h : Act.setInstance name v t = .ok () t' := h
    unfold Act.setInstance at h
    split at h
    · rename_i hself
      cases h
      exact .ofInstance hself
    · cases h
  | ofProgram =>
    cases h
    exact .ofProgram ((hl.globals name (List.mem_singleton_self _)).trans
      ((Entries.get?_insert name name v t.globals).trans (if_pos rfl)))

/-- Attributes receive what is written to them. -/
theorem Target.attr_settles {receiver : Expr} {writer : String} {span : Span}
    (hw : isWriterName writer = true) : (Target.attr receiver writer span).Settles := by
  intro final v t t' h _ _
  obtain ⟨object, name, t₁, hr, hname, ht⟩ := Act.writeAttr_object hw h
  rw [ht]
  exact .attr hr hname

/-- Every target that is checked receives what its action gets. -/
theorem Target.settles (x : Target) (hchecked : x.Checked) : x.Settles := by
  induction x with
  | var kind name span => exact Target.var_settles kind name span
  | attr receiver writer span => exact Target.attr_settles hchecked
  | nested children span ih =>
    intro final v t t' h hn hl
    obtain ⟨items, hitems, hlevel⟩ := takeApart_ok h
    have hp : ∀ x ∈ children, x.Settles := fun x hx =>
      ih x hx (Target.allChecked_iff.1 hchecked.2 x hx)
    exact .nested hitems (targetLevel_assigned hp hchecked.1 hlevel hn hl)
  | rest target span =>
    intro final v t t' h hn hl
    cases target with
    | none =>
      cases h
      exact .nothing
    | some target =>
      have hsplat : target.MaySplat := hchecked target rfl
      cases target with
      | var kind name span' => exact .splat (Target.var_settles kind name span' h hn hl)
      | attr receiver writer span' =>
        exact .splat (Target.attr_settles hsplat h .nil ⟨nofun, nofun, hl.arrays⟩)
      | nested | rest => exact hsplat.elim

/-- All of some targets that are checked receive what their actions get. -/
theorem Target.allSettle (ts : List Target) (hchecked : Target.AllChecked ts) :
    ∀ x ∈ ts, x.Settles := fun x hx => x.settles (Target.allChecked_iff.1 hchecked x hx)

/-! ## Calls -/

/-- **Assignment.** Whenever the call of a compiled stream ends well, all targets are assigned to
the elements of the right-hand side, on the outermost level and in the nested ones, if they are all
different variables. A value that is no array is the only element. -/
theorem assignment_law {list : TargetList} {code : Stream} {ts : List Target} {value : Value}
    {m m' : Machine} (hc : list.compile = .ok code) (hts : list.check = .ok ts)
    (hn : (Target.allVars ts).Nodup) (hrun : assign code value m = .ok () m') :
    Target.Assigned m'.toEnv ts (value.splat m.heap) m.toEnv m'.toEnv := by
  obtain ⟨ts', hts', hr⟩ := compile_targets_realizes hc
  obtain rfl : ts' = ts := Except.ok.inj (hts'.symm.trans hts)
  obtain ⟨hacc, hall⟩ := TargetList.check_checked hts
  have hcall : call code value.splat m = .ok () m' := hrun
  obtain ⟨t, hact, ht, -⟩ := act_of_call hr hcall
  rw [callAct_apply] at hact
  have hlevel : levelAct (Target.tasks ts') m.toEnv.trail.heap.arrays.size
      (m.toEnv.trail.opened (value.splat m.heap)) = .ok () t := hact
  have hlasts : t.Lasts m'.toEnv (Target.allVars ts') (m.toEnv.trail.heap.arrays.size ≤ ·) :=
    ht ▸ ⟨fun _ _ => rfl, fun _ _ => rfl, fun _ _ _ => rfl⟩
  have := targetLevel_assigned (Target.allSettle ts' hall) hacc hlevel hn hlasts
  rwa [ht] at this

/-- `a, (b, *$c), *@d, self.e = ` and an array of two arrays and more: `a` gets the first, `b` the
first of the second, and the splats get what is left. -/
theorem nested_assignment : ∃ code ts m,
    TargetList.compile ⟨[.var .ofScope "a" {},
      .nested [.var .ofScope "b" {}, .splat (some (.var .ofProgram "$c" {})) {}] {},
      .splat (some (.var .ofInstance "@d" {})) {}, .attr .self "e=" {}], {}⟩ = .ok code ∧
    TargetList.check ⟨[.var .ofScope "a" {},
      .nested [.var .ofScope "b" {}, .splat (some (.var .ofProgram "$c" {})) {}] {},
      .splat (some (.var .ofInstance "@d" {})) {}, .attr .self "e=" {}], {}⟩ = .ok ts ∧
    m.heap = ⟨#[[.int 1, .array 1, .int 2, .int 3, .int 4], [.int 5, .int 6, .int 7]], #[],
      #[⟨"Point", []⟩]⟩ ∧
    ∃ m', assign code (.array 0) m = .ok () m' ∧
      m'.scope = [("a", .int 1), ("b", .int 5)] ∧ m'.globals = [("$c", .array 3)] ∧
      m'.heap.objectAt 0 = ⟨"Point", [("@d", .array 2), ("@e", .int 4)]⟩ ∧
      Target.Assigned m'.toEnv ts [.int 1, .array 1, .int 2, .int 3, .int 4] m.toEnv m'.toEnv := by
  have hcode : TargetList.compile ⟨[.var .ofScope "a" {},
      .nested [.var .ofScope "b" {}, .splat (some (.var .ofProgram "$c" {})) {}] {},
      .splat (some (.var .ofInstance "@d" {})) {}, .attr .self "e=" {}], {}⟩ = .ok
        [⟨.arrayShift, {}⟩, ⟨.localSet "a" false, {}⟩, ⟨.arrayShift, {}⟩, ⟨.toArray, {}⟩,
          ⟨.arrayShift, {}⟩, ⟨.localSet "b" false, {}⟩, ⟨.dup, {}⟩, ⟨.globalSet "$c", {}⟩,
          ⟨.pop, {}⟩,
          ⟨.dup, {}⟩, ⟨.instanceSet "@d", {}⟩, ⟨.arrayPop, {}⟩, ⟨.pushSelf, {}⟩, ⟨.setArgc 1, {}⟩,
          ⟨.send "e=" true true, {}⟩, ⟨.pop, {}⟩, ⟨.pop, {}⟩] := by
    cbv
  have hcheck : TargetList.check ⟨[.var .ofScope "a" {},
      .nested [.var .ofScope "b" {}, .splat (some (.var .ofProgram "$c" {})) {}] {},
      .splat (some (.var .ofInstance "@d" {})) {}, .attr .self "e=" {}], {}⟩ = .ok
        [.var .ofScope "a" {},
          .nested [.var .ofScope "b" {}, .rest (some (.var .ofProgram "$c" {})) {}] {},
          .rest (some (.var .ofInstance "@d" {})) {}, .attr .self "e=" {}] := by
    cbv
  refine ⟨_, _, ⟨⟨_, [], [], [], .object 0⟩, [], 0⟩, hcode, hcheck, rfl, ?_⟩
  suffices hrun : ∃ m', assign _ (.array 0) _ = .ok () m' ∧ m'.scope = _ ∧ m'.globals = _ ∧
      m'.heap.objectAt 0 = _ by
    obtain ⟨m', hrun, hscope, hglobals, hobject⟩ := hrun
    exact ⟨m', hrun, hscope, hglobals, hobject, assignment_law hcode hcheck (by decide) hrun⟩
  exact ⟨_, by cbv, rfl, rfl, rfl⟩

end Formals
