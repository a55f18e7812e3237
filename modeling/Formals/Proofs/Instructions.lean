import Formals.Proofs.Actions

/-!
# The actions of single instructions

Each instruction that binding emits realizes an action: it finds what it works on, and if it fails
then because of the arguments (`isValueError_dispatch` is the case of a method). The number of
arguments of a call is set right before the call, so `Realizes.send` is about the two instructions
together.
-/

namespace Formals

open Machine

/-! ## Errors that come from the arguments -/

/-- Where a computation fails that has two parts. -/
theorem error_of_bind {ε α β : Type} {x : Except ε α} {f : α → Except ε β} {e : ε}
    (h : (x >>= f) = .error e) : x = .error e ∨ ∃ a, x = .ok a ∧ f a = .error e := by
  cases x with
  | error e' =>
    cases h
    exact .inl rfl
  | ok a => exact .inr ⟨a, rfl, h⟩

/-- A computation of which the last step is to return something fails where the rest does. -/
theorem error_of_bind_pure {ε α β : Type} {x : Except ε α} {f : α → β} {e : ε}
    (h : (do return f (← x)) = Except.error e) : x = .error e := by
  rcases error_of_bind h with h | ⟨a, -, h⟩
  · exact h
  · cases h

/-- A computation that has two parts ends well if both do. -/
theorem ok_of_bind {ε α β : Type} {x : Except ε α} {f : α → Except ε β} {b : β}
    (h : (x >>= f) = .ok b) : ∃ a, x = .ok a ∧ f a = .ok b := by
  cases x with
  | error e => cases h
  | ok a => exact ⟨a, rfl, h⟩

/-- Whether an error comes from the values that an operation gets, and not from a name. -/
def RuntimeError.isValueError : RuntimeError → Bool
  | .typeError _ | .noMethod _ _ | .argumentCount _ _ | .integerOverflow => true
  | _ => false

/-- What the values of an expression can be at fault for is at the fault of the arguments. -/
theorem RuntimeError.isArgumentError_of_isValueError {e : RuntimeError} (h : e.isValueError) :
    e.isArgumentError := by
  cases e <;> first | rfl | cases h

/-- Taking a value apart fails only because of the value. -/
theorem isValueError_elements {h : Heap} {v : Value} {e : RuntimeError}
    (he : v.elements h = .error e) : e.isValueError := by
  cases v <;> cases he <;> rfl

/-- A hash literal fails only because of its keys. -/
theorem isValueError_entriesOf {h : Heap} {e : RuntimeError} {flat : List Value}
    {found : Entries Key Value} (he : entriesOf h found flat = .error e) : e.isValueError := by
  fun_induction entriesOf h found flat with
  | case1 found k v rest ih =>
    rcases error_of_bind he with he | ⟨key, -, he⟩
    · cases k <;> cases he <;> rfl
    · exact ih key he
  | case2 => cases he

/-- A method that counts its arguments fails only because of the arguments if what it does then
does. -/
theorem isValueError_checkArity {arguments : List Value} {n : Nat} {e : RuntimeError} {α : Type}
    {f : Unit → Except RuntimeError α} (he : (checkArity arguments n >>= f) = .error e)
    (hf : f () = .error e → e.isValueError) : e.isValueError := by
  rcases error_of_bind he with he | ⟨_, -, he⟩
  · unfold checkArity at he
    split at he <;> cases he
    rfl
  · exact hf he

/-- Methods fail only because of the receiver and the arguments. -/
theorem isValueError_answer {h : Heap} {receiver : Value} {message : String}
    {arguments : List Value} {e : RuntimeError}
    (he : answer h receiver message arguments = .error e) : e.isValueError := by
  cases receiver with
  | nil | bool | sym =>
    cases he
    rfl
  | int n =>
    simp only [answer] at he
    split at he
    · cases he
      rfl
    · refine isValueError_checkArity he fun he => ?_
      split at he
      · have hx := error_of_bind_pure he
        unfold checkedInt at hx
        split at hx <;> cases hx
        rfl
      · cases he
        rfl
  | array handle | hash handle =>
    refine isValueError_checkArity he fun he => ?_
    split at he <;> cases he
    rfl
  | str s =>
    simp only [answer] at he
    split at he
    · exact isValueError_checkArity he nofun
    · exact isValueError_checkArity he nofun
    · cases he
      rfl
  | object handle =>
    simp only [answer] at he
    split at he <;> exact isValueError_checkArity he nofun

/-- Sending a message fails only because of the receiver and the arguments. -/
theorem isValueError_dispatch {h : Heap} {receiver : Value} {message : String}
    {arguments : List Value} {e : RuntimeError}
    (he : dispatch h receiver message arguments = .error e) : e.isValueError := by
  unfold dispatch at he
  split at he
  · exact isValueError_checkArity he nofun
  · exact isValueError_answer he

/-! ## Instructions -/

namespace Realizes

variable (span : Span) (v : Value) (q k : Nat) (name : String) (stack : List Value)

/-- Pushing a literal. -/
theorem pushing {op : Op} (hj : op.isJump = false) (hr : ∀ m, Ready ⟨op, span⟩ m)
    (hs : ∀ pc m, step op pc m = push v m) :
    Realizes [⟨op, span⟩] [] (Pure.pure v) (fun v => [v]) :=
  .op hj (fun _ _ _ => hr _) fun pc _ _ argc => ⟨rfl, argc, hs pc _⟩

/-- `self` is pushed. -/
theorem pushSelf : Realizes [⟨.pushSelf, span⟩] [] Act.getSelf (fun v => [v]) :=
  .op rfl (fun _ _ _ => trivial) fun _ _ _ argc => ⟨rfl, argc, rfl⟩

/-- A local variable is pushed, or it is undefined. -/
theorem localGet : Realizes [⟨.localGet name, span⟩] [] (Act.getLocal name) (fun v => [v]) := by
  refine .op rfl (fun _ _ _ => trivial) fun pc t stack argc => ?_
  have hm : (t.machine ([] ++ stack) argc).local? name = t.local? name := rfl
  simp only [Act.getLocal, Act.read]
  cases h : t.local? name with
  | some v => exact ⟨rfl, argc, by simp only [step, bind_apply, get_apply, hm, h]; rfl⟩
  | none => exact ⟨rfl, [], argc, by simp only [step, bind_apply, get_apply, hm, h]; rfl⟩

/-- An instance variable of `self` is pushed. -/
theorem instanceGet :
    Realizes [⟨.instanceGet name, span⟩] [] (Act.getInstance name) (fun v => [v]) := by
  refine .op rfl (fun _ _ _ => trivial) fun pc t stack argc => ?_
  obtain ⟨⟨heap, scope, outer, globals, selfValue⟩, defaults⟩ := t
  cases selfValue <;> exact ⟨rfl, argc, rfl⟩

/-- A global is pushed. -/
theorem globalGet : Realizes [⟨.globalGet name, span⟩] [] (Act.getGlobal name) (fun v => [v]) :=
  .op rfl (fun _ _ _ => trivial) fun _ _ _ argc => ⟨rfl, argc, rfl⟩

/-- An instance variable of `self` is set to the value on top, which is dropped. -/
theorem instanceSet : Realizes [⟨.instanceSet name, span⟩] [v] (Act.setInstance name v)
    (fun _ => []) := by
  refine .op rfl (fun _ _ _ => trivial) fun pc t stack argc => ?_
  obtain ⟨⟨heap, scope, outer, globals, selfValue⟩, defaults⟩ := t
  cases selfValue <;> first | exact ⟨rfl, argc, rfl⟩ | exact ⟨rfl, [], argc, rfl⟩

/-- A global is set to the value on top, which is dropped. -/
theorem globalSet : Realizes [⟨.globalSet name, span⟩] [v] (Act.setGlobal name v)
    (fun _ => []) :=
  .op rfl (fun _ _ _ => trivial) fun _ _ _ argc => ⟨rfl, argc, rfl⟩

/-- The value on top is pushed once more. -/
theorem dup : Realizes [⟨.dup, span⟩] [v] (Pure.pure ()) (fun _ => [v, v]) :=
  .op rfl (fun _ _ _ => trivial) fun _ _ _ argc => ⟨rfl, argc, rfl⟩

/-- The value on top is dropped. -/
theorem pop : Realizes [⟨.pop, span⟩] [v] (Pure.pure ()) (fun _ => []) :=
  .op rfl (fun _ _ _ => trivial) fun _ _ _ argc => ⟨rfl, argc, rfl⟩

/-- The first element is taken out of the array on top and pushed. -/
theorem arrayShift : Realizes [⟨.arrayShift, span⟩] [.array q] (Act.take .left q)
    (fun v => [v, .array q]) :=
  .op rfl (fun _ _ h => ⟨_, _, h⟩) fun _ _ _ argc => ⟨rfl, argc, rfl⟩

/-- The last element is taken out of the array on top and pushed. -/
theorem arrayPop : Realizes [⟨.arrayPop, span⟩] [.array q] (Act.take .right q)
    (fun v => [v, .array q]) :=
  .op rfl (fun _ _ h => ⟨_, _, h⟩) fun _ _ _ argc => ⟨rfl, argc, rfl⟩

/-- It is pushed whether the array on top is empty. -/
theorem arrayIsEmpty : Realizes [⟨.arrayIsEmpty, span⟩] [.array q] (Act.isEmpty q)
    (fun b => [.bool b, .array q]) :=
  .op rfl (fun _ _ h => ⟨_, _, h⟩) fun _ _ _ argc => ⟨rfl, argc, rfl⟩

/-- The keyword hash is taken out of the array on top and its copy is pushed, or a new hash is. -/
theorem stageKeywords : Realizes [⟨.stageKeywords, span⟩] [.array q] (Act.stage q)
    (fun k => [.hash k, .array q]) := by
  refine .op rfl (fun _ _ h => ⟨_, _, h⟩) fun pc t stack argc => ⟨rfl, argc, ?_⟩
  have hseq : sequence pc (t.machine ([.array q] ++ stack) argc) =
      .ok q (t.machine ([.array q] ++ stack) argc) := rfl
  simp only [step, bind_apply, hseq, get_apply]
  have hh : (t.machine ([.array q] ++ stack) argc).heap = t.heap := rfl
  rw [hh]
  cases h : stagedHash? t.heap (t.heap.arrayAt q) <;> rfl

/-- It is pushed whether the hash on top has a keyword. -/
theorem hasKeyword : Realizes [⟨.hasKeyword name, span⟩] [.hash k] (Act.hasKeyword k name)
    (fun b => [.bool b, .hash k]) :=
  .op rfl (fun _ _ h => ⟨_, _, h⟩) fun _ _ _ argc => ⟨rfl, argc, rfl⟩

/-- The value of a keyword is taken out of the hash on top and pushed, or the keyword is missing. -/
theorem takeKeyword : Realizes [⟨.takeKeyword name, span⟩] [.hash k] (Act.takeKeyword k name)
    (fun v => [v, .hash k]) := by
  refine .op rfl (fun _ _ h => ⟨_, _, h⟩) fun pc t stack argc => ?_
  have hkw : keywords pc (t.machine ([.hash k] ++ stack) argc) =
      .ok k (t.machine ([.hash k] ++ stack) argc) := rfl
  have hh : (t.machine ([.hash k] ++ stack) argc).heap = t.heap := rfl
  simp only [Act.takeKeyword]
  cases h : (t.heap.hashAt k).get? (.sym name) with
  | some v =>
    exact ⟨rfl, argc, by simp only [step, bind_apply, hkw, get_apply, hh, h]; rfl⟩
  | none =>
    exact ⟨rfl, [.hash k], argc, by simp only [step, bind_apply, hkw, get_apply, hh, h]; rfl⟩

/-- The hash on top has to be empty, and else a keyword that is in it is unknown. -/
theorem checkKeywords : Realizes [⟨.checkKeywords, span⟩] [.hash k] (Act.checkKeywords k)
    (fun _ => [.hash k]) := by
  refine .op rfl (fun _ _ h => ⟨_, _, h⟩) fun pc t stack argc => ?_
  have hkw : keywords pc (t.machine ([.hash k] ++ stack) argc) =
      .ok k (t.machine ([.hash k] ++ stack) argc) := rfl
  have hh : (t.machine ([.hash k] ++ stack) argc).heap = t.heap := rfl
  simp only [Act.checkKeywords, Act.inspect, Act.read]
  cases h : (t.heap.hashAt k).isEmpty with
  | true => exact ⟨rfl, argc, by simp only [step, bind_apply, hkw, get_apply, hh, h]; rfl⟩
  | false =>
    exact ⟨rfl, [.hash k], argc, by simp only [step, bind_apply, hkw, get_apply, hh, h]; rfl⟩

/-- The value on top is replaced by a new array of its elements. -/
theorem toArray : Realizes [⟨.toArray, span⟩] [v] (Act.elements v >>= Act.newArray)
    (fun q => [.array q]) := by
  refine .op rfl (fun _ _ _ => trivial) fun pc t stack argc => ?_
  have hpop : Machine.pop pc (t.machine ([v] ++ stack) argc) = .ok v (t.machine stack argc) := rfl
  have hh : (t.machine stack argc).heap = t.heap := rfl
  rw [bind_apply]
  simp only [Act.elements, Act.inspect, Act.read]
  cases h : v.elements t.heap with
  | ok items =>
    exact ⟨rfl, argc, by simp only [step, bind_apply, hpop, get_apply, hh, h]; rfl⟩
  | error e =>
    exact ⟨RuntimeError.isArgumentError_of_isValueError (isValueError_elements h), [], argc,
      by simp only [step, bind_apply, hpop, get_apply, hh, h]; rfl⟩

/-- A machine gives back the values that it was given in order. -/
theorem popMany_reverse {n : Nat} {items : List Value} (hn : items.length = n) (pc : Nat)
    (t : Trail) (argc : UInt32) :
    popMany n pc (t.machine (items.reverse ++ stack) argc) =
      .ok items (t.machine stack argc) := by
  have hlen : ¬ (t.machine (items.reverse ++ stack) argc).stack.length < n := by
    simp only [Trail.machine, List.length_append, List.length_reverse]
    omega
  have htake : (t.machine (items.reverse ++ stack) argc).stack.take n = items.reverse :=
    List.take_left' (by rw [List.length_reverse, hn])
  have hdrop : (t.machine (items.reverse ++ stack) argc).stack.drop n = stack :=
    List.drop_left' (by rw [List.length_reverse, hn])
  simp only [popMany, bind_apply, get_apply, if_neg hlen, htake, hdrop, List.reverse_reverse]
  rfl

/-- An array is made of as many values on top as are said. -/
theorem createArray {count : UInt32} {items : List Value} (hn : items.length = count.toNat) :
    Realizes [⟨.createArray count, span⟩] items.reverse (Act.newArray items)
      (fun q => [.array q]) := by
  refine .op rfl (fun _ _ _ => trivial) fun pc t stack argc => ⟨rfl, argc, ?_⟩
  simp only [step, bind_apply, popMany_reverse stack hn]
  rfl

/-- A hash is made of twice as many values on top as are said, which are keys and values in turn. -/
theorem createHash {count : UInt32} {flat : List Value} (hn : flat.length = 2 * count.toNat) :
    Realizes [⟨.createHash count, span⟩] flat.reverse
      (Act.inspect (entriesOf · [] flat) >>= Act.newHash) (fun k => [.hash k]) := by
  refine .op rfl (fun _ _ _ => trivial) fun pc t stack argc => ?_
  have hh : (t.machine stack argc).heap = t.heap := rfl
  rw [bind_apply]
  simp only [Act.inspect, Act.read]
  cases h : entriesOf t.heap [] flat with
  | ok entries =>
    refine ⟨rfl, argc, ?_⟩
    simp only [step, bind_apply, popMany_reverse stack hn, get_apply, hh, h]
    rfl
  | error e =>
    refine ⟨RuntimeError.isArgumentError_of_isValueError (isValueError_entriesOf h), [], argc, ?_⟩
    simp only [step, bind_apply, popMany_reverse stack hn, get_apply, hh, h]
    rfl

/-- Sending a message. The value of an assignment is what was assigned. -/
theorem send {count : UInt32} (receiver : Value) (arguments : List Value)
    (toSelf isWriter : Bool)
    (hn : arguments.length = count.toNat) :
    Realizes [⟨.setArgc count, span⟩, ⟨.send name toSelf isWriter, span⟩]
      (receiver :: arguments.reverse) (Act.send receiver name arguments)
      (fun result => [if isWriter then arguments.getLastD .nil else result]) where
  balanced := .op rfl (.singleton rfl)
  ready {pc t stack argc j n} hv := by
    rcases ((Balanced.singleton rfl).executes_append (a := [⟨.setArgc count, span⟩])
      (.singleton rfl)).1 hv with hv | ⟨_, m, -, hv⟩
    · obtain ⟨rfl, -⟩ := (executes_singleton rfl).1 hv
      trivial
    · obtain ⟨rfl, -⟩ := (executes_singleton rfl).1 hv
      trivial
  ends pc t stack argc := by
    have hrun : exec pc [⟨.setArgc count, span⟩, ⟨.send name toSelf isWriter, span⟩]
        (t.machine (receiver :: arguments.reverse ++ stack) argc) =
        step (.send name toSelf isWriter) (pc + 1)
          (t.machine (receiver :: (arguments.reverse ++ stack)) count) := by
      rw [exec_cons rfl (.singleton rfl), exec_singleton rfl]
      rfl
    have hpop : Machine.pop (pc + 1) (t.machine (receiver :: (arguments.reverse ++ stack)) count) =
      .ok receiver (t.machine (arguments.reverse ++ stack) count) := rfl
    have hargc : (t.machine (arguments.reverse ++ stack) count).argc = count := rfl
    have hh : (t.machine stack count).heap = t.heap := rfl
    simp only [Act.send]
    cases h : dispatch t.heap receiver name arguments with
    | ok outcome =>
      refine ⟨⟨count, ?_⟩, fun _ he => .inl he⟩
      rw [hrun]
      simp only [step, bind_apply, hpop, get_apply, hargc, popMany_reverse stack hn, hh, h]
      rfl
    | error e =>
      refine ⟨RuntimeError.isArgumentError_of_isValueError (isValueError_dispatch h), [], count, ?_⟩
      rw [hrun]
      simp only [step, bind_apply, hpop, get_apply, hargc, popMany_reverse stack hn, hh, h]
      rfl

end Realizes

end Formals
