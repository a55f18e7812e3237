import Formals.Binding.Lowering
import Formals.Proofs.Instructions

/-!
# Which expressions have code

An expression has code unless one of the expressions in it has more parts than a count holds
(`lower_ok`, `lower_error`), and the code is made of the code for its parts (`lower_array_ok`,
`lower_hash_ok`, `lower_call_ok`). `Occurs` says which expressions are in an expression; it reads a
local variable if that occurs in it (`readsLocal_iff`).
-/

namespace Formals.Expr

/-- An expression is in another one, at whatever depth. -/
inductive Occurs (e : Expr) : Expr → Prop
  | here : Occurs e e
  | inside {outer part : Expr} : part ∈ outer.children → Occurs e part → Occurs e outer

/-- An expression occurs in another one if it is that or occurs in a part of it. -/
theorem occurs_iff {e outer : Expr} :
    Occurs e outer ↔ e = outer ∨ ∃ part ∈ outer.children, Occurs e part := by
  constructor
  · intro h
    cases h with
    | here => exact .inl rfl
    | inside hpart hin => exact .inr ⟨_, hpart, hin⟩
  · rintro (rfl | ⟨part, hpart, hin⟩)
    · exact .here
    · exact .inside hpart hin

mutual
/-- An expression reads a local variable if that occurs in it. -/
theorem readsLocal_iff (name : String) : ∀ e : Expr,
    e.readsLocal name = true ↔ Occurs (localVar name) e
  | nil | bool _ | self | int _ | str _ | sym _ | instanceVar _ | globalVar _ => by
    rw [occurs_iff]
    simp [readsLocal, children]
  | localVar n => by
    rw [readsLocal, beq_iff_eq, occurs_iff]
    refine ⟨fun h => .inl (congrArg localVar h.symm), ?_⟩
    rintro (h | ⟨_, h, _⟩)
    · exact (localVar.inj h).symm
    · cases h
  | array elements => by
    rw [readsLocal, anyReadsLocal_iff name elements, occurs_iff]
    simp [children]
  | hash pairs => by
    rw [readsLocal, anyPairReadsLocal_iff name pairs, occurs_iff]
    constructor
    · rintro ⟨pair, hpair, hin | hin⟩
      · exact .inr ⟨_, List.mem_flatMap.2 ⟨pair, hpair, .head _⟩, hin⟩
      · exact .inr ⟨_, List.mem_flatMap.2 ⟨pair, hpair, .tail _ (.head _)⟩, hin⟩
    · rintro (h | ⟨part, hpart, hin⟩)
      · cases h
      · obtain ⟨pair, hpair, hpart⟩ := List.mem_flatMap.1 hpart
        rcases List.mem_cons.1 hpart with rfl | hpart
        · exact ⟨pair, hpair, .inl hin⟩
        · exact ⟨pair, hpair, .inr (List.mem_singleton.1 hpart ▸ hin)⟩
  | call none method arguments => by
    rw [readsLocal, anyReadsLocal_iff name arguments, occurs_iff]
    simp [children]
  | call (some receiver) method arguments => by
    rw [readsLocal, Bool.or_eq_true, anyReadsLocal_iff name arguments, readsLocal_iff name receiver]
    constructor
    · rintro (⟨e, he, hin⟩ | hin)
      · exact .inside (List.mem_append_left _ he) hin
      · exact .inside (List.mem_append_right _ (.head _)) hin
    · intro h
      obtain ⟨part, hpart, hin⟩ := (occurs_iff.1 h).resolve_left nofun
      rcases List.mem_append.1 hpart with hpart | hpart
      · exact .inl ⟨part, hpart, hin⟩
      · exact .inr (List.mem_singleton.1 hpart ▸ hin)

/-- Some expressions read a variable exactly if it occurs in one of them. -/
theorem anyReadsLocal_iff (name : String) : ∀ es : List Expr,
    anyReadsLocal name es = true ↔ ∃ e ∈ es, Occurs (localVar name) e
  | [] => by simp [anyReadsLocal]
  | e :: rest => by
    rw [anyReadsLocal, Bool.or_eq_true, readsLocal_iff name e, anyReadsLocal_iff name rest]
    simp

/-- Some pairs read a variable exactly if it occurs in a key or a value. -/
theorem anyPairReadsLocal_iff (name : String) : ∀ pairs : List (Expr × Expr),
    anyPairReadsLocal name pairs = true ↔
      ∃ pair ∈ pairs, Occurs (localVar name) pair.1 ∨ Occurs (localVar name) pair.2
  | [] => by simp [anyPairReadsLocal]
  | (key, value) :: rest => by
    rw [anyPairReadsLocal, Bool.or_eq_true, Bool.or_eq_true, readsLocal_iff name key,
      readsLocal_iff name value, anyPairReadsLocal_iff name rest]
    simp
end

/-- How many elements, pairs or arguments an expression has. -/
def size : Expr → Nat
  | array elements => elements.length
  | hash pairs => pairs.length
  | call _ _ arguments => arguments.length
  | _ => 0

/-- No array, hash or call in an expression has more parts than a 32-bit count holds. -/
def Small (e : Expr) : Prop := ∀ part, Occurs part e → part.size < UInt32.size

/-- The parts of a small expression are small. -/
theorem Small.part {e part : Expr} (h : e.Small) (hpart : part ∈ e.children) : part.Small :=
  fun _ hin => h _ (.inside hpart hin)

/-- An expression is small if the number of its parts fits into 32 bits, and its parts are small. -/
theorem small_iff {e : Expr} :
    e.Small ↔ e.size < UInt32.size ∧ ∀ part ∈ e.children, part.Small := by
  refine ⟨fun h => ⟨h e .here, fun part hpart => h.part hpart⟩, ?_⟩
  rintro ⟨hsize, hparts⟩ part hpart
  cases hpart with
  | here => exact hsize
  | inside hpart hin => exact hparts _ hpart _ hin

/-- A number of parts that fits into 32 bits is counted as it is. -/
theorem partCount_ok {n : Nat} (h : n < UInt32.size) (span : Span) :
    partCount n span = .ok (UInt32.ofNat n) := if_pos h

mutual
/-- A small expression has code. -/
theorem lower_ok (span : Span) : ∀ e : Expr, e.Small → ∃ code, e.lower span = .ok code
  | nil, _ | bool true, _ | bool false, _ | self, _ | int _, _ | str _, _ | sym _, _ | localVar _, _
  | instanceVar _, _ | globalVar _, _ => ⟨_, rfl⟩
  | array elements, h => by
    obtain ⟨code, hcode⟩ := lowerList_ok span elements fun e he => h.part he
    rw [lower, hcode, partCount_ok (show elements.length < UInt32.size from h _ .here)]
    exact ⟨_, rfl⟩
  | hash pairs, h => by
    obtain ⟨code, hcode⟩ := lowerPairs_ok span pairs fun pair hpair =>
      ⟨h.part (List.mem_flatMap.2 ⟨pair, hpair, .head _⟩),
        h.part (List.mem_flatMap.2 ⟨pair, hpair, .tail _ (.head _)⟩)⟩
    rw [lower, hcode, partCount_ok (show pairs.length < UInt32.size from h _ .here)]
    exact ⟨_, rfl⟩
  | call none method arguments, h => by
    obtain ⟨code, hcode⟩ := lowerList_ok span arguments fun e he =>
      h.part (List.mem_append_left _ he)
    rw [lower, hcode, partCount_ok (show arguments.length < UInt32.size from h _ .here)]
    exact ⟨_, rfl⟩
  | call (some receiver) method arguments, h => by
    obtain ⟨code, hcode⟩ := lowerList_ok span arguments fun e he =>
      h.part (List.mem_append_left _ he)
    obtain ⟨target, htarget⟩ := lower_ok span receiver (h.part (List.mem_append_right _ (.head _)))
    rw [lower, hcode, htarget,
      partCount_ok (show arguments.length < UInt32.size from h _ .here)]
    exact ⟨_, rfl⟩

/-- Some small expressions have code. -/
theorem lowerList_ok (span : Span) : ∀ es : List Expr, (∀ e ∈ es, e.Small) →
    ∃ code, lowerList span es = .ok code
  | [], _ => ⟨_, rfl⟩
  | e :: rest, h => by
    obtain ⟨first, hfirst⟩ := lower_ok span e (h e (.head _))
    obtain ⟨others, hothers⟩ := lowerList_ok span rest fun e' he => h e' (.tail _ he)
    rw [lowerList, hfirst, hothers]
    exact ⟨_, rfl⟩

/-- Pairs of small expressions have code. -/
theorem lowerPairs_ok (span : Span) : ∀ pairs : List (Expr × Expr),
    (∀ pair ∈ pairs, pair.1.Small ∧ pair.2.Small) → ∃ code, lowerPairs span pairs = .ok code
  | [], _ => ⟨_, rfl⟩
  | (key, value) :: rest, h => by
    obtain ⟨hkey, hvalue⟩ := h _ (.head _)
    obtain ⟨first, hfirst⟩ := lower_ok span key hkey
    obtain ⟨second, hsecond⟩ := lower_ok span value hvalue
    obtain ⟨others, hothers⟩ := lowerPairs_ok span rest fun pair hpair => h pair (.tail _ hpair)
    rw [lowerPairs, hfirst, hsecond, hothers]
    exact ⟨_, rfl⟩
end

/-- A count that fits is the number that it counts. -/
theorem toNat_of_partCount {n : Nat} {span : Span} {count : UInt32}
    (h : partCount n span = .ok count) : count.toNat = n := by
  unfold partCount at h
  split at h <;> cases h
  rename_i hn
  rw [UInt32.toNat_ofNat', Nat.mod_eq_of_lt hn]

/-- The code for an array is the code for its elements and one instruction that joins them. -/
theorem lower_array_ok {elements : List Expr} {span : Span} {code : Stream}
    (h : (array elements).lower span = .ok code) :
    ∃ parts count, lowerList span elements = .ok parts ∧ count.toNat = elements.length ∧
      code = parts ++ [⟨.createArray count, span⟩] := by
  rw [lower] at h
  obtain ⟨parts, hparts, h⟩ := ok_of_bind h
  obtain ⟨count, hcount, h⟩ := ok_of_bind h
  cases h
  exact ⟨parts, count, hparts, toNat_of_partCount hcount, rfl⟩

/-- The code for a hash is the code for its pairs and one instruction that joins them. -/
theorem lower_hash_ok {pairs : List (Expr × Expr)} {span : Span} {code : Stream}
    (h : (hash pairs).lower span = .ok code) :
    ∃ parts count, lowerPairs span pairs = .ok parts ∧ count.toNat = pairs.length ∧
      code = parts ++ [⟨.createHash count, span⟩] := by
  rw [lower] at h
  obtain ⟨parts, hparts, h⟩ := ok_of_bind h
  obtain ⟨count, hcount, h⟩ := ok_of_bind h
  cases h
  exact ⟨parts, count, hparts, toNat_of_partCount hcount, rfl⟩

/-- The code for a call without a receiver is the code for its arguments, and the sending to
`self`. -/
theorem lower_callSelf_ok {method : String} {arguments : List Expr} {span : Span} {code : Stream}
    (h : (call none method arguments).lower span = .ok code) :
    ∃ parts count, lowerList span arguments = .ok parts ∧ count.toNat = arguments.length ∧
      code = parts ++
        [⟨.pushSelf, span⟩, ⟨.setArgc count, span⟩, ⟨.send method true false, span⟩] := by
  rw [lower] at h
  obtain ⟨parts, hparts, h⟩ := ok_of_bind h
  obtain ⟨count, hcount, h⟩ := ok_of_bind h
  cases h
  exact ⟨parts, count, hparts, toNat_of_partCount hcount, rfl⟩

/-- The code for a call is the code for its arguments, that for its receiver, and the sending. -/
theorem lower_call_ok {receiver : Expr} {method : String} {arguments : List Expr} {span : Span}
    {code : Stream} (h : (call (some receiver) method arguments).lower span = .ok code) :
    ∃ parts target count, lowerList span arguments = .ok parts ∧ receiver.lower span = .ok target ∧
      count.toNat = arguments.length ∧
      code = parts ++ (target ++ [⟨.setArgc count, span⟩, ⟨.send method false false, span⟩]) := by
  rw [lower] at h
  obtain ⟨parts, hparts, h⟩ := ok_of_bind h
  obtain ⟨target, htarget, h⟩ := ok_of_bind h
  obtain ⟨count, hcount, h⟩ := ok_of_bind h
  cases h
  exact ⟨parts, target, count, hparts, htarget, toNat_of_partCount hcount, List.append_assoc ..⟩

/-- The code for some expressions begins with the code for the first one. -/
theorem lowerList_cons_ok {e : Expr} {rest : List Expr} {span : Span} {code : Stream}
    (h : lowerList span (e :: rest) = .ok code) :
    ∃ first others, e.lower span = .ok first ∧ lowerList span rest = .ok others ∧
      code = first ++ others := by
  rw [lowerList] at h
  obtain ⟨first, hfirst, h⟩ := ok_of_bind h
  obtain ⟨others, hothers, h⟩ := ok_of_bind h
  cases h
  exact ⟨first, others, hfirst, hothers, rfl⟩

/-- The code for some pairs begins with the code for the first key and that for its value. -/
theorem lowerPairs_cons_ok {key value : Expr} {rest : List (Expr × Expr)} {span : Span}
    {code : Stream} (h : lowerPairs span ((key, value) :: rest) = .ok code) :
    ∃ first second others, key.lower span = .ok first ∧ value.lower span = .ok second ∧
      lowerPairs span rest = .ok others ∧ code = first ++ (second ++ others) := by
  rw [lowerPairs] at h
  obtain ⟨first, hfirst, h⟩ := ok_of_bind h
  obtain ⟨second, hsecond, h⟩ := ok_of_bind h
  obtain ⟨others, hothers, h⟩ := ok_of_bind h
  cases h
  exact ⟨first, second, others, hfirst, hsecond, hothers, List.append_assoc ..⟩

/-- Code that ends with a count fails only for that count. -/
theorem counted_error {n : Nat} {span : Span} {code : UInt32 → Stream} {e : BindError}
    (h : (do return code (← partCount n span)) = Except.error e) :
    e = .malformed .tooManyElements span := by
  have hcount := error_of_bind_pure h
  unfold partCount at hcount
  split at hcount <;> cases hcount
  rfl

mutual
/-- An expression that has no code has too many parts somewhere. -/
theorem lower_error {span : Span} {err : BindError} : ∀ {e : Expr}, e.lower span = .error err →
    err = .malformed .tooManyElements span
  | nil, h | bool true, h | bool false, h | self, h | int _, h | str _, h | sym _, h
  | localVar _, h | instanceVar _, h | globalVar _, h => nomatch h
  | array elements, h => by
    rcases error_of_bind h with h | ⟨code, -, h⟩
    · exact lowerList_error h
    · exact counted_error h
  | hash pairs, h => by
    rcases error_of_bind h with h | ⟨code, -, h⟩
    · exact lowerPairs_error h
    · exact counted_error h
  | call none method arguments, h => by
    rcases error_of_bind h with h | ⟨code, -, h⟩
    · exact lowerList_error h
    · exact counted_error h
  | call (some receiver) method arguments, h => by
    rcases error_of_bind h with h | ⟨code, -, h⟩
    · exact lowerList_error h
    · rcases error_of_bind h with h | ⟨target, -, h⟩
      · exact lower_error h
      · exact counted_error h

/-- Code for some expressions fails only because one of them has too many parts. -/
theorem lowerList_error {span : Span} {err : BindError} : ∀ {es : List Expr},
    lowerList span es = .error err → err = .malformed .tooManyElements span
  | e :: rest, h => by
    rcases error_of_bind h with h | ⟨first, -, h⟩
    · exact lower_error h
    · exact lowerList_error (error_of_bind_pure h)

/-- Code for pairs fails only because a key or a value has too many parts. -/
theorem lowerPairs_error {span : Span} {err : BindError} : ∀ {pairs : List (Expr × Expr)},
    lowerPairs span pairs = .error err → err = .malformed .tooManyElements span
  | (key, value) :: rest, h => by
    rcases error_of_bind h with h | ⟨first, -, h⟩
    · exact lower_error h
    · rcases error_of_bind h with h | ⟨second, -, h⟩
      · exact lower_error h
      · exact lowerPairs_error (error_of_bind_pure h)
end

end Formals.Expr
