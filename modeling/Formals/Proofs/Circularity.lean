import Formals.Binding.Emission
import Formals.Proofs.Lowering

/-!
# Circular defaults

A default may not read its own parameter, and this is checked on the expression, although it is the
code for it that reads when the default is evaluated. Both go through the same parts: the code for
an expression reads a local variable exactly if the expression does (`Expr.reads_lower`), whatever
the parts are in, so that the check refuses exactly the defaults whose code reads the parameter.
-/

namespace Formals

namespace Stream

/-- Some instruction reads a local variable. -/
def Reads (name : String) (code : Stream) : Prop := ∃ i ∈ code, i.op = .localGet name

instance (name : String) (code : Stream) : Decidable (Reads name code) :=
  inferInstanceAs (Decidable (∃ i ∈ code, i.op = .localGet name))

variable {name : String}

@[simp] theorem not_reads_nil : ¬ Reads name [] := nofun

@[simp] theorem reads_cons {i : Instruction} {code : Stream} :
    Reads name (i :: code) ↔ i.op = .localGet name ∨ Reads name code := by
  simp only [Reads, List.mem_cons, or_and_right, exists_or, exists_eq_left]

@[simp] theorem reads_append {a b : Stream} :
    Reads name (a ++ b) ↔ Reads name a ∨ Reads name b := by
  simp only [Reads, List.mem_append, or_and_right, exists_or]

end Stream

namespace Expr

variable {span : Span} {name : String}

mutual
/-- The code for an expression reads the local variables that the expression reads. -/
theorem reads_lower : ∀ {e : Expr} {code : Stream}, e.lower span = .ok code →
    (Stream.Reads name code ↔ e.readsLocal name = true)
  | nil, _, h | bool true, _, h | bool false, _, h | self, _, h | int _, _, h | str _, _, h
  | sym _, _, h | instanceVar _, _, h | globalVar _, _, h => by
    rw [lower] at h
    cases h
    simp [readsLocal]
  | localVar n, _, h => by
    rw [lower] at h
    cases h
    simp [readsLocal]
  | array elements, _, h => by
    obtain ⟨parts, count, hparts, -, rfl⟩ := lower_array_ok h
    rw [readsLocal, ← reads_lowerList hparts]
    simp
  | hash pairs, _, h => by
    obtain ⟨parts, count, hparts, -, rfl⟩ := lower_hash_ok h
    rw [readsLocal, ← reads_lowerPairs hparts]
    simp
  | call none method arguments, _, h => by
    obtain ⟨parts, count, hparts, -, rfl⟩ := lower_callSelf_ok h
    rw [readsLocal, ← reads_lowerList hparts]
    simp
  | call (some receiver) method arguments, _, h => by
    obtain ⟨parts, target, count, hparts, htarget, -, rfl⟩ := lower_call_ok h
    rw [readsLocal, Bool.or_eq_true, ← reads_lowerList hparts, ← reads_lower htarget]
    simp

/-- Code for some expressions reads a variable exactly if one of them does. -/
theorem reads_lowerList : ∀ {es : List Expr} {code : Stream}, lowerList span es = .ok code →
    (Stream.Reads name code ↔ anyReadsLocal name es = true)
  | [], _, h => by
    cases h
    simp [anyReadsLocal]
  | e :: rest, _, h => by
    obtain ⟨first, others, hfirst, hothers, rfl⟩ := lowerList_cons_ok h
    rw [anyReadsLocal, Bool.or_eq_true, ← reads_lower hfirst, ← reads_lowerList hothers,
      Stream.reads_append]

/-- Code for pairs of a hash reads a variable exactly if a key or a value does. -/
theorem reads_lowerPairs : ∀ {pairs : List (Expr × Expr)} {code : Stream},
    lowerPairs span pairs = .ok code →
    (Stream.Reads name code ↔ anyPairReadsLocal name pairs = true)
  | [], _, h => by
    cases h
    simp [anyPairReadsLocal]
  | (key, value) :: rest, _, h => by
    obtain ⟨first, second, others, hfirst, hsecond, hothers, rfl⟩ := lowerPairs_cons_ok h
    rw [anyPairReadsLocal, Bool.or_eq_true, Bool.or_eq_true, or_assoc, ← reads_lower hfirst,
      ← reads_lower hsecond, ← reads_lowerPairs hothers, Stream.reads_append, Stream.reads_append]
end

/-- **Circular defaults.** A small expression has code, and the check sees of it what the code
reads: the local variables that are in the expression, at whatever depth. So a default is refused
for its parameter exactly if its code reads the parameter. -/
theorem circular_iff_reads {e : Expr} (hsmall : e.Small) (span : Span) :
    ∃ code, e.lower span = .ok code ∧ ∀ name,
      (e.readsLocal name = true ↔ Stream.Reads name code) ∧
        (Stream.Reads name code ↔ Occurs (localVar name) e) ∧
        defaultCode name e span =
          if Stream.Reads name code then .error (.circular name span) else .ok code := by
  obtain ⟨code, hcode⟩ := lower_ok span e hsmall
  refine ⟨code, hcode, fun name => ?_⟩
  have hreads : Stream.Reads name code ↔ e.readsLocal name = true := reads_lower hcode
  refine ⟨hreads.symm, hreads.trans (readsLocal_iff name e), ?_⟩
  simp only [defaultCode, hcode, hreads]

/-- `{a => 1}.m([b])` reads `a`, in a key of its receiver, and `b`, in its argument. It can be the
default of `c`, and not of `a`. -/
theorem circular_key :
    let e := call (some (hash [(localVar "a", int 1)])) "m" [array [localVar "b"]]
    e.Small ∧ defaultCode "a" e {} = .error (.circular "a" {}) ∧
      ∃ code, defaultCode "c" e {} = .ok code := by
  intro e
  have hvar (n : String) : (localVar n).Small :=
    small_iff.2 ⟨show 0 < UInt32.size by decide, nofun⟩
  have hint : (int 1).Small := small_iff.2 ⟨by decide, nofun⟩
  have hkey : (hash [(localVar "a", int 1)]).Small :=
    small_iff.2 ⟨by decide, by simp [children, hvar, hint]⟩
  have hitem : (array [localVar "b"]).Small := small_iff.2 ⟨by decide, by simp [children, hvar]⟩
  have hsmall : e.Small := small_iff.2 ⟨by decide, by simp [e, children, hkey, hitem]⟩
  obtain ⟨code, -, h⟩ := circular_iff_reads hsmall {}
  obtain ⟨ha, -, hrefused⟩ := h "a"
  obtain ⟨hc, -, haccepted⟩ := h "c"
  have hother : ¬ Stream.Reads "c" code := fun hreads => absurd (hc.2 hreads) (by decide)
  exact ⟨hsmall, hrefused.trans (if_pos (ha.1 (by decide))), code, haccepted.trans (if_neg hother)⟩

end Expr
end Formals
