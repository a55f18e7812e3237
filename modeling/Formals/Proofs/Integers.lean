import Formals.Proofs.Spelling
import Mathlib.Data.Nat.Digits.Defs
import Mathlib.Data.Nat.Log

/-!
# Integers are read exactly and written shortly

The groups that the reader looks at are those up to the first one that is not marked as continued
(`extent`), and they are the digits of a number to the base 128 (`value`). The reader compares its
accumulator with `roomForGroup` before it adds a group, so that it never computes a number of more
than 64 bits; what it decides is whether the whole number has more of them (`read_eq`). The writer
takes as many bytes as the number of significant bits says (`length_write`), and no form of an
integer is shorter.
-/

namespace Formals.Varint

/-! ## The value of groups -/

/-- How many bytes there are up to and including the first one that is not marked as continued, or
in all if there is none. -/
def extent : List UInt8 → Nat
  | [] => 0
  | b :: rest => if b.toNat < 128 then 1 else extent rest + 1

/-- The number whose digits to the base 128 are the low seven bits of some bytes, most significant
first. -/
def value (groups : List UInt8) : Nat := Nat.ofDigits 128 (groups.reverse.map (·.toNat % 128))

/-- The groups of an integer do not go on behind the bytes. -/
theorem extent_le (bs : List UInt8) : extent bs ≤ bs.length := by
  induction bs with
  | nil => exact Nat.le_refl 0
  | cons b rest ih =>
    rw [extent, List.length_cons]
    split <;> omega

/-- The reader's way to compute the value. -/
theorem value_eq (groups : List UInt8) : value groups = valueFrom 0 groups := by
  induction groups using List.reverseRecOn with
  | nil => rfl
  | append_singleton groups b ih =>
    rw [value, List.reverse_concat, List.map_cons, Nat.ofDigits_cons, ← value, ih,
      valueFrom_concat]
    omega

/-! ## Reading -/

/-- Reading on from groups of a value that fits decides whether the whole value fits. -/
theorem readFrom_eq {acc : Nat} (hacc : acc < UInt64.size) (bs : List UInt8) :
    readFrom acc bs =
      if UInt64.size ≤ valueFrom acc (bs.take (extent bs)) then .error .overflow
      else if ∃ b ∈ bs, b.toNat < 128 then
        .ok (valueFrom acc (bs.take (extent bs)), bs.drop (extent bs))
      else .error .truncated := by
  induction bs generalizing acc with
  | nil =>
    rw [List.take_nil, if_neg (show ¬ UInt64.size ≤ valueFrom acc [] from Nat.not_le_of_lt hacc),
      if_neg (by simp)]
    rfl
  | cons b rest ih =>
    have hstep : ∀ groups, valueFrom acc (b :: groups) =
        valueFrom (acc * 128 + b.toNat % 128) groups := fun _ => rfl
    rw [readFrom]
    by_cases hover : acc > roomForGroup
    · -- one more group is too much, whatever is in it and behind it
      obtain ⟨k, hk⟩ : ∃ k, extent (b :: rest) = k + 1 := by
        rw [extent]
        split
        · exact ⟨0, rfl⟩
        · exact ⟨_, rfl⟩
      have hle := le_valueFrom (acc * 128 + b.toNat % 128) (rest.take k)
      have hsize := roomForGroup_lt_iff.1 hover
      rw [if_pos hover, hk, List.take_succ_cons, hstep, if_pos (by omega)]
    · have hroom := mt roomForGroup_lt_iff.2 hover
      have hvalue : acc * 128 + b.toNat % 128 < UInt64.size := by
        rw [show UInt64.size = 18446744073709551616 from rfl] at hroom ⊢
        omega
      simp only [if_neg hover]
      by_cases hlast : b.toNat < 128
      · rw [if_pos hlast, extent, if_pos hlast, List.take_succ_cons, List.take_zero, hstep,
          if_neg (show ¬ UInt64.size ≤ valueFrom _ [] from Nat.not_le_of_lt hvalue),
          if_pos ⟨b, List.mem_cons_self, hlast⟩]
        rfl
      · rw [if_neg hlast, ih hvalue, extent, if_neg hlast, List.take_succ_cons, hstep,
          List.drop_succ_cons]
        simp only [List.exists_mem_cons_iff, hlast, false_or]

/-- **Reading.** Groups of a value of more than 64 bits overflow, whether they end or not. Others
are read as their value if they end, and are truncated if not. -/
theorem read_eq (bs : List UInt8) : read bs =
    if UInt64.size ≤ value (bs.take (extent bs)) then .error .overflow
    else if ∃ b ∈ bs, b.toNat < 128 then .ok (value (bs.take (extent bs)), bs.drop (extent bs))
    else .error .truncated := by
  rw [value_eq]
  exact readFrom_eq (by decide) bs

/-- An integer that is read is the value of its groups. -/
theorem value_of_read {bs rest : List UInt8} {n : Nat} (h : read bs = .ok (n, rest)) :
    n = value (bs.take (extent bs)) := by
  rw [read_eq] at h
  split at h
  · cases h
  · split at h <;> cases h
    rfl

/-- Groups that overflow have a value that is no 64-bit word. -/
theorem overflow_of_read {bs : List UInt8} (h : read bs = .error .overflow) :
    UInt64.size ≤ value (bs.take (extent bs)) := by
  rw [read_eq] at h
  split at h
  · assumption
  · split at h <;> cases h

/-- Groups that are truncated are all marked as continued. -/
theorem continued_of_read {bs : List UInt8} (h : read bs = .error .truncated) :
    ∀ b ∈ bs, 128 ≤ b.toNat := by
  rw [read_eq] at h
  split at h
  · cases h
  · split at h
    · cases h
    · rename_i hnone
      exact fun b hb => Nat.le_of_not_lt fun hlast => hnone ⟨b, hb, hlast⟩

/-! ## Writing -/

/-- There is one group for every seven bits. -/
theorem size_eq (n : Nat) : size n = n.log2 / 7 + 1 := by
  rw [size, bitLength]
  split
  · rename_i hzero
    rw [hzero]
    rfl
  · omega

/-- A group less is seven bits less. -/
theorem log2_div_group (n : Nat) : (n / 128).log2 = n.log2 - 7 := by
  rw [Nat.log2_eq_log_two, Nat.log2_eq_log_two]
  exact Nat.log_div_base_pow 2 n 7

/-- A number has as many groups marked as continued as are counted for it when it goes on. -/
theorem length_continued {n : Nat} (hn : n ≠ 0) : (continued n).length = size n := by
  induction n using Nat.strongRecOn with
  | ind n ih =>
    rw [continued, if_neg hn, List.length_append, List.length_singleton, size_eq]
    by_cases hlast : n / 128 = 0
    · have hbits : n.log2 < 7 := (Nat.log2_lt hn).2 (by omega)
      rw [hlast, continued, if_pos rfl, List.length_nil]
      omega
    · have hbits : 7 ≤ n.log2 := (Nat.le_log2 hn).2 (by omega)
      rw [ih (n / 128) (by omega) hlast, size_eq, log2_div_group]
      omega

/-- **Writing.** As many bytes are written as the number of bits says. -/
theorem length_write (n : Nat) : (write n).length = size n := by
  rw [write, List.length_append, List.length_singleton]
  by_cases hlast : n / 128 = 0
  · have hbits : n.log2 < 7 := by
      by_cases hn : n = 0
      · rw [hn]
        decide
      · exact (Nat.log2_lt hn).2 (by omega)
    rw [hlast, continued, if_pos rfl, List.length_nil, size_eq]
    omega
  · have hbits : 7 ≤ n.log2 := (Nat.le_log2 (by omega)).2 (by omega)
    rw [length_continued hlast, size_eq, size_eq, log2_div_group]
    omega

/-- **Integers.** Groups are read as the number that they are the digits of, if that has no more
than 64 bits and the groups end, and the bytes behind them are left. What is written of a 64-bit
word is as long as its number of bits says, does not begin with an empty group, is no longer than
anything that is read as the word, and is read as the word whatever follows it. -/
theorem exact_minimal :
    (∀ bs : List UInt8, extent bs ≤ bs.length ∧ read bs =
      if UInt64.size ≤ value (bs.take (extent bs)) then .error .overflow
      else if ∃ b ∈ bs, b.toNat < 128 then .ok (value (bs.take (extent bs)), bs.drop (extent bs))
      else .error .truncated) ∧
    ∀ v : UInt64, (write v.toNat).length = size v.toNat ∧ (write v.toNat).head? ≠ some 0x80 ∧
      (∀ bs rest, read bs = .ok (v.toNat, rest) →
        (write v.toNat).length + rest.length ≤ bs.length) ∧
      ∀ t, read (write v.toNat ++ t) = .ok (v.toNat, t) := by
  refine ⟨fun bs => ⟨extent_le bs, read_eq bs⟩, fun v => ?_⟩
  have hv : v.toNat < UInt64.size := v.toNat_lt
  refine ⟨length_write _, (form_write hv).write_eq_iff.1 rfl, fun bs rest hread => ?_, fun t => ?_⟩
  · obtain ⟨form, hform, rfl⟩ := read_ok_iff.1 hread
    rw [List.length_append]
    exact Nat.add_le_add_right (hform.length_write_le (Nat.le_refl _)) _
  · rw [read_write, if_pos hv]

/-- An integer in three groups, the first of them empty, in front of another byte. -/
theorem minimal_threeHundred :
    read [0x80, 0x82, 0x2c, 0xff] = .ok (300, [0xff]) ∧
      (write 300).length + [0xff].length ≤ [0x80, 0x82, 0x2c, 0xff].length := by
  have hread : read [0x80, 0x82, 0x2c, 0xff] = .ok (300, [0xff]) := rfl
  exact ⟨hread, (exact_minimal.2 300).2.2.1 _ _ hread⟩

end Formals.Varint
