import Formals.Code.Codec
import Formals.Proofs.Blocks
import Mathlib.Algebra.Group.Nat.Defs

/-!
# What readers make of what is written

`Reads r bs a fits` says that the reader `r` takes exactly the bytes `bs` off the front and makes
`a` of them, whatever comes after them and wherever they stand. Only what fits into the fields of
the format can be read back; what does not fit is an error and never becomes something else. Pieces
that are written one after the other are read one after the other (`Reads.bind`).
-/

namespace Formals

/-! ## Variable-length integers -/

namespace Varint

/-- A byte that is marked as continued. -/
theorem toNat_continued (n : Nat) : (UInt8.ofNat (128 + n % 128)).toNat = 128 + n % 128 := by
  rw [UInt8.toNat_ofNat']
  omega

/-- The last group of an integer is the seven bits themselves. -/
theorem toNat_last (n : Nat) : (UInt8.ofNat (n % 128)).toNat = n % 128 := by
  rw [UInt8.toNat_ofNat']
  omega

/-- There is no room for another group behind a value if that would shift it out of 64 bits. -/
theorem roomForGroup_lt_iff {acc : Nat} : roomForGroup < acc ↔ UInt64.size ≤ acc * 128 := by
  rw [roomForGroup, show UInt64.size = 18446744073709551616 from rfl]
  omega

/-- The leading groups give their value, unless there is no room for it. -/
theorem readFrom_continued (n : Nat) (rest : List UInt8) :
    readFrom 0 (continued n ++ rest) = readFrom n rest ∨
      (roomForGroup < n / 128 ∧ readFrom 0 (continued n ++ rest) = .error .overflow) := by
  induction n using Nat.strongRecOn generalizing rest with
  | ind n ih =>
    rw [continued]
    split
    · rename_i hzero
      exact .inl (by rw [hzero, List.nil_append])
    · rename_i hpos
      rw [List.append_assoc, List.singleton_append]
      rcases ih (n / 128) (by omega) (UInt8.ofNat (128 + n % 128) :: rest) with h | ⟨hroom, h⟩
      · rw [h, readFrom, toNat_continued]
        split
        · rename_i hroom
          exact .inr ⟨hroom, rfl⟩
        · rw [if_neg (by omega), show n / 128 * 128 + (128 + n % 128) % 128 = n by omega]
          exact .inl rfl
      · exact .inr ⟨by omega, h⟩

/-- What is written is read back, unless it has more than 64 bits. -/
theorem read_write (n : Nat) (rest : List UInt8) :
    read (write n ++ rest) = if n < UInt64.size then .ok (n, rest) else .error .overflow := by
  have hroom : roomForGroup < n / 128 ↔ ¬ n < UInt64.size := by
    rw [roomForGroup_lt_iff, show UInt64.size = 18446744073709551616 from rfl]
    omega
  rw [read, write, List.append_assoc]
  rcases readFrom_continued (n / 128) ([UInt8.ofNat (n % 128)] ++ rest) with h | ⟨hbig, h⟩
  · rw [h, List.singleton_append, readFrom, toNat_last]
    by_cases hn : n < UInt64.size
    · rw [if_neg (fun hgt => hroom.1 hgt hn), if_pos (Nat.mod_lt _ (by decide)), if_pos hn,
        show n / 128 * 128 + n % 128 % 128 = n by omega]
    · rw [if_pos (hroom.2 hn), if_neg hn]
  · rw [h, if_neg (hroom.1 (by omega))]

/-- An integer of `7 * k` bits has at most `k` leading groups. -/
theorem length_continued_le {n k : Nat} (h : n < 128 ^ k) : (continued n).length ≤ k := by
  induction k generalizing n with
  | zero =>
    obtain rfl : n = 0 := by simpa using h
    rw [continued, if_pos rfl]
    exact Nat.le_refl _
  | succ k ih =>
    rw [continued]
    split
    · exact Nat.zero_le _
    · have hgroups := ih (Nat.div_lt_of_lt_mul (by rwa [Nat.mul_comm, ← Nat.pow_succ]) :
        n / 128 < 128 ^ k)
      rw [List.length_append, List.length_singleton]
      omega

/-- An integer of `7 * (k + 1)` bits takes at most `k + 1` bytes. -/
theorem length_write_le {n k : Nat} (h : n < 128 ^ (k + 1)) : (write n).length ≤ k + 1 := by
  have hgroups := length_continued_le (Nat.div_lt_of_lt_mul
    (by rwa [Nat.mul_comm, ← Nat.pow_succ]) : n / 128 < 128 ^ k)
  rw [write, List.length_append, List.length_singleton]
  omega

/-- The signed integers keep their place. -/
theorem unzigzag_zigzag (n : Int64) : unzigzag (zigzag n) = n := by
  unfold zigzag unzigzag
  split
  · rw [if_neg (by omega),
      show (-(((-2 * n.toInt - 1).toNat / 2 : Nat) : Int) - 1) = n.toInt by omega]
    exact Int64.ofInt_toInt n
  · rw [if_pos (by omega), show (((2 * n.toInt).toNat / 2 : Nat) : Int) = n.toInt by omega]
    exact Int64.ofInt_toInt n

/-- Every 64-bit word is the zigzag form of the signed integer that is read from it. -/
theorem zigzag_unzigzag {n : Nat} (h : n < UInt64.size) : zigzag (unzigzag n) = n := by
  rw [show UInt64.size = 18446744073709551616 from rfl] at h
  unfold zigzag unzigzag
  split
  · rw [Int64.toInt_ofInt_of_le (by omega) (by omega), if_neg (by omega)]
    omega
  · rw [Int64.toInt_ofInt_of_le (by omega) (by omega), if_pos (by omega)]
    omega

/-- The zigzag form of a signed integer is a 64-bit word. -/
theorem zigzag_lt (n : Int64) : zigzag n < UInt64.size := by
  have hle := n.le_toInt
  have hlt := n.toInt_lt
  rw [show UInt64.size = 18446744073709551616 from rfl]
  unfold zigzag
  split <;> omega

end Varint

/-! ## Texts -/

/-- A text is what its bytes stand for. -/
theorem textOfBytes?_textBytes (s : String) : textOfBytes? (textBytes s) = some s := by
  have hbytes : (⟨(textBytes s).toArray⟩ : ByteArray) = s.toByteArray := by
    rw [textBytes, Array.toArray_toList]
    rfl
  rw [textOfBytes?, hbytes, String.fromUTF8?, dif_pos s.isValidUTF8]
  rfl

/-- Bytes are read as a text exactly if they are those of the text: there is one form of each text.
-/
theorem textOfBytes?_eq_some {bs : List UInt8} {s : String} :
    textOfBytes? bs = some s ↔ bs = textBytes s := by
  constructor
  · intro h
    rw [textOfBytes?, String.fromUTF8?] at h
    split at h
    · cases h
      rfl
    · cases h
  · rintro rfl
    exact textOfBytes?_textBytes s

/-! ## Readers -/

/-- As many items as there are in front are split off. -/
theorem splitExact?_append {α : Type} (xs ys : List α) :
    splitExact? xs.length (xs ++ ys) = some (xs, ys) := by
  induction xs with
  | nil => rfl
  | cons x xs ih => rw [List.length_cons, List.cons_append, splitExact?, ih, Option.map_some]

/-- Splitting gives the items in front, as many as it is asked for, and the rest. -/
theorem splitExact?_eq_some {α : Type} {n : Nat} {xs first rest : List α} :
    splitExact? n xs = some (first, rest) ↔ xs = first ++ rest ∧ first.length = n := by
  constructor
  · intro h
    induction n generalizing xs first with
    | zero =>
      cases h
      exact ⟨rfl, rfl⟩
    | succ n ih =>
      cases xs with
      | nil => cases h
      | cons x xs =>
        obtain ⟨⟨f, r⟩, hsplit, heq⟩ := Option.map_eq_some_iff.1 h
        cases heq
        obtain ⟨rfl, hlength⟩ := ih hsplit
        exact ⟨rfl, congrArg Nat.succ hlength⟩
  · rintro ⟨rfl, rfl⟩
    exact splitExact?_append first rest

/-- A reader takes some bytes off the front and makes a value of them if they fit, and never makes
anything else of them. -/
structure Reads {ε α : Type} (r : EStateM ε Cursor α) (bs : List UInt8) (a : α) (fits : Prop) :
    Prop where
  total : fits → ∀ t o, r ⟨bs ++ t, o⟩ = .ok a ⟨t, o + bs.length⟩
  sound : ∀ {t o b c}, r ⟨bs ++ t, o⟩ = .ok b c → b = a ∧ c = ⟨t, o + bs.length⟩

namespace Reads

variable {ε α β : Type} {r : EStateM ε Cursor α} {f : α → EStateM ε Cursor β} {bs cs : List UInt8}
  {a : α} {b : β} {p q : Prop}

/-- A reader that does what is said of it reads. -/
theorem of_eq (h : ∀ t o, r ⟨bs ++ t, o⟩ = .ok a ⟨t, o + bs.length⟩) : Reads r bs a True where
  total _ := h
  sound {t o b c} hr := by
    rw [h] at hr
    cases hr
    exact ⟨rfl, rfl⟩

/-- A reader that reads under some condition does so under a stronger one. -/
theorem mono (h : Reads r bs a p) (hp : q → p) : Reads r bs a q where
  total hq := h.total (hp hq)
  sound := h.sound

/-- A reader that reads nothing gives its value. -/
theorem pure (a : α) : Reads (pure a : EStateM ε Cursor α) [] a True :=
  of_eq fun _ _ => rfl

/-- Pieces are read one after the other. -/
theorem bind (h : Reads r bs a p) (h' : Reads (f a) cs b q) :
    Reads (r >>= f) (bs ++ cs) b (p ∧ q) where
  total hpq t o := by
    rw [List.append_assoc, bind_apply, h.total hpq.1, List.length_append, ← Nat.add_assoc]
    exact h'.total hpq.2 t _
  sound {t o b' c'} hr := by
    rw [List.append_assoc] at hr
    obtain ⟨a', c, ha, hb⟩ := bind_eq_ok.1 hr
    obtain ⟨rfl, rfl⟩ := h.sound ha
    rw [List.length_append, ← Nat.add_assoc]
    exact h'.sound hb

/-- What is read may be looked at before it is given. -/
theorem andThen (h : Reads r bs a p) (h' : Reads (f a) [] b q) : Reads (r >>= f) bs b (p ∧ q) := by
  rw [← List.append_nil bs]
  exact h.bind h'

/-- A value that is computed from what is read. -/
theorem map (h : Reads r bs a p) (g : α → β) : Reads (do return g (← r)) bs (g a) p :=
  (h.andThen (f := fun x => Pure.pure (g x)) (pure (g a))).mono fun hp => ⟨hp, trivial⟩

/-- The offset matters only to the errors. -/
theorem offset {f : Nat → Reader α} (h : ∀ start, Reads (f start) bs a p) :
    Reads (Reader.offset >>= f) bs a p where
  total hp t o := (h o).total hp t o
  sound {_ o _ _} hr := (h o).sound hr

/-- A run of bytes is read as it is. -/
theorem bytes (bs : List UInt8) : Reads (Reader.bytes bs.length) bs bs True :=
  of_eq fun t o => by
    rw [Reader.bytes, splitExact?_append]
    rfl

/-- A byte is read as it is. -/
theorem byte (b : UInt8) : Reads Reader.byte [b] b True := of_eq fun _ _ => rfl

/-- An integer is read back from the groups that are written of it if it is a 64-bit word, and else
from none. -/
theorem nat (n : Nat) : Reads Reader.nat (Varint.write n) n (n < UInt64.size) := by
  have hnat : ∀ t o, Reader.nat ⟨Varint.write n ++ t, o⟩ = if n < UInt64.size then
      .ok n ⟨t, o + (Varint.write n).length⟩
    else .error (.overflow o) ⟨Varint.write n ++ t, o⟩ := by
    intro t o
    by_cases hn : n < UInt64.size
    · rw [Reader.nat, Varint.read_write, if_pos hn, if_pos hn]
      simp [Cursor.advance]
    · rw [Reader.nat, Varint.read_write, if_neg hn, if_neg hn]
  constructor
  · intro hn t o
    rw [hnat, if_pos hn]
  · intro t o b c hr
    rw [hnat] at hr
    split at hr
    · cases hr
      exact ⟨rfl, rfl⟩
    · cases hr

/-- A 32-bit word is read back: it is written as an integer, and one that does not exceed 32 bits.
-/
theorem word (w : UInt32) : Reads Reader.word (Varint.write w.toNat) w True := by
  have hw : w.toNat < UInt32.size := w.toNat_lt
  have hsize : UInt32.size < UInt64.size := by decide
  refine offset fun start => ((nat w.toNat).andThen ?_).mono fun _ => ⟨by omega, trivial⟩
  rw [if_pos hw, UInt32.ofNat_toNat]
  exact pure w

/-- A signed integer is read back from its zigzag form. -/
theorem int (n : Int64) : Reads Reader.int (Varint.write (Varint.zigzag n)) n True := by
  have h := (nat (Varint.zigzag n)).map Varint.unzigzag
  rw [Varint.unzigzag_zigzag] at h
  exact h.mono fun _ => Varint.zigzag_lt n

/-- A truth value is read back from its byte. -/
theorem bool (b : Bool) : Reads Reader.bool (encodeBool b) b True := by
  refine offset fun start => ((byte _).andThen ?_).mono fun _ => ⟨trivial, trivial⟩
  cases b
  · exact pure false
  · exact pure true

/-- A text is read back from its length and its bytes, if the length is a 64-bit word. -/
theorem string (s : String) :
    Reads Reader.string (encodeString s) s ((textBytes s).length < UInt64.size) := by
  refine ((nat _).bind (offset fun start => (bytes (textBytes s)).andThen ?_)).mono
    fun hs => ⟨hs, trivial, trivial⟩
  rw [textOfBytes?_textBytes]
  exact pure s

/-- Items that are written one after the other are read one after the other. -/
theorem times {item : Reader α} {encode : α → List UInt8} {fits : α → Prop}
    (h : ∀ x, Reads item (encode x) x (fits x)) (xs : List α) :
    Reads (Reader.times item xs.length) (xs.flatMap encode) xs (∀ x ∈ xs, fits x) := by
  induction xs with
  | nil => exact (pure []).mono fun _ => trivial
  | cons x xs ih =>
    rw [List.flatMap_cons]
    exact ((h x).bind (ih.map (x :: ·))).mono List.forall_mem_cons.1

end Reads

end Formals
