import Formals.Cache.Record
import Formals.Proofs.Truncation

/-!
# What records hold

A record that is decoded holds the key and the code that it was written for, and nothing else
(`decode_encode`). What a record declares (`contents`) is read steadily, so every proper part of a
record is broken off, and whatever follows a record is in excess: no record is the beginning of
another one.
-/

namespace Formals.Cache

namespace Record

variable {α : Type} {r : Reader α} {bs : List UInt8} {a : α} {p : Prop}

/-- A part of a record is read as encoded code is, but for the kind of the errors. -/
theorem reads_part (h : Reads r bs a p) : Reads (part r) bs a p where
  total hp t o := by rw [part, h.total hp]
  sound {t o b c} hr := by
    rw [part] at hr
    cases hx : r ⟨bs ++ t, o⟩ with
    | ok b' c' =>
      rw [hx] at hr
      cases hr
      exact h.sound hx
    | error e c' =>
      rw [hx] at hr
      cases hr

/-- Bytes that are expected are found to be there. -/
theorem reads_expect (bs : List UInt8) : Reads (Reader.expect bs) bs true True := by
  have h := (Reads.bytes bs).map (· == bs)
  rwa [beq_self_eq_true] at h

/-- The names in a key are short enough for their lengths to be written. -/
def KeyFits (key : Key) : Prop :=
  (textBytes key.file).length < UInt64.size ∧ (textBytes key.body).length < UInt64.size

/-- A key is read back if its names are short enough. -/
theorem reads_key (key : Key) : Reads keyReader
    (encodeString key.file ++ (encodeString key.body ++ Varint.write key.fingerprint.toNat)) key
    (KeyFits key) := by
  have hfingerprint : Reads (do return Key.mk key.file key.body (UInt64.ofNat (← part Reader.nat)))
      (Varint.write key.fingerprint.toNat) key (key.fingerprint.toNat < UInt64.size) := by
    have h := (reads_part (Reads.nat key.fingerprint.toNat)).map
      fun n => Key.mk key.file key.body (UInt64.ofNat n)
    rwa [UInt64.ofNat_toNat] at h
  have h : Reads keyReader _ key _ := (reads_part (Reads.string key.file)).bind
    ((reads_part (Reads.string key.body)).bind hfingerprint)
  exact h.mono fun hkey => ⟨hkey.1, hkey.2, key.fingerprint.toNat_lt⟩

/-- Everything that a record declares: the key, the number of instructions and the instructions. -/
def contents : PartReader (Key × Nat × Stream) := do
  unless ← part (Reader.expect magic) do throw .notRecord
  let found ← part Reader.word
  if found.toNat ≠ version then throw (.otherVersion found)
  let key ← keyReader
  let count ← part Reader.nat
  return (key, count, ← part (Reader.times Reader.instruction count))

/-- A record is read by reading what it declares, behind which nothing may follow. -/
theorem reader_eq : reader = (do
    let (key, count, code) ← contents
    unless (← get).rest.isEmpty do throw (.excess count)
    return (key, code)) := by
  have hite : ∀ (c : Prop) [Decidable c] (x y : PartReader (Key × Nat × Stream))
      (f : Key × Nat × Stream → PartReader (Key × Stream)),
      (if c then x else y) >>= f = if c then x >>= f else y >>= f := fun c _ x y f => by
    split <;> rfl
  simp only [reader, contents, bind_assoc, hite, pure_bind]

/-- What a record declares is read off its bytes. -/
theorem reads_contents (key : Key) (code : Stream) :
    Reads contents (encode key code) (key, code.length, code)
      (KeyFits key ∧ code.length < UInt64.size ∧ ∀ i ∈ code, i.Fits) := by
  have hcode : Reads (do
      let key ← keyReader
      let count ← part Reader.nat
      return (key, count, ← part (Reader.times Reader.instruction count))) _
      (key, code.length, code) _ :=
    (reads_key key).bind ((reads_part (Reads.nat code.length)).bind
      ((reads_part (Reads.stream code)).map fun code' => (key, code.length, code')))
  have hreads : Reads contents _ _ _ := (reads_part (reads_expect magic)).bind
    ((reads_part (Reads.word (UInt32.ofNat version))).bind hcode)
  have hencode : encode key code = magic ++ (Varint.write (UInt32.ofNat version).toNat ++
      ((encodeString key.file ++ (encodeString key.body ++ Varint.write key.fingerprint.toNat)) ++
        (Varint.write code.length ++ code.encode))) := by
    simp [encode, version]
  rw [hencode]
  exact hreads.mono fun h => ⟨trivial, trivial, h⟩

/-- What a record declares is read before it is looked at what follows. -/
theorem decode_of_contents {bs rest : List UInt8} {o : Nat} {key : Key} {count : Nat}
    {code : Stream} (h : contents ⟨bs, 0⟩ = .ok (key, count, code) ⟨rest, o⟩) :
    decode bs = if rest = [] then .ok (key, code) else .error (.excess count) := by
  rw [decode, reader_eq, bind_apply, h]
  cases rest <;> rfl

/-- **Records.** A record that can be decoded holds what it was written for. -/
theorem decode_encode {key : Key} {code : Stream} {found : Key × Stream}
    (h : decode (encode key code) = .ok found) : found = (key, code) := by
  rw [← List.append_nil (encode key code)] at h
  cases hc : contents ⟨encode key code ++ [], 0⟩ with
  | ok declared c =>
    obtain ⟨rfl, rfl⟩ := (reads_contents key code).sound hc
    rw [decode_of_contents hc, if_pos rfl] at h
    exact (Except.ok.inj h).symm
  | error e c =>
    rw [decode, reader_eq, bind_apply, hc] at h
    cases h

/-! ## Records that break off -/

/-- The fault of a record that breaks off at an offset. -/
def endsAt (offset : Nat) : Fault := .damaged (.truncated offset)

/-- A part of a record is read steadily if it is so in encoded code. -/
theorem steady_part (h : Steady .truncated r) : Steady endsAt (part r) where
  ok {p o a c} hr := by
    rw [part] at hr
    cases hx : r ⟨p, o⟩ with
    | ok a' c' =>
      rw [hx] at hr
      cases hr
      obtain ⟨hlimit, hmore⟩ := h.ok hx
      exact ⟨hlimit, fun q => by rw [part, hmore]⟩
    | error e c' =>
      rw [hx] at hr
      cases hr
  error {p o e c} hr := by
    rw [part] at hr
    cases hx : r ⟨p, o⟩ with
    | ok a' c' =>
      rw [hx] at hr
      cases hr
    | error e' c' =>
      rw [hx] at hr
      cases hr
      rcases h.error hx with rfl | hmore
      · exact .inl rfl
      · refine .inr fun q => ?_
        obtain ⟨c₁, hc₁⟩ := hmore q
        exact ⟨c₁, by rw [part, hc₁]⟩

/-- What a record declares is read steadily, from its first bytes to its last instruction. -/
theorem steady_contents : Steady endsAt contents := by
  have hkey : Steady endsAt keyReader :=
    (steady_part .string).bind fun file => (steady_part .string).bind fun body =>
      (steady_part .nat).map _
  have hbody : Steady endsAt (do
      let key ← keyReader
      let count ← part Reader.nat
      return (key, count, ← part (Reader.times Reader.instruction count))) :=
    hkey.bind fun key => (steady_part .nat).bind fun count =>
      (steady_part (.times .instruction count)).map _
  refine (steady_part ((Steady.bytes _).map _)).bind fun isRecord => ?_
  have hversion : Steady endsAt (do
      let found ← part Reader.word
      if found.toNat ≠ version then throw (.otherVersion found)
      let key ← keyReader
      let count ← part Reader.nat
      return (key, count, ← part (Reader.times Reader.instruction count))) := by
    refine (steady_part .word).bind fun found => ?_
    split
    · exact (Steady.throw _).bind fun _ => hbody
    · exact hbody
  split
  · exact hversion
  · exact (Steady.throw _).bind fun _ => hversion

/-- The lengths in a record are 64-bit words, and the texts of its code are in memory. -/
structure Fits (key : Key) (code : Stream) : Prop where
  key : KeyFits key
  count : code.length < UInt64.size
  code : ∀ i ∈ code, i.InMemory

/-- A record is decoded to what it was written for. -/
theorem Fits.decode {key : Key} {code : Stream} (h : Fits key code) :
    decode (encode key code) = .ok (key, code) := by
  have hdecode := decode_of_contents ((reads_contents key code).total
    ⟨h.key, h.count, fun i hi => (h.code i hi).fits⟩ [] 0)
  rwa [List.append_nil, if_pos rfl] at hdecode

/-- **Records are prefix-free.** A record is decoded to what it was written for, and is of no use
for any other key. Every proper part of it is broken off where it ends, and with anything behind it
it is rejected. -/
theorem records_prefix_free {key : Key} {code : Stream} (h : Fits key code) :
    decode (encode key code) = .ok (key, code) ∧
    (∀ n < (encode key code).length,
      decode ((encode key code).take n) = .error (.damaged (.truncated n))) ∧
    (∀ t ≠ [], decode (encode key code ++ t) = .error (.excess code.length)) ∧
    ∀ key', decodeFor key' (encode key code) =
      if key' = key then .ok code else .error (.otherKey key) := by
  have htotal := (reads_contents key code).total ⟨h.key, h.count, fun i hi => (h.code i hi).fits⟩
  refine ⟨h.decode, fun n hn => ?_, fun t ht => ?_, fun key' => ?_⟩
  · have hwhole := htotal [] 0
    rw [List.append_nil, ← List.take_append_drop n (encode key code)] at hwhole
    obtain ⟨c, hc⟩ := steady_contents.truncated_of_append hwhole
      (fun hnil => by rw [List.drop_eq_nil_iff] at hnil; omega)
    rw [List.length_take_of_le (Nat.le_of_lt hn), Nat.zero_add] at hc
    rw [decode, reader_eq, bind_apply, hc, endsAt]
  · rw [decode_of_contents (htotal t 0), if_neg ht]
  · rw [decodeFor, h.decode]
    by_cases hkey : key' = key
    · rw [if_pos hkey]
      exact if_pos hkey.symm
    · rw [if_neg hkey]
      exact if_neg (Ne.symm hkey)

/-- A record that is read, broken off inside its version and inside its text, followed by a byte,
and read for another key. -/
theorem records_prefix_free_text :
    decode (encode ⟨"lib", "call", 300⟩ [⟨.pushString "é", {}⟩]) =
        .ok (⟨"lib", "call", 300⟩, [⟨.pushString "é", {}⟩]) ∧
      decode ((encode ⟨"lib", "call", 300⟩ [⟨.pushString "é", {}⟩]).take 4) =
        .error (.damaged (.truncated 4)) ∧
      decode ((encode ⟨"lib", "call", 300⟩ [⟨.pushString "é", {}⟩]).take 23) =
        .error (.damaged (.truncated 23)) ∧
      decode (encode ⟨"lib", "call", 300⟩ [⟨.pushString "é", {}⟩] ++ [1]) =
        .error (.excess 1) ∧
      decodeFor ⟨"lib", "call", 301⟩ (encode ⟨"lib", "call", 300⟩ [⟨.pushString "é", {}⟩]) =
        .error (.otherKey ⟨"lib", "call", 300⟩) := by
  have hfits : Fits ⟨"lib", "call", 300⟩ [⟨.pushString "é", {}⟩] := by
    refine ⟨⟨by decide, by decide⟩, by decide, fun i hi text ht => ?_⟩
    obtain rfl := List.mem_singleton.1 hi
    obtain rfl := List.mem_singleton.1 ht
    decide
  have hlength : (encode ⟨"lib", "call", 300⟩ [⟨.pushString "é", {}⟩]).length = 24 := by
    decide +kernel
  obtain ⟨hdecode, hcut, hmore, hfor⟩ := records_prefix_free hfits
  exact ⟨hdecode, hcut 4 (by omega), hcut 23 (by omega), hmore [1] (by simp), hfor _⟩

end Record

end Formals.Cache
