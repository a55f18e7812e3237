import Formals.Proofs.Codec

/-!
# Bytes that break off

A reader is steady (`Steady`) when more bytes behind those that it finds change nothing: what it
gives it still gives, and what it rejects it still rejects, unless it failed because the bytes end.
So a steady reader that uses bytes up recognises every proper part of them as broken off, at its end
(`Steady.truncated`). The reader of instructions is steady whatever is in their payloads, because a
payload is cut out before anything in it is looked at; wherever a stream is broken off inside an
instruction, decoding says so and says where.
-/

namespace Formals

/-! ## Steady readers -/

/-- A reader keeps to what it makes of some bytes when more of them follow, unless it fails because
they end, which it reports by `truncated`. -/
structure Steady {ε α : Type} (truncated : Nat → ε) (r : EStateM ε Cursor α) : Prop where
  ok : ∀ {p o a c}, r ⟨p, o⟩ = .ok a c →
    c.limit = o + p.length ∧ ∀ q, r ⟨p ++ q, o⟩ = .ok a ⟨c.rest ++ q, c.offset⟩
  error : ∀ {p o e c}, r ⟨p, o⟩ = .error e c →
    e = truncated (o + p.length) ∨ ∀ q, ∃ c', r ⟨p ++ q, o⟩ = .error e c'

/-- An integer that is read is read in front of more bytes, and so is one that overflows. -/
theorem Varint.readFrom_append (acc : Nat) (p : List UInt8) :
    readFrom acc p = .error .truncated ∨
      ((∃ n rest, rest.length ≤ p.length ∧ readFrom acc p = .ok (n, rest) ∧
          ∀ q, readFrom acc (p ++ q) = .ok (n, rest ++ q)) ∨
        (readFrom acc p = .error .overflow ∧ ∀ q, readFrom acc (p ++ q) = .error .overflow)) := by
  induction p generalizing acc with
  | nil => exact .inl rfl
  | cons b p ih =>
    simp only [readFrom, List.cons_append]
    by_cases hroom : acc > roomForGroup
    · rw [if_pos hroom]
      exact .inr (.inr ⟨rfl, fun _ => if_pos hroom⟩)
    simp only [if_neg hroom]
    by_cases hlast : b.toNat < 128
    · simp only [if_pos hlast]
      exact .inr (.inl ⟨_, p, Nat.le_succ _, rfl, fun _ => rfl⟩)
    simp only [if_neg hlast]
    rcases ih (acc * 128 + b.toNat % 128) with h | ⟨n, rest, hle, h⟩ | h
    · exact .inl h
    · exact .inr (.inl ⟨n, rest, Nat.le_succ_of_le hle, h⟩)
    · exact .inr (.inr h)

namespace Steady

variable {ε α β : Type} {truncated : Nat → ε} {r : EStateM ε Cursor α} {f : α → EStateM ε Cursor β}

/-- A reader that reads nothing finds the same in front of more bytes. -/
theorem pure (a : α) : Steady truncated (pure a : EStateM ε Cursor α) where
  ok h := by
    cases h
    exact ⟨rfl, fun _ => rfl⟩
  error h := nomatch h

/-- A reader that fails whatever it finds still does so in front of more bytes. -/
theorem throw (e : ε) : Steady truncated (throw e : EStateM ε Cursor α) where
  ok h := nomatch h
  error h := by
    cases h
    exact .inr fun q => ⟨_, rfl⟩

/-- Two steady readers in a row are steady. The second one finds more bytes behind those that the
first one leaves. -/
theorem bind (h : Steady truncated r) (h' : ∀ a, Steady truncated (f a)) :
    Steady truncated (r >>= f) where
  ok hr := by
    obtain ⟨a, c, ha, hb⟩ := bind_eq_ok.1 hr
    obtain ⟨hlimit, hmore⟩ := h.ok ha
    obtain ⟨hlimit', hmore'⟩ := (h' a).ok hb
    exact ⟨hlimit'.trans hlimit, fun q => bind_eq_ok.2 ⟨a, _, hmore q, hmore' q⟩⟩
  error hr := by
    rcases bind_eq_error.1 hr with he | ⟨a, c, ha, he⟩
    · rcases h.error he with he | hmore
      · exact .inl he
      · refine .inr fun q => ?_
        obtain ⟨c', hc'⟩ := hmore q
        exact ⟨c', bind_eq_error.2 (.inl hc')⟩
    · obtain ⟨hlimit, hmore⟩ := h.ok ha
      rcases (h' a).error he with he | hmore'
      · exact .inl (he.trans (congrArg truncated hlimit))
      · refine .inr fun q => ?_
        obtain ⟨c', hc'⟩ := hmore' q
        exact ⟨c', bind_eq_error.2 (.inr ⟨a, _, hmore q, hc'⟩)⟩

/-- What is read may be changed. -/
theorem map (h : Steady truncated r) (g : α → β) : Steady truncated (do return g (← r)) :=
  h.bind fun a => pure (g a)

/-- **Broken-off bytes.** A steady reader that uses bytes up fails at the end of every proper part
of them. -/
theorem truncated_of_append (h : Steady truncated r) {p q : List UInt8} {o o' : Nat} {a : α}
    (hr : r ⟨p ++ q, o⟩ = .ok a ⟨[], o'⟩) (hq : q ≠ []) :
    ∃ c, r ⟨p, o⟩ = .error (truncated (o + p.length)) c := by
  cases hp : r ⟨p, o⟩ with
  | ok b c =>
    rw [(h.ok hp).2 q] at hr
    have hrest : c.rest ++ q = [] := congrArg Cursor.rest (EStateM.Result.ok.inj hr).2
    exact absurd (List.append_eq_nil_iff.1 hrest).2 hq
  | error e c =>
    rcases h.error hp with rfl | hmore
    · exact ⟨c, rfl⟩
    · obtain ⟨c', hc'⟩ := hmore q
      rw [hc'] at hr
      cases hr

/-- A run of bytes is taken in front of more bytes, or there are too few, which is reported at their
end. -/
theorem bytes (n : Nat) : Steady .truncated (Reader.bytes n) where
  ok {p o a c} hr := by
    rw [Reader.bytes] at hr
    cases hs : splitExact? n p with
    | none =>
      rw [hs] at hr
      cases hr
    | some split =>
      obtain ⟨taken, rest⟩ := split
      rw [hs] at hr
      cases hr
      obtain ⟨rfl, rfl⟩ := splitExact?_eq_some.1 hs
      refine ⟨by simp [Cursor.limit, Cursor.advance, Nat.add_assoc], fun q => ?_⟩
      rw [Reader.bytes, List.append_assoc, splitExact?_append]
      rfl
  error {p o e c} hr := by
    rw [Reader.bytes] at hr
    split at hr
    · cases hr
    · cases hr
      exact .inl rfl

/-- A byte is taken in front of more bytes, or there is none. -/
theorem byte : Steady .truncated Reader.byte where
  ok {p o a c} hr := by
    cases p with
    | nil => cases hr
    | cons b p =>
      cases hr
      exact ⟨by simp [Cursor.limit, Cursor.advance, Nat.add_comm, Nat.add_left_comm], fun q => rfl⟩
  error {p o e c} hr := by
    cases p with
    | nil =>
      cases hr
      exact .inl rfl
    | cons b p => cases hr

/-- An integer is read in front of more bytes, or it overflows however many follow, or it breaks off
at their end. -/
theorem nat : Steady .truncated Reader.nat where
  ok {p o a c} hr := by
    rcases Varint.readFrom_append 0 p with h | ⟨n, rest, hle, h, hmore⟩ | ⟨h, -⟩
    · rw [Reader.nat, Varint.read, h] at hr
      cases hr
    · rw [Reader.nat, Varint.read, h] at hr
      cases hr
      refine ⟨by simp only [Cursor.limit, Cursor.advance]; omega, fun q => ?_⟩
      simp only [Reader.nat, Varint.read, hmore, Cursor.advance, List.length_append,
        Nat.add_sub_add_right]
    · rw [Reader.nat, Varint.read, h] at hr
      cases hr
  error {p o e c} hr := by
    rcases Varint.readFrom_append 0 p with h | ⟨n, rest, hle, h, -⟩ | ⟨h, hmore⟩
    · rw [Reader.nat, Varint.read, h] at hr
      cases hr
      exact .inl rfl
    · rw [Reader.nat, Varint.read, h] at hr
      cases hr
    · rw [Reader.nat, Varint.read, h] at hr
      cases hr
      refine .inr fun q => ⟨⟨p ++ q, o⟩, ?_⟩
      simp only [Reader.nat, Varint.read, hmore]

/-- The offset is that at which a reader starts, whatever follows. -/
theorem offset {f : Nat → Reader α} (h : ∀ o, Steady .truncated (f o)) :
    Steady .truncated (Reader.offset >>= f) where
  ok {_ o _ _} hr := (h o).ok hr
  error {_ o _ _} hr := (h o).error hr

/-- A 32-bit word is read steadily, and one that is too large is rejected steadily. -/
theorem word : Steady .truncated Reader.word :=
  offset fun start => nat.bind fun n => by
    split
    · exact pure _
    · exact throw _

/-- A text is read steadily: its bytes are cut out before they are looked at. -/
theorem string : Steady .truncated Reader.string :=
  nat.bind fun n => offset fun start => (bytes n).bind fun taken => by
    split
    · exact pure _
    · exact throw _

/-- What is in a payload is looked at when all of it is there. -/
theorem instruction : Steady .truncated Reader.instruction :=
  offset fun start => byte.bind fun number => by
    split
    · exact throw _
    · refine nat.bind fun length => offset fun inside => (bytes length).bind fun taken => ?_
      split
      · exact pure _
      · exact throw _

/-- A number of items is read steadily if each of them is. -/
theorem times {item : Reader α} (h : Steady .truncated item) (n : Nat) :
    Steady .truncated (Reader.times item n) := by
  induction n with
  | zero => exact pure _
  | succ n ih => exact h.bind fun first => ih.map _

end Steady

/-! ## Streams -/

/-- Behind an instruction that is read in front, the other bytes are read. -/
theorem Reader.untilEnd_append {i : Instruction} (hi : i.Fits) (t : List UInt8) (o fuel : Nat) :
    Reader.untilEnd Reader.instruction (fuel + 1) ⟨i.encode ++ t, o⟩ =
      (do return i :: (← Reader.untilEnd Reader.instruction fuel) : Reader Stream)
        ⟨t, o + i.encode.length⟩ := by
  have hfirst := (Reads.instruction i).total hi t o
  rw [Instruction.encode, List.cons_append] at hfirst ⊢
  rw [untilEnd_cons, bind_apply, hfirst]

/-- A stream that is broken off inside an instruction is recognised where it ends. -/
theorem Reader.untilEnd_take {code : Stream} (hcode : ∀ i ∈ code, i.Fits) {n : Nat}
    (hn : n ≤ code.encode.length) (hinside : ∀ k, n ≠ (Stream.encode (code.take k)).length)
    {fuel : Nat} (hfuel : n ≤ fuel) (o : Nat) :
    ∃ c, Reader.untilEnd Reader.instruction fuel ⟨code.encode.take n, o⟩ =
      .error (.truncated (o + n)) c := by
  induction code generalizing n fuel o with
  | nil => exact absurd (Nat.le_zero.1 hn) (hinside 0)
  | cons i code ih =>
    have hzero : n ≠ 0 := hinside 0
    obtain ⟨fuel, rfl⟩ : ∃ f, fuel = f + 1 := ⟨fuel - 1, by omega⟩
    have hi := hcode i List.mem_cons_self
    rw [Stream.encode, List.flatMap_cons, List.length_append] at hn
    rw [Stream.encode, List.flatMap_cons]
    by_cases hless : n < i.encode.length
    · have hwhole := (Reads.instruction i).total hi [] o
      rw [List.append_nil, ← List.take_append_drop n i.encode] at hwhole
      obtain ⟨c, hc⟩ := Steady.instruction.truncated_of_append hwhole
        (fun h => by rw [List.drop_eq_nil_iff] at h; omega)
      rw [List.length_take_of_le (Nat.le_of_lt hless)] at hc
      obtain ⟨m, rfl⟩ : ∃ m, n = m + 1 := ⟨n - 1, by omega⟩
      rw [List.take_append_of_le_length (Nat.le_of_lt hless)]
      rw [Instruction.encode, List.take_succ_cons] at hc ⊢
      exact ⟨c, by rw [untilEnd_cons, bind_apply, hc]⟩
    · obtain ⟨m, rfl⟩ := Nat.exists_eq_add_of_le (Nat.le_of_not_lt hless)
      have hbehind : ∀ k, m ≠ (Stream.encode (code.take k)).length := fun k h =>
        hinside (k + 1) (by
          rw [h, List.take_succ_cons, Stream.encode, Stream.encode, List.flatMap_cons,
            List.length_append])
      have hpos : 0 < i.encode.length := Nat.succ_pos _
      obtain ⟨c, hc⟩ := ih (fun j hj => hcode j (List.mem_cons_of_mem _ hj))
        (Nat.le_of_add_le_add_left hn) hbehind (show m ≤ fuel by omega) (o + i.encode.length)
      refine ⟨c, ?_⟩
      rw [List.take_length_add_append, untilEnd_append hi, bind_apply, ← Stream.encode, hc,
        Nat.add_assoc]

/-- **Truncation.** The first bytes of an encoded stream are decoded to the instructions before an
instruction boundary if they end there, and anywhere else they are broken off where they end. -/
theorem decode_take {code : Stream} (hcode : ∀ i ∈ code, i.InMemory) {n : Nat}
    (hn : n ≤ code.encode.length) :
    (∀ k, n = (Stream.encode (code.take k)).length →
      Stream.decode (code.encode.take n) = .ok (code.take k)) ∧
    ((∀ k, n ≠ (Stream.encode (code.take k)).length) →
      Stream.decode (code.encode.take n) = .error (.truncated n)) := by
  have hfits : ∀ i ∈ code, i.Fits := fun i hi => (hcode i hi).fits
  constructor
  · rintro k rfl
    have hsplit : code.encode = Stream.encode (code.take k) ++ Stream.encode (code.drop k) := by
      rw [Stream.encode, Stream.encode, Stream.encode, ← List.flatMap_append,
        List.take_append_drop]
    have hbefore : Decodes (Stream.encode (code.take k) ++ []) (code.take k ++ []) :=
      Decodes.encode_append (fun i hi => hfits i (List.mem_of_mem_take hi)) .nil
    rw [List.append_nil, List.append_nil] at hbefore
    rw [hsplit, List.take_left]
    exact decode_iff.2 hbefore
  · intro hinside
    obtain ⟨c, hc⟩ := Reader.untilEnd_take hfits hn hinside (Nat.le_refl n) 0
    rw [Stream.decode, List.length_take_of_le hn, hc, Nat.zero_add]

/-- A text of two instructions that is broken off between them, inside a character and inside a
length. -/
theorem decode_take_texts :
    Stream.decode ((Stream.encode [⟨.pushString "é", {}⟩, ⟨.pushNil, ⟨300, 1⟩⟩]).take 7) =
        .ok [⟨.pushString "é", {}⟩] ∧
      Stream.decode ((Stream.encode [⟨.pushString "é", {}⟩, ⟨.pushNil, ⟨300, 1⟩⟩]).take 6) =
        .error (.truncated 6) ∧
      Stream.decode ((Stream.encode [⟨.pushString "é", {}⟩, ⟨.pushNil, ⟨300, 1⟩⟩]).take 10) =
        .error (.truncated 10) := by
  have hcode : ∀ i ∈ [(⟨.pushString "é", {}⟩ : Instruction), ⟨.pushNil, ⟨300, 1⟩⟩],
      i.InMemory := by
    intro i hi text ht
    rcases List.mem_cons.1 hi with rfl | hi
    · obtain rfl := List.mem_singleton.1 ht
      decide
    · obtain rfl := List.mem_singleton.1 hi
      cases ht
  have hlengths : ∀ k, (Stream.encode ([(⟨.pushString "é", {}⟩ : Instruction),
      ⟨.pushNil, ⟨300, 1⟩⟩].take k)).length ∈ [0, 7, 12] := fun k => by
    match k with
    | 0 => decide +kernel
    | 1 => decide +kernel
    | k + 2 =>
      rw [List.take_of_length_le (Nat.le_add_left 2 k)]
      decide +kernel
  refine ⟨(decode_take hcode (by decide +kernel)).1 1 (by decide +kernel),
    (decode_take hcode (by decide +kernel)).2 fun k h => ?_,
    (decode_take hcode (by decide +kernel)).2 fun k h => ?_⟩
  · have := hlengths k
    rw [← h] at this
    exact absurd this (by decide)
  · have := hlengths k
    rw [← h] at this
    exact absurd this (by decide)

end Formals
