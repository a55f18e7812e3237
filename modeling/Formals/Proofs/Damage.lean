import Formals.Proofs.Integers

/-!
# Where damaged bytes are damaged

A payload is a row of data: words, longer integers, truth values and texts, as the opcode says
(`Opcode.data`). A reader of such a row either takes the bytes of the whole row off the front, or it
fails at one of the data and all the data in front of that are sound (`Fills`). So an error of the
decoder belongs to a place: the instructions in front of it are decoded, the data of the payload in
front of it are sound (`DatumAt`), and what is at the place is damaged as the error says
(`DecodeError.LocatedIn`).
-/

namespace Formals

/-! ## Rows of data -/

/-- What a place in an encoding is read as. -/
inductive Datum where
  /-- An unsigned integer of 32 bits. -/
  | word
  /-- An unsigned integer of 64 bits, or a signed one in its place. -/
  | long
  /-- A truth value. -/
  | flag
  /-- A length and that many bytes of UTF-8. -/
  | text

namespace Datum

/-- The integer that a datum is or begins with is below this. -/
def bound : Datum → Nat
  | word => UInt32.size
  | long | flag | text => UInt64.size

/-- The bytes of a sound datum. -/
inductive Sound : Datum → List UInt8 → Prop
  | word {n : Nat} {form : List UInt8} : Varint.Form n form → n < UInt32.size → Sound .word form
  | long {n : Nat} {form : List UInt8} : Varint.Form n form → Sound .long form
  | flag (b : Bool) : Sound .flag (encodeBool b)
  | text {s : String} {form : List UInt8} : Varint.Form (textBytes s).length form →
    Sound .text (form ++ textBytes s)

/-- The bytes of a row of sound data. -/
inductive AllSound : List Datum → List UInt8 → Prop
  | nil : AllSound [] []
  | cons {datum : Datum} {data : List Datum} {bs more : List UInt8} : datum.Sound bs →
    AllSound data more → AllSound (datum :: data) (bs ++ more)

/-- The bytes break off inside a datum: all groups of its integer are marked as continued, or there
is no byte for a truth value, or fewer bytes than the length of a text says. -/
inductive Cut : Datum → List UInt8 → Prop
  | integer {datum : Datum} {bs : List UInt8} : datum ≠ .flag → (∀ b ∈ bs, 128 ≤ b.toNat) →
    Cut datum bs
  | flag : Cut .flag []
  | text {n : Nat} {form run : List UInt8} : Varint.Form n form → run.length < n →
    Cut .text (form ++ run)

/-- What can be wrong with a datum that begins at an offset, and of which there are some bytes
before its part of the encoding ends. -/
inductive Damage (bs : List UInt8) (o : Nat) : Datum → DecodeError → Prop
  | truncated {datum : Datum} : datum.Cut bs → Damage bs o datum (.truncated (o + bs.length))
  | overflow {datum : Datum} : datum ≠ .flag →
    datum.bound ≤ Varint.value (bs.take (Varint.extent bs)) → Damage bs o datum (.overflow o)
  | flag {b : UInt8} {rest : List UInt8} : bs = b :: rest → 2 ≤ b.toNat →
    Damage bs o .flag (.invalidBool b o)
  | text {form run rest : List UInt8} : bs = form ++ run ++ rest → Varint.Form run.length form →
    (∀ s, textBytes s ≠ run) → Damage bs o .text (.invalidUtf8 (o + form.length))

/-- One datum of a row is damaged, and those in front of it are sound. -/
def RowDamage (data : List Datum) (bs : List UInt8) (o : Nat) (e : DecodeError) : Prop :=
  ∃ before datum after sound left, data = before ++ datum :: after ∧ bs = sound ++ left ∧
    AllSound before sound ∧ datum.Damage left (o + sound.length) e

/-- Two rows of sound data make one row. -/
theorem AllSound.append {data more : List Datum} {bs cs : List UInt8} (h : AllSound data bs)
    (h' : AllSound more cs) : AllSound (data ++ more) (bs ++ cs) := by
  induction h with
  | nil => exact h'
  | cons hdatum _ ih =>
    rw [List.cons_append, List.append_assoc]
    exact .cons hdatum ih

/-- A sound datum is a row of its own. -/
theorem AllSound.single {datum : Datum} {bs : List UInt8} (h : datum.Sound bs) :
    AllSound [datum] bs := by
  rw [← List.append_nil bs]
  exact .cons h .nil

/-- A damaged datum is a damaged row of its own. -/
theorem RowDamage.single {datum : Datum} {bs : List UInt8} {o : Nat} {e : DecodeError}
    (h : datum.Damage bs o e) : RowDamage [datum] bs o e :=
  ⟨[], datum, [], [], bs, rfl, rfl, .nil, h⟩

/-- Damage in front of other data. -/
theorem RowDamage.append_right {data : List Datum} {bs : List UInt8} {o : Nat} {e : DecodeError}
    (h : RowDamage data bs o e) (more : List Datum) : RowDamage (data ++ more) bs o e := by
  obtain ⟨before, datum, after, sound, left, rfl, rfl, hsound, hdamage⟩ := h
  exact ⟨before, datum, after ++ more, sound, left, by rw [List.append_assoc, List.cons_append],
    rfl, hsound, hdamage⟩

/-- Damage behind sound data. -/
theorem RowDamage.append_left {data more : List Datum} {bs cs : List UInt8} {o : Nat}
    {e : DecodeError} (h : AllSound data bs) (h' : RowDamage more cs (o + bs.length) e) :
    RowDamage (data ++ more) (bs ++ cs) o e := by
  obtain ⟨before, datum, after, sound, left, rfl, rfl, hsound, hdamage⟩ := h'
  rw [Nat.add_assoc, ← List.length_append] at hdamage
  exact ⟨data ++ before, datum, after, bs ++ sound, left, (List.append_assoc ..).symm,
    (List.append_assoc ..).symm, h.append hsound, hdamage⟩

end Datum

open Datum

/-- The data of the operands of an operation. -/
def Opcode.operandData : Opcode → List Datum
  | pushInt => [.long]
  | pushString | pushSymbol | localGet | instanceGet | instanceSet | globalGet | globalSet
  | hasKeyword | takeKeyword => [.text]
  | createArray | createHash | setArgc => [.word]
  | localSet => [.text, .flag]
  | send => [.text, .flag, .flag]
  | pushNil | pushTrue | pushFalse | pushSelf | dup | pop | arrayShift | arrayPop | arrayIsEmpty
  | toArray | stageKeywords | checkKeywords | ifTrue | orElse | endIf => []

/-- The data of a payload: the start and the length of the span and then the operands. -/
def Opcode.data (opcode : Opcode) : List Datum := [.word, .word] ++ opcode.operandData

/-! ## Readers of rows -/

/-- A reader takes the bytes of a row of sound data off the front, or it fails where one of them is
damaged. -/
structure Fills {α : Type} (data : List Datum) (r : Reader α) : Prop where
  ok : ∀ {bs o a c}, r ⟨bs, o⟩ = .ok a c →
    ∃ sound, AllSound data sound ∧ bs = sound ++ c.rest ∧ c.offset = o + sound.length
  error : ∀ {bs o e c}, r ⟨bs, o⟩ = .error e c → RowDamage data bs o e

/-- An integer that is read is the value of the groups up to the last one, which make up one of its
forms. -/
theorem nat_ok {bs : List UInt8} {o n : Nat} {c : Cursor} (h : Reader.nat ⟨bs, o⟩ = .ok n c) :
    n = Varint.value (bs.take (Varint.extent bs)) ∧ ∃ form, Varint.Form n form ∧
      bs = form ++ c.rest ∧ c.offset = o + form.length := by
  rw [Reader.nat] at h
  cases hread : Varint.read bs with
  | error fault =>
    rw [hread] at h
    cases fault <;> cases h
  | ok found =>
    obtain ⟨n', rest⟩ := found
    rw [hread] at h
    cases h
    obtain ⟨form, hform, rfl⟩ := Varint.read_ok_iff.1 hread
    exact ⟨Varint.value_of_read hread, form, hform, rfl, by simp [Cursor.advance]⟩

/-- An integer cannot be read if every group there is marked as continued, so that the bytes break
off at their end, or if its value is no 64-bit word, which is reported where it begins. -/
theorem nat_error {bs : List UInt8} {o : Nat} {e : DecodeError} {c : Cursor}
    (h : Reader.nat ⟨bs, o⟩ = .error e c) :
    e = .truncated (o + bs.length) ∧ (∀ b ∈ bs, 128 ≤ b.toNat) ∨
      e = .overflow o ∧ UInt64.size ≤ Varint.value (bs.take (Varint.extent bs)) := by
  rw [Reader.nat] at h
  cases hread : Varint.read bs with
  | error fault =>
    rw [hread] at h
    cases fault with
    | truncated =>
      cases h
      exact .inl ⟨rfl, Varint.continued_of_read hread⟩
    | overflow =>
      cases h
      exact .inr ⟨rfl, Varint.overflow_of_read hread⟩
  | ok found =>
    rw [hread] at h
    cases h

/-- A run of bytes that is taken is as long as it has to be and stands in front of what is left. -/
theorem bytes_ok {n : Nat} {bs taken : List UInt8} {o : Nat} {c : Cursor}
    (h : Reader.bytes n ⟨bs, o⟩ = .ok taken c) :
    taken.length = n ∧ bs = taken ++ c.rest ∧ c.offset = o + taken.length := by
  rw [Reader.bytes] at h
  cases hsplit : splitExact? n bs with
  | none =>
    rw [hsplit] at h
    cases h
  | some split =>
    obtain ⟨taken', rest⟩ := split
    rw [hsplit] at h
    cases h
    obtain ⟨rfl, hlength⟩ := splitExact?_eq_some.1 hsplit
    exact ⟨hlength, rfl, congrArg (o + ·) hlength.symm⟩

/-- A run of bytes that cannot be taken is longer than what there is. -/
theorem bytes_error {n : Nat} {bs : List UInt8} {o : Nat} {e : DecodeError} {c : Cursor}
    (h : Reader.bytes n ⟨bs, o⟩ = .error e c) : e = .truncated (o + bs.length) ∧ bs.length < n := by
  rw [Reader.bytes] at h
  split at h <;> cases h
  rename_i hsplit
  refine ⟨rfl, Nat.lt_of_not_le fun hle => ?_⟩
  have hfound := splitExact?_eq_some.2
    ⟨(List.take_append_drop n bs).symm, List.length_take_of_le hle⟩
  cases hsplit.symm.trans hfound

/-- What can be wrong with the integer that a datum is or begins with. -/
theorem nat_damage (datum : Datum) (hdatum : datum ≠ .flag) {bs : List UInt8} {o : Nat}
    {e : DecodeError} {c : Cursor} (h : Reader.nat ⟨bs, o⟩ = .error e c) : datum.Damage bs o e := by
  rcases nat_error h with ⟨rfl, hmarked⟩ | ⟨rfl, hover⟩
  · exact .truncated (.integer hdatum hmarked)
  · have hbound : datum.bound ≤ UInt64.size := by cases datum <;> decide
    exact .overflow hdatum (Nat.le_trans hbound hover)

/-- A reader that asks for the offset goes on with that of its cursor. -/
theorem offset_bind {β : Type} (f : Nat → Reader β) (c : Cursor) :
    (Reader.offset >>= f) c = f c.offset c := rfl

namespace Fills

variable {α β : Type} {data more : List Datum} {r : Reader α} {f : α → Reader β}

/-- A reader that reads nothing fills an empty row. -/
theorem pure (a : α) : Fills [] (Pure.pure a) where
  ok h := by
    cases h
    exact ⟨[], .nil, rfl, rfl⟩
  error h := nomatch h

/-- Rows that are read one after the other. -/
theorem bind (h : Fills data r) (h' : ∀ a, Fills more (f a)) : Fills (data ++ more) (r >>= f) where
  ok hr := by
    obtain ⟨a, ⟨rest, o'⟩, ha, hb⟩ := bind_eq_ok.1 hr
    obtain ⟨sound, hsound, rfl, rfl⟩ := h.ok ha
    obtain ⟨sound', hsound', rfl, hoffset⟩ := (h' a).ok hb
    refine ⟨sound ++ sound', hsound.append hsound', (List.append_assoc ..).symm, ?_⟩
    rw [hoffset, List.length_append, Nat.add_assoc]
  error hr := by
    rcases bind_eq_error.1 hr with he | ⟨a, ⟨rest, o'⟩, ha, he⟩
    · exact (h.error he).append_right more
    · obtain ⟨sound, hsound, rfl, rfl⟩ := h.ok ha
      exact ((h' a).error he).append_left hsound

/-- What is read may be changed. -/
theorem map (h : Fills data r) (g : α → β) : Fills data (do return g (← r)) := by
  rw [← List.append_nil data]
  exact h.bind fun a => pure (g a)

/-- A 32-bit word is one datum. One that is read as a 64-bit word but is too large for 32 bits is
damaged too, and reported in the same way. -/
theorem word : Fills [.word] Reader.word where
  ok {bs o w c} h := by
    rw [Reader.word, offset_bind] at h
    obtain ⟨n, c', hn, hw⟩ := bind_eq_ok.1 h
    obtain ⟨-, form, hform, rfl, hoffset⟩ := nat_ok hn
    split at hw
    · rename_i hfits
      cases hw
      exact ⟨form, .single (.word hform hfits), rfl, hoffset⟩
    · cases hw
  error {bs o e c} h := by
    rw [Reader.word, offset_bind] at h
    refine .single ?_
    rcases bind_eq_error.1 h with hn | ⟨n, c', hn, hw⟩
    · exact nat_damage .word nofun hn
    · obtain ⟨hvalue, -⟩ := nat_ok hn
      split at hw
      · cases hw
      · rename_i hover
        cases hw
        exact .overflow nofun (hvalue ▸ Nat.le_of_not_lt hover)

/-- A signed integer is one datum, and any 64-bit word stands for one. -/
theorem int : Fills [.long] Reader.int where
  ok {bs o n c} h := by
    obtain ⟨m, c', hm, hn⟩ := bind_eq_ok.1 h
    obtain ⟨-, form, hform, hbs, hoffset⟩ := nat_ok hm
    cases hn
    exact ⟨form, .single (.long hform), hbs, hoffset⟩
  error {bs o e c} h := by
    rcases bind_eq_error.1 h with hm | ⟨m, c', hm, hn⟩
    · exact .single (nat_damage .long nofun hm)
    · cases hn

/-- A truth value is one byte. -/
theorem bool_cons (b : UInt8) (rest : List UInt8) (o : Nat) : Reader.bool ⟨b :: rest, o⟩ =
    if b = 0 then .ok false ⟨rest, o + 1⟩ else if b = 1 then .ok true ⟨rest, o + 1⟩
    else .error (.invalidBool b o) ⟨rest, o + 1⟩ := by
  change (if b = 0 then _ else if b = 1 then _ else _ : Reader Bool) ⟨rest, o + 1⟩ = _
  split
  · rfl
  · split <;> rfl

/-- A truth value is one datum of one byte, which is damaged if it is missing or neither zero nor
one. -/
theorem bool : Fills [.flag] Reader.bool where
  ok {bs o b c} h := by
    cases bs with
    | nil => cases h
    | cons b' rest =>
      rw [bool_cons] at h
      split at h
      · rename_i hzero
        cases h
        rw [hzero]
        exact ⟨_, .single (.flag false), rfl, rfl⟩
      · split at h <;> cases h
        rename_i hone
        rw [hone]
        exact ⟨_, .single (.flag true), rfl, rfl⟩
  error {bs o e c} h := by
    refine .single ?_
    cases bs with
    | nil =>
      cases h
      exact .truncated .flag
    | cons b rest =>
      rw [bool_cons] at h
      split at h
      · cases h
      · split at h <;> cases h
        rename_i hzero hone
        have hzero : b.toNat ≠ 0 := fun h => hzero (UInt8.toNat_inj.1 h)
        have hone : b.toNat ≠ 1 := fun h => hone (UInt8.toNat_inj.1 h)
        exact .flag rfl (by omega)

/-- A text is one datum. It is damaged if its length is, if fewer bytes follow than that, or if they
are not UTF-8; the last is reported behind the length. -/
theorem string : Fills [.text] Reader.string where
  ok {bs o s c} h := by
    obtain ⟨n, c₁, hn, h₁⟩ := bind_eq_ok.1 h
    obtain ⟨-, form, hform, rfl, hoffset⟩ := nat_ok hn
    rw [offset_bind] at h₁
    obtain ⟨taken, c₂, htaken, h₂⟩ := bind_eq_ok.1 h₁
    obtain ⟨rfl, hrest, hoffset'⟩ := bytes_ok htaken
    cases htext : textOfBytes? taken with
    | none =>
      rw [htext] at h₂
      cases h₂
    | some s' =>
      rw [htext] at h₂
      cases h₂
      obtain rfl := textOfBytes?_eq_some.1 htext
      refine ⟨form ++ textBytes s, .single (.text hform), ?_, ?_⟩
      · rw [hrest, List.append_assoc]
      · rw [hoffset', hoffset, List.length_append, Nat.add_assoc]
  error {bs o e c} h := by
    refine .single ?_
    rcases bind_eq_error.1 h with hn | ⟨n, ⟨rest, o₁⟩, hn, h₁⟩
    · exact nat_damage .text nofun hn
    obtain ⟨-, form, hform, rfl, rfl⟩ := nat_ok hn
    rw [offset_bind] at h₁
    rcases bind_eq_error.1 h₁ with htaken | ⟨taken, c₂, htaken, h₂⟩
    · obtain ⟨rfl, hshort⟩ := bytes_error htaken
      rw [Nat.add_assoc, ← List.length_append]
      exact .truncated (.text hform hshort)
    obtain ⟨rfl, rfl, -⟩ := bytes_ok htaken
    cases htext : textOfBytes? taken with
    | some s =>
      rw [htext] at h₂
      cases h₂
    | none =>
      rw [htext] at h₂
      cases h₂
      refine .text (List.append_assoc ..).symm hform fun s hs => ?_
      rw [textOfBytes?_eq_some.2 hs.symm] at htext
      cases htext

/-- The operands of an operation fill the row that its opcode has. -/
theorem operands (opcode : Opcode) : Fills opcode.operandData (Reader.operands opcode) := by
  cases opcode with
  | pushInt => exact int.map _
  | pushString | pushSymbol | localGet | instanceGet | instanceSet | globalGet | globalSet
  | hasKeyword | takeKeyword => exact string.map _
  | createArray | createHash | setArgc => exact word.map _
  | localSet => exact string.bind fun _ => bool.map _
  | send => exact string.bind fun _ => bool.bind fun _ => bool.map _
  | _ => exact pure _

/-- A span and operands fill the row of a payload. -/
theorem located (opcode : Opcode) : Fills opcode.data (Reader.located opcode) :=
  word.bind fun _ => word.bind fun _ => (operands opcode).map _

end Fills

/-! ## Places -/

/-- Behind the instructions of some bytes that are decoded comes an opcode with its payload, between
two offsets. -/
inductive PayloadAt (bs : List UInt8) (opcode : Opcode) : (start stop : Nat) → Prop
  | intro {code : Stream} {front form payload rest : List UInt8} :
    bs = front ++ [opcode.number] ++ form ++ payload ++ rest → Stream.decode front = .ok code →
    Varint.Form payload.length form → PayloadAt bs opcode (front ++ [opcode.number] ++ form).length
      (front ++ [opcode.number] ++ form ++ payload).length

/-- The decoder comes to a datum at an offset, in a part of the bytes that ends at another: to the
length of a payload in all of the bytes, or to one of the data of a payload behind others. -/
inductive DatumAt (bs : List UInt8) : Datum → (start stop : Nat) → Prop
  | size {code : Stream} {opcode : Opcode} {front rest : List UInt8} :
    bs = front ++ [opcode.number] ++ rest → Stream.decode front = .ok code →
    DatumAt bs .long (front ++ [opcode.number]).length bs.length
  | inside {opcode : Opcode} {start stop n : Nat} {datum : Datum} {before after : List Datum} :
    PayloadAt bs opcode start stop → start + n ≤ stop → opcode.data = before ++ datum :: after →
    AllSound before (bs.extract start (start + n)) → DatumAt bs datum (start + n) stop

/-- Behind the instructions of some bytes that are decoded come an opcode and the length of its
payload, and of the payload there are fewer bytes. -/
inductive PayloadCut (bs : List UInt8) : Prop
  | intro {code : Stream} {opcode : Opcode} {front form payload : List UInt8} {n : Nat} :
    bs = front ++ [opcode.number] ++ form ++ payload → Stream.decode front = .ok code →
    Varint.Form n form → payload.length < n → PayloadCut bs

/-- An error is about what is at its place:
* bytes are missing where a datum breaks off at the end of its part, or the last payload at the end
  of all;
* behind instructions that are decoded there is a byte that is the number of no opcode;
* an integer that is or begins a datum has a value that is too large for it;
* behind the length of a text there are that many bytes that are not UTF-8;
* in the place of a truth value there is a byte that is neither 0 nor 1;
* the data of a payload end some bytes before the payload does. -/
def DecodeError.LocatedIn (bs : List UInt8) : DecodeError → Prop
  | .truncated o => (∃ datum start, DatumAt bs datum start o ∧ datum.Cut (bs.extract start o)) ∨
    o = bs.length ∧ PayloadCut bs
  | .unknownOpcode byte o => bs[o]? = some byte ∧ (∀ opcode : Opcode, opcode.number ≠ byte) ∧
    ∃ code, Stream.decode (bs.take o) = .ok code
  | .overflow o => ∃ datum stop, DatumAt bs datum o stop ∧ datum ≠ .flag ∧ datum.bound ≤
    Varint.value ((bs.extract o stop).take (Varint.extent (bs.extract o stop)))
  | .invalidUtf8 o => ∃ start stop n, DatumAt bs .text start stop ∧
    Varint.Form n (bs.extract start o) ∧ o + n ≤ stop ∧ ∀ s, textBytes s ≠ bs.extract o (o + n)
  | .invalidBool byte o => bs[o]? = some byte ∧ 2 ≤ byte.toNat ∧ ∃ stop, DatumAt bs .flag o stop
  | .trailingOperands opcode extra o => 1 ≤ extra ∧ ∃ start ≤ o,
    PayloadAt bs opcode start (o + extra) ∧ AllSound opcode.data (bs.extract start o)

/-- The offset of an error. -/
def DecodeError.offset : DecodeError → Nat
  | .truncated o | .unknownOpcode _ o | .overflow o | .invalidUtf8 o | .invalidBool _ o
  | .trailingOperands _ _ o => o

/-- The part of some bytes between two others is cut out at their offsets. -/
theorem extract_append (front part rest : List UInt8) :
    (front ++ part ++ rest).extract front.length (front ++ part).length = part := by
  simp [List.extract]

variable {bs : List UInt8} {e : DecodeError}

/-- A payload lies within the bytes, its start before its end. -/
theorem PayloadAt.le {opcode : Opcode} {start stop : Nat} (h : PayloadAt bs opcode start stop) :
    start ≤ stop ∧ stop ≤ bs.length := by
  obtain ⟨rfl, -, -⟩ := h
  simp only [List.length_append]
  omega

/-- A datum lies within the bytes, its start before the end of its part of the encoding. -/
theorem DatumAt.le {datum : Datum} {start stop : Nat} (h : DatumAt bs datum start stop) :
    start ≤ stop ∧ stop ≤ bs.length := by
  cases h with
  | size hbs _ =>
    simp only [hbs, List.length_append]
    omega
  | inside hpayload hn _ _ => exact ⟨hn, hpayload.le.2⟩

/-- What is wrong with a datum is at its place. -/
theorem Datum.Damage.locatedIn {datum : Datum} {front part rest : List UInt8}
    (h : datum.Damage part front.length e) (hbs : bs = front ++ part ++ rest)
    (hat : DatumAt bs datum front.length (front ++ part).length) : e.LocatedIn bs := by
  have hpart : bs.extract front.length (front ++ part).length = part := by
    rw [hbs, extract_append]
  cases h with
  | truncated hcut =>
    rw [← List.length_append]
    exact .inl ⟨datum, front.length, hat, by rwa [hpart]⟩
  | overflow hdatum hover => exact ⟨datum, _, hat, hdatum, by rwa [hpart]⟩
  | flag hb hlarge => exact ⟨by simp [hbs, hb], hlarge, _, hat⟩
  | @text form run more hrun hform hnone =>
    subst hbs hrun
    have hfront : front ++ (form ++ run ++ more) ++ rest =
        front ++ form ++ (run ++ (more ++ rest)) := by simp
    have hrun := extract_append (front ++ form) run (more ++ rest)
    rw [List.append_assoc (front ++ form), ← hfront] at hrun
    have hlength : (front ++ form ++ run).length = front.length + form.length + run.length := by
      simp only [List.length_append]
    refine ⟨front.length, _, run.length, hat, ?_, ?_, ?_⟩
    · rw [hfront, ← List.length_append, extract_append]
      exact hform
    · simp only [List.length_append]
      omega
    · rw [← hlength, ← List.length_append, hrun]
      exact hnone

/-- An error has its offset in the bytes that it is about. -/
theorem DecodeError.LocatedIn.offset_le (h : e.LocatedIn bs) : e.offset ≤ bs.length := by
  have hindex : ∀ {o : Nat} {b : UInt8}, bs[o]? = some b → o ≤ bs.length := fun hb =>
    Nat.le_of_lt (List.getElem?_eq_some_iff.1 hb).1
  cases e with
  | truncated o =>
    rcases h with ⟨_, _, hat, -⟩ | ⟨rfl, -⟩
    · exact hat.le.2
    · exact Nat.le_refl _
  | unknownOpcode | invalidBool => exact hindex h.1
  | overflow o =>
    obtain ⟨_, _, hat, -⟩ := h
    exact Nat.le_trans hat.le.1 hat.le.2
  | invalidUtf8 o =>
    obtain ⟨_, _, _, hat, -, hstop, -⟩ := h
    exact Nat.le_trans (Nat.le_of_add_right_le hstop) hat.le.2
  | trailingOperands opcode extra o =>
    obtain ⟨-, _, -, hpayload, -⟩ := h
    exact Nat.le_of_add_right_le hpayload.le.2

/-! ## Instructions and streams -/

/-- A reader that takes a byte goes on behind it. -/
theorem byte_bind {β : Type} (f : UInt8 → Reader β) (b : UInt8) (rest : List UInt8) (o : Nat) :
    (Reader.byte >>= f) ⟨b :: rest, o⟩ = f b ⟨rest, o + 1⟩ := rfl

/-- What is wrong with a payload is at its place in the bytes in which the payload is. -/
theorem payload_located {opcode : Opcode} {front payload rest : List UInt8} {c : Cursor}
    (hbs : bs = front ++ payload ++ rest)
    (hat : PayloadAt bs opcode front.length (front ++ payload).length)
    (h : Reader.payload opcode ⟨payload, front.length⟩ = .error e c) : e.LocatedIn bs := by
  rw [payload_eq] at h
  rcases bind_eq_error.1 h with hrow | ⟨i, ⟨left, o⟩, hrow, hend⟩
  · -- one of the data is damaged
    obtain ⟨before, datum, after, sound, left, hdata, rfl, hsound, hdamage⟩ :=
      (Fills.located opcode).error hrow
    have hsplit : bs = front ++ sound ++ (left ++ rest) := by rw [hbs]; simp
    have hextract : bs.extract front.length (front.length + sound.length) = sound := by
      rw [hsplit, ← List.length_append, extract_append]
    have hdatum : DatumAt bs datum (front.length + sound.length)
        (front ++ (sound ++ left)).length := by
      refine .inside hat ?_ hdata (by rwa [hextract])
      simp only [List.length_append]
      omega
    rw [← List.length_append] at hdamage hdatum
    rw [← List.append_assoc] at hdatum
    exact hdamage.locatedIn (hsplit.trans (List.append_assoc ..).symm) hdatum
  · -- the data are sound, and there are bytes behind them
    obtain ⟨sound, hsound, rfl, rfl⟩ := (Fills.located opcode).ok hrow
    cases left with
    | nil => cases hend
    | cons b left =>
      cases hend
      have hsplit : bs = front ++ sound ++ (b :: left ++ rest) := by rw [hbs]; simp
      refine ⟨Nat.succ_pos _, front.length, Nat.le_add_right _ _, ?_, ?_⟩
      · rw [List.length_append, List.length_append, ← Nat.add_assoc] at hat
        exact hat
      · rw [hsplit, ← List.length_append, extract_append]
        exact hsound

/-- What is wrong with an instruction behind others is at its place. -/
theorem instruction_located {code : Stream} {front rest : List UInt8} {c : Cursor}
    (hbs : bs = front ++ rest) (hfront : Stream.decode front = .ok code) (hrest : rest ≠ [])
    (h : Reader.instruction ⟨rest, front.length⟩ = .error e c) : e.LocatedIn bs := by
  -- the number is read first, then the length of the payload, and then the payload
  cases rest with
  | nil => exact absurd rfl hrest
  | cons number rest =>
    rw [Reader.instruction, offset_bind, byte_bind] at h
    cases hopcode : Opcode.ofNumber? number with
    | none =>
      rw [hopcode] at h
      cases h
      refine ⟨by simp [hbs], fun opcode hnumber => ?_, code, by simpa [hbs] using hfront⟩
      rw [← hnumber, ofNumber?_number] at hopcode
      cases hopcode
    | some opcode =>
      obtain rfl := ofNumber?_eq_some.1 hopcode
      rw [hopcode] at h
      have hsize : bs = front ++ [opcode.number] ++ rest := by rw [hbs]; simp
      rw [show front.length + 1 = (front ++ [opcode.number]).length by simp] at h
      rcases bind_eq_error.1 h with hn | ⟨n, ⟨rest₁, o₁⟩, hn, h₁⟩
      · have hend : bs = front ++ [opcode.number] ++ rest ++ [] := by rw [hsize, List.append_nil]
        refine (nat_damage .long nofun hn).locatedIn hend ?_
        rw [← hsize]
        exact .size hsize hfront
      obtain ⟨-, form, hform, rfl, rfl⟩ := nat_ok hn
      rw [offset_bind] at h₁
      rcases bind_eq_error.1 h₁ with hcut | ⟨payload, ⟨rest₂, o₂⟩, hcut, h₂⟩
      · obtain ⟨rfl, hshort⟩ := bytes_error hcut
        have hpart : bs = front ++ [opcode.number] ++ form ++ rest₁ := by rw [hsize]; simp
        rw [← List.length_append, ← List.length_append]
        exact .inr ⟨congrArg List.length hpart.symm, .intro hpart hfront hform hshort⟩
      obtain ⟨rfl, rfl, rfl⟩ := bytes_ok hcut
      have hpayload : bs = front ++ [opcode.number] ++ form ++ payload ++ rest₂ := by
        rw [hsize]; simp
      have hat := PayloadAt.intro hpayload hfront hform
      rw [← List.length_append] at h₂
      cases hread : Reader.payload opcode ⟨payload, (front ++ [opcode.number] ++ form).length⟩ with
      | ok i c' =>
        simp only [hread] at h₂
        cases h₂
      | error e' c' =>
        simp only [hread] at h₂
        cases h₂
        exact payload_located hpayload hat hread

/-- Reading instructions fails at an instruction behind others that are read. -/
theorem untilEnd_error {fuel o : Nat} {bs : List UInt8} {c : Cursor}
    (h : Reader.untilEnd Reader.instruction fuel ⟨bs, o⟩ = .error e c) :
    ∃ code front rest c', bs = front ++ rest ∧ Stream.decode front = .ok code ∧ rest ≠ [] ∧
      Reader.instruction ⟨rest, o + front.length⟩ = .error e c' := by
  induction fuel generalizing bs o with
  | zero => cases h
  | succ fuel ih =>
    cases bs with
    | nil => cases h
    | cons b bs =>
      rw [Reader.untilEnd_cons] at h
      rcases bind_eq_error.1 h with hfirst | ⟨i, ⟨left, o₁⟩, hfirst, hmore⟩
      · exact ⟨[], [], b :: bs, c, rfl, rfl, List.cons_ne_nil _ _, hfirst⟩
      obtain ⟨items, hitems, hsplit⟩ := Accepts.instruction.sound hfirst
      have hreads := (Accepts.instruction.complete hitems).total trivial
      rw [hsplit, hreads] at hfirst
      cases hfirst
      rcases bind_eq_error.1 hmore with hmore | ⟨_, _, _, hpure⟩
      · obtain ⟨code, front, rest, c', hrest, hfront, hne, he⟩ := ih hmore
        refine ⟨i :: code, items.flatMap Item.bytes ++ front, rest, c', ?_, ?_, hne, ?_⟩
        · rw [hsplit, hrest, List.append_assoc]
        · exact decode_iff.2 (.cons (hreads front 0) (decode_iff.1 hfront))
        · rwa [List.length_append, ← Nat.add_assoc]
      · cases hpure

/-- **Damage.** An error of the decoder has its offset in the bytes, and is about what is there. -/
theorem decode_error_located {bs : List UInt8} {e : DecodeError} (h : Stream.decode bs = .error e) :
    e.offset ≤ bs.length ∧ e.LocatedIn bs := by
  have herror : ∃ c, Reader.untilEnd Reader.instruction bs.length ⟨bs, 0⟩ = .error e c := by
    rw [Stream.decode] at h
    cases hread : Reader.untilEnd Reader.instruction bs.length ⟨bs, 0⟩ with
    | ok code c =>
      rw [hread] at h
      cases h
    | error e' c =>
      rw [hread] at h
      cases h
      exact ⟨c, rfl⟩
  obtain ⟨c, hread⟩ := herror
  obtain ⟨code, front, rest, c', hbs, hfront, hrest, he⟩ := untilEnd_error hread
  rw [Nat.zero_add] at he
  have hlocated := instruction_located hbs hfront hrest he
  exact ⟨hlocated.offset_le, hlocated⟩

/-- A truth value that is none, in the second of two instructions. -/
theorem decode_seven_located :
    Stream.decode [1, 2, 0, 0, 11, 5, 0, 0, 1, 97, 7] = .error (.invalidBool 7 10) ∧ 10 ≤ 11 ∧
      (DecodeError.invalidBool 7 10).LocatedIn [1, 2, 0, 0, 11, 5, 0, 0, 1, 97, 7] := by
  have hdecode : Stream.decode [1, 2, 0, 0, 11, 5, 0, 0, 1, 97, 7] =
      .error (.invalidBool 7 10) := rfl
  exact ⟨hdecode, decode_error_located hdecode⟩

end Formals
