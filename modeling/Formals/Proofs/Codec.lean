import Formals.Proofs.Encoding

/-!
# Codes that are written are read back

`Reads.instruction` says that the bytes of an instruction are read as that instruction, whatever
follows them. A stream is read by instructions: `Decodes` describes this without offsets and without
fuel, and `decode_iff` says that it is what `Stream.decode` does.
-/

namespace Formals

/-! ## Instructions -/

/-- The texts among the operands of an operation. -/
def Op.texts : Op → List String
  | .pushString text | .pushSymbol text | .localGet text | .localSet text _ | .instanceGet text
  | .instanceSet text | .globalGet text | .globalSet text | .hasKeyword text | .takeKeyword text
  | .send text _ _ => [text]
  | .pushNil | .pushTrue | .pushFalse | .pushInt _ | .pushSelf | .createArray _ | .createHash _
  | .dup | .pop | .arrayShift | .arrayPop | .arrayIsEmpty | .toArray | .stageKeywords
  | .checkKeywords | .setArgc _ | .ifTrue | .orElse | .endIf => []

/-- The texts of an instruction have at most as many bytes as a signed 64-bit word counts, as every
text in memory has. -/
def Instruction.InMemory (i : Instruction) : Prop :=
  ∀ text ∈ i.op.texts, (textBytes text).length < UInt64.size / 2

/-- The lengths in the encoding of an instruction are 64-bit words. -/
def Instruction.Fits (i : Instruction) : Prop :=
  (∀ text ∈ i.op.texts, (textBytes text).length < UInt64.size) ∧ i.payload.length < UInt64.size

/-- The operands of an operation have at most one text, two flags or a number beside it. The length
of a text in memory leaves room for these in a 64-bit word. -/
theorem Op.length_encodeOperands_le {op : Op} (h : ∀ text ∈ op.texts,
    (textBytes text).length < UInt64.size / 2) :
    op.encodeOperands.length ≤ UInt64.size / 2 + 12 := by
  have hsize : UInt64.size / 2 < 128 ^ (9 + 1) := by decide
  have htext : ∀ text : String, (textBytes text).length < UInt64.size / 2 →
      (encodeString text).length ≤ UInt64.size / 2 + 10 := fun text ht => by
    have := Varint.length_write_le (Nat.lt_trans ht hsize)
    rw [encodeString, List.length_append]
    omega
  have hword : ∀ count : UInt32, (Varint.write count.toNat).length ≤ 5 := fun count =>
    Varint.length_write_le (Nat.lt_trans count.toNat_lt (by decide))
  cases op with
  | pushInt value =>
    have := Varint.length_write_le (Nat.lt_trans (Varint.zigzag_lt value)
      (by decide : UInt64.size < 128 ^ (9 + 1)))
    rw [encodeOperands]
    omega
  | pushString text | pushSymbol text | localGet text | instanceGet text | instanceSet text
  | globalGet text | globalSet text | hasKeyword text | takeKeyword text =>
    have := htext text (h text List.mem_cons_self)
    rw [encodeOperands]
    omega
  | localSet text localOnly =>
    have := htext text (h text List.mem_cons_self)
    rw [encodeOperands, List.length_append, encodeBool, List.length_singleton]
    omega
  | send text toSelf isWriter =>
    have := htext text (h text List.mem_cons_self)
    simp only [encodeOperands, List.length_append, encodeBool, List.length_singleton]
    omega
  | createArray count | createHash count | setArgc count =>
    have := hword count
    rw [encodeOperands]
    omega
  | _ => exact Nat.zero_le _

/-- The lengths in the encoding of an instruction in memory are 64-bit words. -/
theorem Instruction.InMemory.fits {i : Instruction} (h : i.InMemory) : i.Fits := by
  have hhalf : UInt64.size / 2 + 22 < UInt64.size := by decide
  have hoperands := Op.length_encodeOperands_le h
  have hword : ∀ w : UInt32, (Varint.write w.toNat).length ≤ 5 := fun w =>
    Varint.length_write_le (Nat.lt_trans w.toNat_lt (by decide))
  have hstart := hword i.span.start
  have hlength := hword i.span.length
  refine ⟨fun text ht => Nat.lt_trans (h text ht) (by decide), ?_⟩
  rw [payload, List.length_append, List.length_append]
  omega

/-- An opcode is found under its number. -/
theorem ofNumber?_number (opcode : Opcode) : Opcode.ofNumber? opcode.number = some opcode := by
  cases opcode <;> rfl

/-- A number is that of at most one opcode. -/
theorem ofNumber?_eq_some {number : UInt8} {opcode : Opcode} :
    Opcode.ofNumber? number = some opcode ↔ number = opcode.number := by
  constructor
  · intro h
    have hnumber := List.find?_some h
    exact (beq_iff_eq.1 hnumber).symm
  · rintro rfl
    exact ofNumber?_number opcode

namespace Reads

/-- The operands of an operation. -/
theorem operands (op : Op) : Reads (Reader.operands op.opcode) op.encodeOperands op
    (∀ text ∈ op.texts, (textBytes text).length < UInt64.size) := by
  have htext : ∀ (text : String) (f : String → Op),
      Reads (do return f (← Reader.string)) (encodeString text) (f text)
        (∀ t ∈ [text], (textBytes t).length < UInt64.size) := fun text f =>
    ((string text).map f).mono fun h => h text List.mem_cons_self
  cases op with
  | pushString text | pushSymbol text | localGet text | instanceGet text | instanceSet text
  | globalGet text | globalSet text | hasKeyword text | takeKeyword text => exact htext text _
  | localSet text localOnly =>
    have hreads : Reads (Reader.operands .localSet) _ _ _ :=
      (string text).bind ((bool localOnly).map _)
    exact hreads.mono fun h => ⟨h text List.mem_cons_self, trivial⟩
  | send text toSelf isWriter =>
    have hreads : Reads (Reader.operands .send) _ _ _ :=
      (string text).bind ((bool toSelf).bind ((bool isWriter).map _))
    rw [Op.encodeOperands, List.append_assoc]
    exact hreads.mono fun h => ⟨h text List.mem_cons_self, trivial, trivial⟩
  | pushInt value => exact ((int value).map _).mono fun _ => trivial
  | createArray count | createHash count | setArgc count =>
    exact ((word count).map _).mono fun _ => trivial
  | _ => exact (pure _).mono fun _ => trivial

end Reads

/-- The span and the operands of an instruction. -/
def Reader.located (opcode : Opcode) : Reader Instruction := do
  let start ← word
  let length ← word
  return ⟨← operands opcode, ⟨start, length⟩⟩

/-- The span and the operands of an instruction are read back from its payload. -/
theorem Reads.located (i : Instruction) : Reads (Reader.located i.op.opcode) i.payload i
    (∀ text ∈ i.op.texts, (textBytes text).length < UInt64.size) := by
  have hreads : Reads (Reader.located i.op.opcode) _ i _ :=
    (word i.span.start).bind ((word i.span.length).bind
      ((operands i.op).map (Instruction.mk · i.span)))
  rw [Instruction.payload, List.append_assoc]
  exact hreads.mono fun h => ⟨trivial, trivial, h⟩

/-- A payload is read as an instruction that has to take all of its bytes. -/
theorem payload_eq (opcode : Opcode) : Reader.payload opcode = (do
    let i ← Reader.located opcode
    let after ← get
    if after.rest.isEmpty then return i
    else throw (.trailingOperands opcode after.rest.length after.offset)) := by
  simp only [Reader.payload, Reader.located, bind_assoc, pure_bind]

/-- A payload is read as its instruction. -/
theorem payload_ok (i : Instruction) (o : Nat) :
    (i.Fits → ∃ c, Reader.payload i.op.opcode ⟨i.payload, o⟩ = .ok i c) ∧
      ∀ i' c, Reader.payload i.op.opcode ⟨i.payload, o⟩ = .ok i' c → i' = i := by
  have hreads := Reads.located i
  rw [payload_eq, ← List.append_nil i.payload]
  constructor
  · intro h
    rw [bind_apply, hreads.total h.1]
    exact ⟨_, rfl⟩
  · intro i' c h
    obtain ⟨i₁, c₁, hi, h⟩ := bind_eq_ok.1 h
    obtain ⟨rfl, rfl⟩ := hreads.sound hi
    cases h
    rfl

/-- **Instructions.** The bytes of an instruction are read as that instruction. -/
theorem Reads.instruction (i : Instruction) : Reads Reader.instruction i.encode i i.Fits := by
  refine offset fun start => ((byte _).bind ?_).mono fun h => ⟨trivial, h⟩
  rw [ofNumber?_number]
  refine ((nat _).bind (offset fun inside => (bytes i.payload).andThen ?_)).mono
    fun h => ⟨h.2, trivial, h⟩
  obtain ⟨htotal, hsound⟩ := payload_ok i inside
  constructor
  · intro h t o
    obtain ⟨c, hc⟩ := htotal h
    rw [hc]
    rfl
  · intro t o b c h
    cases hp : Reader.payload i.op.opcode ⟨i.payload, inside⟩ with
    | ok i' c' =>
      rw [hp] at h
      cases h
      exact ⟨hsound _ _ hp, rfl⟩
    | error e c' =>
      rw [hp] at h
      cases h

/-- Streams. -/
theorem Reads.stream (code : Stream) : Reads (Reader.times Reader.instruction code.length)
    code.encode code (∀ i ∈ code, i.Fits) :=
  times Reads.instruction code

/-! ## Reading elsewhere -/

/-- What one reader gives, another one gives of the same bytes wherever they stand, and that takes
at least `n` bytes. -/
def Reader.Follows {α : Type} (n : Nat) (r r' : Reader α) : Prop :=
  ∀ ⦃bs o a c⦄, r ⟨bs, o⟩ = .ok a c →
    c.rest.length + n ≤ bs.length ∧ ∀ o', ∃ o'', r' ⟨bs, o'⟩ = .ok a ⟨c.rest, o''⟩

/-- Reading an integer leaves at most the bytes that there were. -/
theorem Varint.length_of_readFrom {acc n : Nat} {bs rest : List UInt8}
    (h : readFrom acc bs = .ok (n, rest)) : rest.length ≤ bs.length := by
  induction bs generalizing acc with
  | nil => cases h
  | cons b bs ih =>
    rw [readFrom] at h
    split at h
    · cases h
    · split at h
      · cases h
        exact Nat.le_succ _
      · exact Nat.le_trans (ih h) (Nat.le_succ _)

namespace Reader.Follows

variable {α β : Type} {n : Nat} {r r' : Reader α} {f f' : α → Reader β}

/-- That a reader takes some bytes may be forgotten. -/
theorem weaken (h : Follows n r r') : Follows 0 r r' := fun _ _ _ _ hr =>
  ⟨Nat.le_trans (Nat.add_le_add_left (Nat.zero_le n) _) (h hr).1, (h hr).2⟩

/-- A reader that reads nothing gives the same everywhere. -/
theorem pure (a : α) : Follows 0 (Pure.pure a) (Pure.pure a) := by
  rintro bs o b c ⟨⟩
  exact ⟨Nat.le_refl _, fun o' => ⟨o', rfl⟩⟩

/-- A reader that fails gives nothing that another one would have to give. -/
theorem throw {e : DecodeError} : Follows n (MonadExcept.throw e) r := by
  rintro bs o b c ⟨⟩

/-- Of two readers in a row, the second one starts where the first one stops, wherever that is. The
bytes that the first one takes are counted. -/
theorem bind (h : Follows n r r') (h' : ∀ a, Follows 0 (f a) (f' a)) :
    Follows n (r >>= f) (r' >>= f') := by
  intro bs o b c hr
  obtain ⟨a, c₁, ha, hb⟩ := bind_eq_ok.1 hr
  obtain ⟨hle, hr'⟩ := h ha
  obtain ⟨hle', hf'⟩ := h' a hb
  refine ⟨by omega, fun o' => ?_⟩
  obtain ⟨o₁, ho₁⟩ := hr' o'
  obtain ⟨o₂, ho₂⟩ := hf' o₁
  exact ⟨o₂, bind_eq_ok.2 ⟨a, _, ho₁, ho₂⟩⟩

/-- What is read may be changed. -/
theorem map (h : Follows n r r') (g : α → β) :
    Follows n (do return g (← r)) (do return g (← r')) :=
  h.bind fun a => pure (g a)

/-- The offset is used in errors only. -/
theorem offset {f f' : Nat → Reader β} (h : ∀ o o', Follows n (f o) (f' o')) :
    Follows n (Reader.offset >>= f) (Reader.offset >>= f') := by
  intro bs o b c hr
  obtain ⟨hle, hf⟩ := h o o hr
  refine ⟨hle, fun o' => ?_⟩
  obtain ⟨-, hf'⟩ := h o o' hr
  exact hf' o'

/-- A byte is read from the byte alone, and takes one. -/
theorem byte : Follows 1 Reader.byte Reader.byte := by
  intro bs o b c hr
  cases bs with
  | nil => cases hr
  | cons b' bs =>
    cases hr
    exact ⟨Nat.le_refl _, fun o' => ⟨_, rfl⟩⟩

/-- A run of bytes is read from these bytes alone; it may be empty, so that none are counted. -/
theorem bytes (n : Nat) : Follows 0 (Reader.bytes n) (Reader.bytes n) := by
  intro bs o b c hr
  simp only [Reader.bytes] at hr ⊢
  cases hs : splitExact? n bs with
  | none =>
    rw [hs] at hr
    cases hr
  | some split =>
    obtain ⟨taken, rest⟩ := split
    rw [hs] at hr
    cases hr
    obtain ⟨rfl, -⟩ := splitExact?_eq_some.1 hs
    exact ⟨by simp [Cursor.advance], fun o' => ⟨_, rfl⟩⟩

/-- An integer is read from its bytes alone: its offset is in errors only. -/
theorem nat : Follows 0 Reader.nat Reader.nat := by
  intro bs o b c hr
  simp only [Reader.nat] at hr ⊢
  cases hs : Varint.read bs with
  | error e =>
    rw [hs] at hr
    cases e <;> cases hr
  | ok found =>
    obtain ⟨n, rest⟩ := found
    rw [hs] at hr
    cases hr
    exact ⟨Varint.length_of_readFrom hs, fun o' => ⟨_, rfl⟩⟩

/-- A 32-bit word is read from its bytes alone. -/
theorem word : Follows 0 Reader.word Reader.word :=
  offset fun o o' => nat.bind fun n => by
    split
    · exact pure _
    · exact throw

/-- A signed integer is read from its bytes alone. -/
theorem int : Follows 0 Reader.int Reader.int := nat.map _

/-- A flag is read from its byte alone. -/
theorem bool : Follows 0 Reader.bool Reader.bool :=
  offset fun o o' => byte.weaken.bind fun b => by
    split
    · exact pure _
    · split
      · exact pure _
      · exact throw

/-- A text is read from its bytes alone. -/
theorem string : Follows 0 Reader.string Reader.string :=
  nat.bind fun n => offset fun o o' => (bytes n).bind fun taken => by
    split
    · exact pure _
    · exact throw

/-- Operands are read from their bytes alone, by readers of integers, flags and texts. -/
theorem operands (opcode : Opcode) :
    Follows 0 (Reader.operands opcode) (Reader.operands opcode) := by
  cases opcode with
  | pushInt => exact int.map _
  | pushString | pushSymbol | localGet | instanceGet | instanceSet | globalGet | globalSet
  | hasKeyword | takeKeyword => exact string.map _
  | localSet => exact string.bind fun name => bool.map _
  | send => exact string.bind fun message => bool.bind fun toSelf => bool.map _
  | createArray | createHash | setArgc => exact word.map _
  | _ => exact pure _

/-- A payload is read from its bytes alone, the offset of those left over being in errors only. -/
theorem payload (opcode : Opcode) :
    Follows 0 (Reader.payload opcode) (Reader.payload opcode) := by
  refine word.bind fun start => word.bind fun length => (operands opcode).bind fun op => ?_
  intro bs o i c hr
  cases bs with
  | nil =>
    cases hr
    exact ⟨Nat.le_refl _, fun o' => ⟨o', rfl⟩⟩
  | cons b bs => cases hr

/-- An instruction takes at least one byte. -/
theorem instruction : Follows 1 Reader.instruction Reader.instruction := by
  refine offset fun o o' => byte.bind fun number => ?_
  cases Opcode.ofNumber? number with
  | none => exact throw
  | some opcode =>
    refine nat.bind fun n => offset fun inside inside' => (bytes n).bind fun taken => ?_
    intro bs o i c hr
    cases hp : Reader.payload opcode ⟨taken, inside⟩ with
    | error e c' =>
      rw [hp] at hr
      cases hr
    | ok i' c' =>
      rw [hp] at hr
      cases hr
      obtain ⟨-, helsewhere⟩ := payload opcode hp
      obtain ⟨o'', ho''⟩ := helsewhere inside'
      refine ⟨Nat.le_refl _, fun o' => ⟨o', ?_⟩⟩
      rw [ho'']
      rfl

end Reader.Follows

/-! ## Streams -/

/-- Some bytes are read as a stream, one instruction after the other. -/
inductive Decodes : List UInt8 → Stream → Prop
  | nil : Decodes [] []
  | cons {bs : List UInt8} {i : Instruction} {code : Stream} {o : Nat} {c : Cursor} :
    Reader.instruction ⟨bs, o⟩ = .ok i c → Decodes c.rest code → Decodes bs (i :: code)

/-- While there are bytes and fuel, an item is read and then the others. -/
theorem Reader.untilEnd_cons {α : Type} (item : Reader α) (fuel : Nat) (b : UInt8)
    (bs : List UInt8) (o : Nat) : untilEnd item (fuel + 1) ⟨b :: bs, o⟩ =
      (do let first ← item; return first :: (← untilEnd item fuel)) ⟨b :: bs, o⟩ := rfl

/-- What is read until the end is a stream of the instructions in the bytes. Fuel for each byte is
enough, since an instruction takes at least one. -/
theorem decodes_of_untilEnd {fuel : Nat} {bs : List UInt8} {o : Nat} {code : Stream} {c : Cursor}
    (hfuel : bs.length ≤ fuel) (h : Reader.untilEnd Reader.instruction fuel ⟨bs, o⟩ = .ok code c) :
    Decodes bs code := by
  induction fuel generalizing bs o code c with
  | zero =>
    obtain rfl := List.length_eq_zero_iff.1 (Nat.le_zero.1 hfuel)
    cases h
    exact .nil
  | succ fuel ih =>
    cases bs with
    | nil =>
      cases h
      exact .nil
    | cons b bs =>
      rw [Reader.untilEnd_cons] at h
      obtain ⟨i, c₁, hfirst, hrest⟩ := bind_eq_ok.1 h
      obtain ⟨others, c₂, hothers, hpure⟩ := bind_eq_ok.1 hrest
      cases hpure
      have hless := (Reader.Follows.instruction hfirst).1
      exact .cons hfirst (ih (by omega) hothers)

/-- A stream of the instructions in some bytes is read until the end, at whatever offset they stand
and with whatever fuel is enough. -/
theorem Decodes.untilEnd {bs : List UInt8} {code : Stream} (h : Decodes bs code) : ∀ {fuel : Nat},
    bs.length ≤ fuel → ∀ o, ∃ c, Reader.untilEnd Reader.instruction fuel ⟨bs, o⟩ = .ok code c := by
  induction h with
  | nil =>
    intro fuel _ o
    cases fuel <;> exact ⟨_, rfl⟩
  | @cons bs i code o₁ c₁ hfirst _ ih =>
    intro fuel hfuel o
    obtain ⟨hless, helsewhere⟩ := Reader.Follows.instruction hfirst
    obtain ⟨o₂, hfirst⟩ := helsewhere o
    cases fuel with
    | zero => omega
    | succ fuel =>
      cases bs with
      | nil => cases hfirst
      | cons b bs =>
        obtain ⟨c, hothers⟩ := ih (show c₁.rest.length ≤ fuel by omega) o₂
        rw [Reader.untilEnd_cons]
        exact ⟨c, bind_eq_ok.2 ⟨i, _, hfirst, bind_eq_ok.2 ⟨code, c, hothers, rfl⟩⟩⟩

/-- Decoding reads instructions until the bytes are used up. -/
theorem decode_iff {bs : List UInt8} {code : Stream} :
    Stream.decode bs = .ok code ↔ Decodes bs code := by
  have hdecode : Stream.decode bs = .ok code ↔
      ∃ c, Reader.untilEnd Reader.instruction bs.length ⟨bs, 0⟩ = .ok code c := by
    rw [Stream.decode]
    cases Reader.untilEnd Reader.instruction bs.length ⟨bs, 0⟩ <;> simp
  rw [hdecode]
  exact ⟨fun ⟨_, h⟩ => decodes_of_untilEnd (Nat.le_refl _) h,
    fun h => h.untilEnd (Nat.le_refl _) 0⟩

/-- A stream is read in front of what other bytes are read as. -/
theorem Decodes.encode_append {code others : Stream} {bs : List UInt8}
    (hcode : ∀ i ∈ code, i.Fits) (h : Decodes bs others) :
    Decodes (code.encode ++ bs) (code ++ others) := by
  induction code with
  | nil => exact h
  | cons i code ih =>
    have hi := (Reads.instruction i).total (hcode i List.mem_cons_self) (Stream.encode code ++ bs) 0
    have hothers := ih fun j hj => hcode j (List.mem_cons_of_mem _ hj)
    rw [show Stream.encode (i :: code) ++ bs = i.encode ++ (Stream.encode code ++ bs) from
      List.append_assoc ..]
    exact .cons hi hothers

/-- **The codec.** The bytes of an instruction are read as that instruction, and reading stops where
they end. So every stream is decoded to itself, different streams have different encodings, and
bytes behind a stream are decoded as they are alone. -/
theorem codec_lossless :
    (∀ (i : Instruction) (t : List UInt8) (o : Nat), i.InMemory →
      Reader.instruction ⟨i.encode ++ t, o⟩ = .ok i ⟨t, o + i.encode.length⟩) ∧
    (∀ code : Stream, (∀ i ∈ code, i.InMemory) → Stream.decode code.encode = .ok code) ∧
    (∀ code code' : Stream, (∀ i ∈ code, i.InMemory) → (∀ i ∈ code', i.InMemory) →
      code.encode = code'.encode → code = code') ∧
    (∀ (code others : Stream) (bs : List UInt8), (∀ i ∈ code, i.InMemory) →
      Stream.decode bs = .ok others →
      Stream.decode (code.encode ++ bs) = .ok (code ++ others)) := by
  have happend : ∀ (code others : Stream) (bs : List UInt8), (∀ i ∈ code, i.InMemory) →
      Stream.decode bs = .ok others → Stream.decode (code.encode ++ bs) = .ok (code ++ others) :=
    fun code others bs hcode h =>
      decode_iff.2 ((decode_iff.1 h).encode_append fun i hi => (hcode i hi).fits)
  have hdecode : ∀ code : Stream, (∀ i ∈ code, i.InMemory) →
      Stream.decode code.encode = .ok code := fun code hcode => by
    have := happend code [] [] hcode rfl
    rwa [List.append_nil, List.append_nil] at this
  refine ⟨fun i t o hi => (Reads.instruction i).total hi.fits t o, hdecode, ?_, happend⟩
  intro code code' hcode hcode' h
  have hsame := hdecode code hcode
  rw [h, hdecode code' hcode'] at hsame
  exact (Except.ok.inj hsame).symm

/-- A call and what follows it are decoded one after the other. -/
theorem codec_lossless_call :
    Reader.instruction ⟨Instruction.encode ⟨.send "puts" true false, ⟨1, 300⟩⟩ ++ [1], 5⟩ =
        .ok ⟨.send "puts" true false, ⟨1, 300⟩⟩ ⟨[1], 17⟩ ∧
      Stream.encode [⟨.send "puts" true false, ⟨1, 300⟩⟩] ≠ Stream.encode [⟨.pushInt (-3), {}⟩] ∧
      Stream.decode (Stream.encode [⟨.send "puts" true false, ⟨1, 300⟩⟩] ++
          Stream.encode [⟨.pushInt (-3), {}⟩]) =
        .ok [⟨.send "puts" true false, ⟨1, 300⟩⟩, ⟨.pushInt (-3), {}⟩] := by
  have hcall : Instruction.InMemory ⟨.send "puts" true false, ⟨1, 300⟩⟩ := fun text h => by
    obtain rfl := List.mem_singleton.1 h
    decide
  have hpush : Instruction.InMemory ⟨.pushInt (-3), {}⟩ := fun _ h => nomatch h
  have hlength : (Instruction.encode ⟨.send "puts" true false, ⟨1, 300⟩⟩).length = 12 := by
    decide +kernel
  obtain ⟨hinstruction, hdecode, hinjective, happend⟩ := codec_lossless
  have hread := hinstruction _ [1] 5 hcall
  rw [hlength] at hread
  refine ⟨hread, fun h => ?_, happend _ _ _ (by simpa using hcall)
    (hdecode _ (by simpa using hpush))⟩
  cases hinjective _ _ (by simpa using hcall) (by simpa using hpush) h

end Formals
