import Formals.Proofs.Codec
import Mathlib.Data.List.Basic
import Mathlib.Data.List.Forall2
import Mathlib.Data.List.Induction

/-!
# What the decoder accepts

The bytes that the decoder accepts are spelled like the ones that are written, except that every
variable-length integer in them may have any of its forms. `Stream.Spelt` lists what a stream is
spelled by, and `decode_iff_spelt` says that these are the bytes that are decoded to it. What is
written of an integer is its only form that does not begin with an empty group
(`Varint.Form.write_eq_iff`), and no form is shorter, nor any form of a greater integer
(`Varint.Form.length_write_le`). So a payload that shrinks never makes the form of its length
longer, and nothing that spells a stream is shorter than what is written for it
(`Stream.Spelt.shrinks`).
-/

namespace Formals

/-! ## Forms of integers -/

namespace Varint

/-- The value of groups behind others of value `acc`. -/
def valueFrom (acc : Nat) (groups : List UInt8) : Nat :=
  groups.foldl (fun acc b => acc * 128 + b.toNat % 128) acc

/-- The forms of an integer: all groups but the last one are marked as continued, and together they
have its value. -/
structure Form (n : Nat) (form : List UInt8) : Prop where
  marked : ∃ groups last, form = groups ++ [last] ∧ (∀ b ∈ groups, 128 ≤ b.toNat) ∧
    last.toNat < 128
  value : valueFrom 0 form = n
  bounded : n < UInt64.size

/-- One more group is worth its seven bits, and those before it a group more. -/
theorem valueFrom_concat (acc : Nat) (groups : List UInt8) (b : UInt8) :
    valueFrom acc (groups ++ [b]) = valueFrom acc groups * 128 + b.toNat % 128 := by
  rw [valueFrom, List.foldl_concat, ← valueFrom]

/-- The value of groups is at least what they begin with. -/
theorem le_valueFrom (acc : Nat) (groups : List UInt8) : acc ≤ valueFrom acc groups := by
  induction groups generalizing acc with
  | nil => exact Nat.le_refl _
  | cons b groups ih => exact Nat.le_trans (by omega) (ih (acc * 128 + b.toNat % 128))

/-- A form in front of other bytes is its last group alone, or a marked group and the rest of the
form. -/
theorem exists_groups_cons_iff {acc n : Nat} {b : UInt8} {bs rest : List UInt8} :
    (∃ groups last, b :: bs = groups ++ last :: rest ∧ (∀ b ∈ groups, 128 ≤ b.toNat) ∧
      last.toNat < 128 ∧ valueFrom acc (groups ++ [last]) = n) ↔
    (b.toNat < 128 ∧ bs = rest ∧ acc * 128 + b.toNat % 128 = n) ∨
      (128 ≤ b.toNat ∧ ∃ groups last, bs = groups ++ last :: rest ∧
        (∀ b ∈ groups, 128 ≤ b.toNat) ∧ last.toNat < 128 ∧
        valueFrom (acc * 128 + b.toNat % 128) (groups ++ [last]) = n) := by
  constructor
  · rintro ⟨groups, last, hbs, hmarked, hlast, hvalue⟩
    cases groups with
    | nil =>
      obtain ⟨rfl, rfl⟩ := List.cons.inj hbs
      exact .inl ⟨hlast, rfl, hvalue⟩
    | cons g groups =>
      obtain ⟨rfl, rfl⟩ := List.cons.inj hbs
      obtain ⟨hg, hmarked⟩ := List.forall_mem_cons.1 hmarked
      exact .inr ⟨hg, groups, last, rfl, hmarked, hlast, hvalue⟩
  · rintro (⟨hlast, rfl, hvalue⟩ | ⟨hb, groups, last, rfl, hmarked, hlast, hvalue⟩)
    · exact ⟨[], b, rfl, List.forall_mem_nil _, hlast, hvalue⟩
    · exact ⟨b :: groups, last, rfl, List.forall_mem_cons.2 ⟨hb, hmarked⟩, hlast, hvalue⟩

/-- Reading on takes groups off up to the first one that is not marked. -/
theorem readFrom_ok_iff {acc n : Nat} {bs rest : List UInt8} :
    readFrom acc bs = .ok (n, rest) ↔ n < UInt64.size ∧ ∃ groups last, bs = groups ++ last :: rest ∧
      (∀ b ∈ groups, 128 ≤ b.toNat) ∧ last.toNat < 128 ∧ valueFrom acc (groups ++ [last]) = n := by
  have hsize : UInt64.size % 128 = 0 := by decide
  induction bs generalizing acc with
  | nil =>
    constructor
    · intro h
      cases h
    · rintro ⟨-, groups, last, h, -⟩
      cases groups <;> cases h
  | cons b bs ih =>
    rw [readFrom]
    by_cases hover : acc > roomForGroup
    · -- the groups so far are too many for a word, and those behind them make it only more
      rw [if_pos hover]
      refine iff_of_false (fun h => by cases h) ?_
      rintro ⟨hn, groups, last, -, -, -, rfl⟩
      have hle : acc * 128 ≤ valueFrom acc (groups ++ [last]) := by
        rw [valueFrom_concat]
        have := le_valueFrom acc groups
        omega
      have := roomForGroup_lt_iff.1 hover
      omega
    rw [if_neg hover, exists_groups_cons_iff]
    have hbound := mt roomForGroup_lt_iff.2 hover
    by_cases hlast : b.toNat < 128
    · rw [if_pos hlast]
      constructor
      · intro h
        cases h
        exact ⟨by omega, .inl ⟨hlast, rfl, rfl⟩⟩
      · rintro ⟨-, ⟨-, rfl, rfl⟩ | ⟨hb, -⟩⟩
        · rfl
        · exact absurd hlast (Nat.not_lt_of_le hb)
    · rw [if_neg hlast]
      refine ih.trans ?_
      simp [hlast, Nat.le_of_not_lt hlast]

/-- The integers that are read are those that have forms. -/
theorem read_ok_iff {n : Nat} {bs rest : List UInt8} :
    read bs = .ok (n, rest) ↔ ∃ form, Form n form ∧ bs = form ++ rest := by
  rw [read, readFrom_ok_iff]
  constructor
  · rintro ⟨hn, groups, last, rfl, hmarked, hlast, hvalue⟩
    exact ⟨groups ++ [last], ⟨⟨groups, last, rfl, hmarked, hlast⟩, hvalue, hn⟩, by simp⟩
  · rintro ⟨form, ⟨⟨groups, last, rfl, hmarked, hlast⟩, hvalue, hn⟩, rfl⟩
    exact ⟨hn, groups, last, by simp, hmarked, hlast, hvalue⟩

/-- What is written of a 64-bit word is one of its forms. -/
theorem form_write {n : Nat} (h : n < UInt64.size) : Form n (write n) := by
  have hread := read_write n []
  rw [if_pos h] at hread
  obtain ⟨form, hform, heq⟩ := read_ok_iff.1 hread
  rw [List.append_nil, List.append_nil] at heq
  rwa [heq]

/-- So many groups of seven bits have a value below so many powers of 128. -/
theorem valueFrom_lt (groups : List UInt8) : valueFrom 0 groups < 128 ^ groups.length := by
  induction groups using List.reverseRecOn with
  | nil => exact Nat.one_pos
  | append_singleton groups b ih =>
    rw [valueFrom_concat, List.length_append, List.length_singleton, Nat.pow_succ]
    omega

/-- No form of an integer is shorter than what is written for it, or for a smaller one. -/
theorem Form.length_write_le {m n : Nat} {form : List UInt8} (h : Form n form) (hm : m ≤ n) :
    (write m).length ≤ form.length := by
  have hlt := valueFrom_lt form
  rw [h.value] at hlt
  obtain ⟨⟨groups, last, rfl, -⟩, -, -⟩ := h
  rw [List.length_append, List.length_singleton] at hlt ⊢
  exact Varint.length_write_le (Nat.lt_of_le_of_lt hm hlt)

/-- Leading groups are the ones that are written of the same value if they do not begin with an
empty one. -/
theorem continued_valueFrom {groups : List UInt8} (h : ∀ b ∈ groups, 128 ≤ b.toNat) :
    continued (valueFrom 0 groups) = groups ↔ groups.head? ≠ some 0x80 := by
  induction groups using List.reverseRecOn with
  | nil => simp [valueFrom, continued]
  | append_singleton groups b ih =>
    have heq := ih fun g hg => h g (List.mem_append_left _ hg)
    have hmarked : 128 ≤ b.toNat := h b (List.mem_append_right _ List.mem_cons_self)
    have hbyte : b.toNat < 256 := b.toNat_lt
    have hempty : b = 0x80 ↔ b.toNat % 128 = 0 := by
      rw [← UInt8.toNat_inj, show (0x80 : UInt8).toNat = 128 from rfl]
      omega
    have hhead : groups = [] ∧ (groups ++ [b]).head? = some b ∨
        groups ≠ [] ∧ (groups ++ [b]).head? = groups.head? := by
      cases groups <;> simp
    rw [valueFrom_concat]
    by_cases hzero : valueFrom 0 groups * 128 + b.toNat % 128 = 0
    · -- all groups are empty, so nothing is written of them
      have hvalue : valueFrom 0 groups = 0 := by omega
      rw [hzero, continued, if_pos rfl]
      refine iff_of_false (by simp) (not_not.2 ?_)
      rcases hhead with ⟨-, hhead⟩ | ⟨hne, hhead⟩
      · rw [hhead, hempty.2 (by omega)]
      · rw [hvalue, continued, if_pos rfl] at heq
        rw [hhead]
        exact not_not.1 (mt heq.2 hne.symm)
    · have hlast : UInt8.ofNat (128 + (valueFrom 0 groups * 128 + b.toNat % 128) % 128) = b := by
        rw [← UInt8.toNat_inj, toNat_continued]
        omega
      rw [continued, if_neg hzero, hlast,
        show (valueFrom 0 groups * 128 + b.toNat % 128) / 128 = valueFrom 0 groups by omega,
        List.append_left_inj, heq]
      rcases hhead with ⟨rfl, hhead⟩ | ⟨-, hhead⟩
      · have : b ≠ 0x80 := fun hb => hzero (by rw [hempty.1 hb]; rfl)
        simpa using this
      · rw [hhead]

/-- **Forms.** The form that is written is the one that does not begin with an empty group. -/
theorem Form.write_eq_iff {n : Nat} {form : List UInt8} (h : Form n form) :
    write n = form ↔ form.head? ≠ some 0x80 := by
  obtain ⟨⟨groups, last, rfl, hmarked, hlast⟩, rfl, -⟩ := h
  have hgroup : UInt8.ofNat ((valueFrom 0 groups * 128 + last.toNat % 128) % 128) = last := by
    rw [← UInt8.toNat_inj, toNat_last]
    omega
  rw [valueFrom_concat, write, hgroup,
    show (valueFrom 0 groups * 128 + last.toNat % 128) / 128 = valueFrom 0 groups by omega,
    List.append_left_inj, continued_valueFrom hmarked]
  cases groups with
  | nil =>
    have : last ≠ 0x80 := fun h => by
      rw [h] at hlast
      exact absurd hlast (by decide)
    simpa using this
  | cons g groups => rfl

end Varint

/-! ## Layouts -/

/-- What bytes are laid out by: an integer, or bytes that can be written in one way only. -/
inductive Field where
  | integer (n : Nat)
  | plain (bytes : List UInt8)

/-- What bytes are spelled by: a form of an integer, or bytes that can be written in one way
only. -/
inductive Item where
  | integer (form : List UInt8)
  | plain (bytes : List UInt8)

/-- The bytes of an item. -/
def Item.bytes : Item → List UInt8
  | integer form => form
  | plain bytes => bytes

/-- The form of an integer does not begin with an empty group. -/
def Item.Minimal : Item → Prop
  | integer form => form.head? ≠ some 0x80
  | plain _ => True

/-- A field is spelled by an item. -/
inductive Field.Spelt : Field → Item → Prop
  | integer {n : Nat} {form : List UInt8} : Varint.Form n form → Spelt (.integer n) (.integer form)
  | plain {bytes : List UInt8} : Spelt (.plain bytes) (.plain bytes)

/-- A layout is spelled field by field. -/
def Spells : List Field → List Item → Prop := List.Forall₂ Field.Spelt

/-- A text is its length and its bytes. -/
def textFields (s : String) : List Field := [.integer (textBytes s).length, .plain (textBytes s)]

/-- The operands of an operation. -/
def Op.fields : Op → List Field
  | .pushInt value => [.integer (Varint.zigzag value)]
  | .pushString value | .pushSymbol value => textFields value
  | .createArray count | .createHash count | .setArgc count => [.integer count.toNat]
  | .localSet name localOnly => textFields name ++ [.plain (encodeBool localOnly)]
  | .localGet name | .instanceGet name | .instanceSet name | .globalGet name | .globalSet name
  | .hasKeyword name | .takeKeyword name => textFields name
  | .send message toSelf isWriter =>
    textFields message ++ [.plain (encodeBool toSelf), .plain (encodeBool isWriter)]
  | .pushNil | .pushTrue | .pushFalse | .pushSelf | .dup | .pop | .arrayShift | .arrayPop
  | .arrayIsEmpty | .toArray | .stageKeywords | .checkKeywords | .ifTrue | .orElse | .endIf => []

/-- The span and the operands of an instruction. -/
def Instruction.fields (i : Instruction) : List Field :=
  [.integer i.span.start.toNat] ++ [.integer i.span.length.toNat] ++ i.op.fields

/-- A payload is spelled by items, and its length by a form of their length. -/
inductive Instruction.Spelt (i : Instruction) : List Item → Prop
  | intro {form : List UInt8} {payload : List Item} :
    Varint.Form (payload.flatMap Item.bytes).length form → Spells i.fields payload →
    Spelt i (.plain [i.op.opcode.number] :: .integer form :: payload)

/-- A stream is spelled by what its instructions are spelled by. -/
inductive Stream.Spelt : Stream → List Item → Prop
  | nil : Spelt [] []
  | cons {i : Instruction} {code : Stream} {first rest : List Item} : i.Spelt first →
    Stream.Spelt code rest → Spelt (i :: code) (first ++ rest)

/-- An empty layout is spelled by no items. -/
theorem spells_nil {items : List Item} : Spells [] items ↔ items = [] :=
  List.forall₂_nil_left_iff

/-- An integer is spelled by any of its forms. -/
theorem spells_integer {n : Nat} {items : List Item} :
    Spells [.integer n] items ↔ ∃ form, Varint.Form n form ∧ items = [.integer form] := by
  constructor
  · rintro (_ | ⟨⟨hform⟩, ⟨⟩⟩)
    exact ⟨_, hform, rfl⟩
  · rintro ⟨form, hform, rfl⟩
    exact .cons (.integer hform) .nil

/-- Bytes that can be written in one way are spelled by themselves. -/
theorem spells_plain {bytes : List UInt8} {items : List Item} :
    Spells [.plain bytes] items ↔ items = [.plain bytes] := by
  constructor
  · rintro (_ | ⟨⟨⟩, ⟨⟩⟩)
    rfl
  · rintro rfl
    exact .cons .plain .nil

/-- Two layouts in a row are spelled one after the other. -/
theorem spells_append {fields more : List Field} {items : List Item} :
    Spells (fields ++ more) items ↔ ∃ first rest, Spells fields first ∧ Spells more rest ∧
      items = first ++ rest := by
  constructor
  · intro h
    induction fields generalizing items with
    | nil => exact ⟨[], items, .nil, h, rfl⟩
    | cons field fields ih =>
      cases h with
      | cons hfield h =>
        obtain ⟨first, rest, hfirst, hrest, rfl⟩ := ih h
        exact ⟨_ :: first, rest, .cons hfield hfirst, hrest, rfl⟩
  · rintro ⟨first, rest, hfirst, hrest, rfl⟩
    exact List.rel_append hfirst hrest

/-! ## What readers accept -/

/-- A reader gives a value just of the bytes of items that spell it. -/
structure Accepts {α : Type} (r : Reader α) (spelt : α → List Item → Prop) : Prop where
  sound : ∀ {bs o a c}, r ⟨bs, o⟩ = .ok a c →
    ∃ items, spelt a items ∧ bs = items.flatMap Item.bytes ++ c.rest
  complete : ∀ {a items}, spelt a items → Reads r (items.flatMap Item.bytes) a True

namespace Accepts

variable {α β : Type} {r : Reader α} {f : α → Reader β} {spelt spelt' : α → List Item → Prop}
  {speltBy : α → β → List Item → Prop}

/-- What spells a value may be described otherwise. -/
theorem congr (h : Accepts r spelt) (heq : ∀ a items, spelt a items ↔ spelt' a items) :
    Accepts r spelt' where
  sound hr := by
    obtain ⟨items, hitems, hbs⟩ := h.sound hr
    exact ⟨items, (heq _ _).1 hitems, hbs⟩
  complete hitems := h.complete ((heq _ _).2 hitems)

/-- The same bytes may be grouped in other items. -/
theorem regroup (h : Accepts r spelt)
    (hto : ∀ {a items}, spelt a items → ∃ items', spelt' a items' ∧
      items'.flatMap Item.bytes = items.flatMap Item.bytes)
    (hfrom : ∀ {a items}, spelt' a items → ∃ items', spelt a items' ∧
      items'.flatMap Item.bytes = items.flatMap Item.bytes) :
    Accepts r spelt' where
  sound hr := by
    obtain ⟨items, hitems, hbs⟩ := h.sound hr
    obtain ⟨items', hitems', hsame⟩ := hto hitems
    exact ⟨items', hitems', by rw [hsame, hbs]⟩
  complete hitems := by
    obtain ⟨items', hitems', hsame⟩ := hfrom hitems
    rw [← hsame]
    exact h.complete hitems'

/-- A reader that reads nothing accepts no bytes at all. -/
theorem pure (a : α) : Accepts (pure a) fun a' items => a' = a ∧ items = [] where
  sound hr := by
    cases hr
    exact ⟨[], ⟨rfl, rfl⟩, rfl⟩
  complete := by
    rintro _ _ ⟨rfl, rfl⟩
    exact .pure _

/-- A reader that fails accepts nothing. -/
theorem throw (e : DecodeError) : Accepts (throw e : Reader α) fun _ _ => False where
  sound hr := nomatch hr
  complete h := h.elim

/-- What is read one after the other is spelled one after the other. -/
theorem bind (h : Accepts r spelt) (h' : ∀ a, Accepts (f a) (speltBy a)) :
    Accepts (r >>= f) fun b items => ∃ a first rest, spelt a first ∧ speltBy a b rest ∧
      items = first ++ rest where
  sound hr := by
    obtain ⟨a, c, ha, hb⟩ := bind_eq_ok.1 hr
    obtain ⟨first, hfirst, rfl⟩ := h.sound ha
    obtain ⟨rest, hrest, hbs⟩ := (h' a).sound hb
    refine ⟨first ++ rest, ⟨a, first, rest, hfirst, hrest, rfl⟩, ?_⟩
    rw [hbs, List.flatMap_append, List.append_assoc]
  complete := by
    rintro b _ ⟨a, first, rest, hfirst, hrest, rfl⟩
    rw [List.flatMap_append]
    exact ((h.complete hfirst).bind ((h' a).complete hrest)).mono fun _ => ⟨trivial, trivial⟩

/-- What is read may be changed: the new value is spelled as the old one. -/
theorem map (h : Accepts r spelt) (g : α → β) : Accepts (do return g (← r))
    fun b items => ∃ a, spelt a items ∧ b = g a := by
  refine (h.bind fun a => pure (g a)).congr fun b items => ?_
  constructor
  · rintro ⟨a, first, _, hfirst, ⟨hb, rfl⟩, rfl⟩
    exact ⟨a, by rwa [List.append_nil], hb⟩
  · rintro ⟨a, hitems, hb⟩
    exact ⟨a, items, [], hitems, ⟨hb, rfl⟩, (List.append_nil _).symm⟩

/-- A reader that asks for the offset accepts the same bytes wherever they stand. -/
theorem offset {f : Nat → Reader α} (h : ∀ o, Accepts (f o) spelt) :
    Accepts (Reader.offset >>= f) spelt where
  sound {_ o _ _} hr := (h o).sound hr
  complete hitems := .offset fun start => (h start).complete hitems

/-- A value that is looked at is passed on or rejected. -/
theorem check {p : Prop} [Decidable p] (a : α) (e : DecodeError) :
    Accepts (if p then Pure.pure a else MonadExcept.throw e)
      fun a' items => p ∧ a' = a ∧ items = [] := by
  split
  · rename_i hp
    exact (pure a).congr fun a' items => (and_iff_right hp).symm
  · rename_i hp
    exact (throw e).congr fun a' items => iff_of_false id fun h => hp h.1

/-- A byte is read of that byte. -/
theorem byte : Accepts Reader.byte fun b items => Spells [.plain [b]] items where
  sound {bs o b c} hr := by
    cases bs with
    | nil => cases hr
    | cons b' bs =>
      cases hr
      exact ⟨_, spells_plain.2 rfl, rfl⟩
  complete := by
    intro b items hitems
    obtain rfl := spells_plain.1 hitems
    exact .byte b

/-- A run of bytes is read of as many bytes. -/
theorem bytes (n : Nat) :
    Accepts (Reader.bytes n) fun taken items => taken.length = n ∧ Spells [.plain taken] items where
  sound {bs o taken c} hr := by
    rw [Reader.bytes] at hr
    cases hs : splitExact? n bs with
    | none =>
      rw [hs] at hr
      cases hr
    | some split =>
      obtain ⟨taken', rest⟩ := split
      rw [hs] at hr
      cases hr
      obtain ⟨rfl, hlength⟩ := splitExact?_eq_some.1 hs
      exact ⟨_, ⟨hlength, spells_plain.2 rfl⟩, by simp [Item.bytes, Cursor.advance]⟩
  complete := by
    rintro taken items ⟨rfl, hitems⟩
    rw [spells_plain.1 hitems, List.flatMap_singleton]
    exact .bytes taken

/-- An integer is read of each of its forms. -/
theorem nat : Accepts Reader.nat fun n items => Spells [.integer n] items where
  sound {bs o n c} hr := by
    rw [Reader.nat] at hr
    cases hs : Varint.read bs with
    | error e =>
      rw [hs] at hr
      cases e <;> cases hr
    | ok found =>
      obtain ⟨n', rest⟩ := found
      rw [hs] at hr
      cases hr
      obtain ⟨form, hform, rfl⟩ := Varint.read_ok_iff.1 hs
      exact ⟨_, spells_integer.2 ⟨form, hform, rfl⟩, by simp [Item.bytes, Cursor.advance]⟩
  complete := by
    intro n items hitems
    obtain ⟨form, hform, rfl⟩ := spells_integer.1 hitems
    rw [List.flatMap_singleton]
    refine .of_eq fun t o => ?_
    have hread : Varint.read (form ++ t) = .ok (n, t) := Varint.read_ok_iff.2 ⟨form, hform, rfl⟩
    simp [Reader.nat, Item.bytes, hread, Cursor.advance]

/-- A 32-bit word is read of each form of its value. A larger integer is rejected. -/
theorem word : Accepts Reader.word fun w items => Spells [.integer w.toNat] items := by
  refine offset fun start => (nat.bind fun n => check _ _).congr fun w items => ?_
  constructor
  · rintro ⟨n, _, _, hitems, ⟨hn, rfl, rfl⟩, rfl⟩
    rwa [List.append_nil, UInt32.toNat_ofNat_of_lt' hn]
  · intro hitems
    exact ⟨w.toNat, items, [], hitems, ⟨w.toNat_lt, UInt32.ofNat_toNat.symm, rfl⟩,
      (List.append_nil _).symm⟩

/-- A signed integer is read of each form of its zigzag value. -/
theorem int : Accepts Reader.int fun n items => Spells [.integer (Varint.zigzag n)] items := by
  refine (nat.map Varint.unzigzag).congr fun n items => ?_
  constructor
  · rintro ⟨m, hitems, rfl⟩
    obtain ⟨form, hform, rfl⟩ := spells_integer.1 hitems
    rwa [Varint.zigzag_unzigzag hform.bounded]
  · intro hitems
    exact ⟨_, hitems, (Varint.unzigzag_zigzag n).symm⟩

/-- A truth value is read of its byte. -/
theorem bool : Accepts Reader.bool fun b items => Spells [.plain (encodeBool b)] items := by
  have hbit : ∀ (b' : UInt8) start, Accepts (if b' = 0 then Pure.pure false
      else if b' = 1 then Pure.pure true else MonadExcept.throw (.invalidBool b' start))
        fun b items => [b'] = encodeBool b ∧ items = [] := fun b' start => by
    by_cases hzero : b' = 0
    · subst hzero
      refine (pure false).congr fun b items => and_congr_left fun _ => ?_
      cases b <;> simp [encodeBool]
    · rw [if_neg hzero]
      refine (check true _).congr fun b items => ?_
      cases b <;> simp [encodeBool, hzero]
  refine offset fun start => (byte.bind fun b' => hbit b' start).congr fun b items => ?_
  constructor
  · rintro ⟨b', _, _, hitems, ⟨hb, rfl⟩, rfl⟩
    rwa [List.append_nil, ← hb]
  · intro hitems
    exact ⟨_, items, [], hitems, ⟨rfl, rfl⟩, (List.append_nil _).symm⟩

/-- The bytes of a text that were taken. -/
theorem text (taken : List UInt8) (start : Nat) : Accepts (match textOfBytes? taken with
    | some s => Pure.pure s
    | none => MonadExcept.throw (.invalidUtf8 start))
      fun s items => taken = textBytes s ∧ items = [] := by
  cases hs : textOfBytes? taken with
  | some s =>
    refine (pure s).congr fun s' items => and_congr_left fun _ => ?_
    rw [← textOfBytes?_eq_some, hs, Option.some.injEq, eq_comm]
  | none =>
    refine (throw _).congr fun s items => iff_of_false id ?_
    rintro ⟨h, -⟩
    rw [← textOfBytes?_eq_some, hs] at h
    cases h

/-- A text is read of a form of its length and its bytes. -/
theorem string : Accepts Reader.string fun s items => Spells (textFields s) items := by
  refine (nat.bind fun n => offset fun start => (bytes n).bind fun taken =>
    text taken start).congr fun s items => ?_
  rw [textFields, ← List.singleton_append, spells_append]
  constructor
  · rintro ⟨_, first, _, hfirst, ⟨_, rest, _, ⟨rfl, hrest⟩, ⟨rfl, rfl⟩, rfl⟩, rfl⟩
    exact ⟨first, rest, hfirst, hrest, by rw [List.append_nil]⟩
  · rintro ⟨first, rest, hfirst, hrest, rfl⟩
    exact ⟨_, first, rest, hfirst, ⟨_, rest, [], ⟨rfl, hrest⟩, ⟨rfl, rfl⟩,
      (List.append_nil _).symm⟩, rfl⟩

/-- Two values that are read one after the other. -/
theorem pair {layout : α → List Field} {r' : Reader β} {layout' : β → List Field}
    (h : Accepts r fun a items => Spells (layout a) items)
    (h' : Accepts r' fun b items => Spells (layout' b) items) :
    Accepts (do return (← r, ← r'))
      fun ab items => Spells (layout ab.1 ++ layout' ab.2) items := by
  refine (h.bind fun a => h'.map (Prod.mk a)).congr fun ab items => ?_
  rw [spells_append]
  constructor
  · rintro ⟨a, first, rest, hfirst, ⟨b, hrest, rfl⟩, rfl⟩
    exact ⟨first, rest, hfirst, hrest, rfl⟩
  · rintro ⟨first, rest, hfirst, hrest, rfl⟩
    exact ⟨_, first, rest, hfirst, ⟨_, hrest, rfl⟩, rfl⟩

/-- An operation is read by its operands. -/
theorem operation (opcode : Opcode) {layout : α → List Field} (g : α → Op)
    (h : Accepts r fun a items => Spells (layout a) items)
    (hg : ∀ a, (g a).opcode = opcode ∧ (g a).fields = layout a)
    (honly : ∀ op : Op, op.opcode = opcode → ∃ a, op = g a) :
    Accepts (do return g (← r)) fun op items => op.opcode = opcode ∧ Spells op.fields items := by
  refine (h.map g).congr fun op items => ?_
  constructor
  · rintro ⟨a, hitems, rfl⟩
    exact ⟨(hg a).1, by rwa [(hg a).2]⟩
  · rintro ⟨hopcode, hitems⟩
    obtain ⟨a, rfl⟩ := honly op hopcode
    exact ⟨a, by rwa [← (hg a).2], rfl⟩

/-- Operands are read of what spells their layout, and have the opcode that they are read for. -/
theorem operands (opcode : Opcode) : Accepts (Reader.operands opcode)
    fun op items => op.opcode = opcode ∧ Spells op.fields items := by
  have hnone : Accepts (Pure.pure ()) fun _ items => Spells [] items :=
    (pure ()).congr fun _ items => by rw [spells_nil, and_iff_right rfl]
  cases opcode with
  | pushInt =>
    exact operation _ _ int (fun _ => ⟨rfl, rfl⟩) fun op h => by
      cases op <;> cases h
      exact ⟨_, rfl⟩
  | pushString | pushSymbol | localGet | instanceGet | instanceSet | globalGet | globalSet
  | hasKeyword | takeKeyword =>
    exact operation _ _ string (fun _ => ⟨rfl, rfl⟩) fun op h => by
      cases op <;> cases h
      exact ⟨_, rfl⟩
  | createArray | createHash | setArgc =>
    exact operation _ _ word (fun _ => ⟨rfl, rfl⟩) fun op h => by
      cases op <;> cases h
      exact ⟨_, rfl⟩
  | localSet =>
    have h := operation .localSet (fun ab => .localSet ab.1 ab.2) (string.pair bool)
      (fun _ => ⟨rfl, rfl⟩) fun op h => by
        cases op <;> cases h
        exact ⟨(_, _), rfl⟩
    simpa only [Reader.operands, bind_assoc, pure_bind] using h
  | send =>
    have h := operation .send (fun ab => .send ab.1 ab.2.1 ab.2.2) (string.pair (bool.pair bool))
      (fun _ => ⟨rfl, rfl⟩) fun op h => by
        cases op <;> cases h
        exact ⟨(_, _, _), rfl⟩
    simpa only [Reader.operands, bind_assoc, pure_bind] using h
  | _ =>
    exact operation _ (fun _ => _) hnone (fun _ => ⟨rfl, rfl⟩) fun op h => by
      cases op <;> cases h
      exact ⟨(), rfl⟩

/-- A span and operands are read of what spells their layout. -/
theorem located (opcode : Opcode) : Accepts (Reader.located opcode)
    fun i items => i.op.opcode = opcode ∧ Spells i.fields items := by
  refine (word.bind fun start => word.bind fun length =>
    (operands opcode).map (Instruction.mk · ⟨start, length⟩)).congr fun i items => ?_
  simp only [Instruction.fields, List.append_assoc, spells_append]
  constructor
  · rintro ⟨_, first, _, hfirst, ⟨_, second, rest, hsecond, ⟨op, ⟨hopcode, hrest⟩, rfl⟩, rfl⟩, rfl⟩
    exact ⟨hopcode, first, _, hfirst, ⟨second, rest, hsecond, hrest, rfl⟩, rfl⟩
  · rintro ⟨hopcode, first, _, hfirst, ⟨second, rest, hsecond, hrest, rfl⟩, rfl⟩
    exact ⟨_, first, _, hfirst, ⟨_, second, rest, hsecond, ⟨i.op, ⟨hopcode, hrest⟩, rfl⟩, rfl⟩, rfl⟩

/-- Payloads are read of what spells their span and operands, with nothing behind it. -/
theorem payload_ok_iff {opcode : Opcode} {bs : List UInt8} {o : Nat} {i : Instruction} :
    (∃ c, Reader.payload opcode ⟨bs, o⟩ = .ok i c) ↔ i.op.opcode = opcode ∧
      ∃ items, Spells i.fields items ∧ bs = items.flatMap Item.bytes := by
  rw [payload_eq]
  constructor
  · rintro ⟨c, h⟩
    obtain ⟨i', ⟨rest, offset⟩, hi, hafter⟩ := bind_eq_ok.1 h
    obtain ⟨items, ⟨hopcode, hitems⟩, rfl⟩ := (located opcode).sound hi
    cases rest with
    | nil =>
      cases hafter
      exact ⟨hopcode, items, hitems, List.append_nil _⟩
    | cons b rest => cases hafter
  · rintro ⟨hopcode, items, hitems, rfl⟩
    have hread := ((located opcode).complete ⟨hopcode, hitems⟩).total trivial [] o
    rw [List.append_nil] at hread
    rw [bind_apply, hread]
    exact ⟨_, rfl⟩

/-- A payload that was cut out. -/
theorem cut (opcode : Opcode) (taken : List UInt8) (inside : Nat) :
    Accepts (match Reader.payload opcode ⟨taken, inside⟩ with
      | .ok i _ => Pure.pure i
      | .error e _ => MonadExcept.throw e)
      fun i items => (i.op.opcode = opcode ∧ ∃ payload, Spells i.fields payload ∧
        taken = payload.flatMap Item.bytes) ∧ items = [] := by
  cases hread : Reader.payload opcode ⟨taken, inside⟩ with
  | ok i c =>
    refine (pure i).congr fun i' items => and_congr_left fun _ => ?_
    rw [← payload_ok_iff (o := inside), hread]
    constructor
    · rintro rfl
      exact ⟨c, rfl⟩
    · rintro ⟨_, h⟩
      cases h
      rfl
  | error e c =>
    refine (throw e).congr fun i items => iff_of_false id fun h => ?_
    obtain ⟨_, hok⟩ := (payload_ok_iff (o := inside)).2 h.1
    rw [hread] at hok
    cases hok

/-- An instruction, behind the number of its operation. -/
theorem numbered (number : UInt8) (start : Nat) :
    Accepts (match Opcode.ofNumber? number with
      | none => MonadExcept.throw (.unknownOpcode number start)
      | some opcode => do
        let length ← Reader.nat
        let inside ← Reader.offset
        let taken ← Reader.bytes length
        match Reader.payload opcode ⟨taken, inside⟩ with
        | .ok i _ => return i
        | .error e _ => MonadExcept.throw e)
      fun i items => number = i.op.opcode.number ∧ ∃ form payload,
        Varint.Form (payload.flatMap Item.bytes).length form ∧ Spells i.fields payload ∧
        items = [.integer form, .plain (payload.flatMap Item.bytes)] := by
  cases hopcode : Opcode.ofNumber? number with
  | none =>
    refine (throw _).congr fun i items => iff_of_false id fun h => ?_
    rw [ofNumber?_eq_some.2 h.1] at hopcode
    cases hopcode
  | some opcode =>
    obtain rfl := ofNumber?_eq_some.1 hopcode
    refine (nat.bind fun length => offset fun inside => (bytes length).bind fun taken =>
      cut opcode taken inside).congr fun i items => ?_
    constructor
    · rintro ⟨_, first, _, hfirst,
        ⟨_, second, _, ⟨rfl, hsecond⟩, ⟨⟨rfl, payload, hpayload, rfl⟩, rfl⟩, rfl⟩, rfl⟩
      obtain ⟨form, hform, rfl⟩ := spells_integer.1 hfirst
      obtain rfl := spells_plain.1 hsecond
      exact ⟨rfl, form, payload, hform, hpayload, rfl⟩
    · rintro ⟨hnumber, form, payload, hform, hpayload, rfl⟩
      rw [ofNumber?_eq_some.2 hnumber] at hopcode
      exact ⟨_, _, _, spells_integer.2 ⟨form, hform, rfl⟩, ⟨_, _, [], ⟨rfl, spells_plain.2 rfl⟩,
        ⟨⟨Option.some.inj hopcode, payload, hpayload, rfl⟩, rfl⟩, rfl⟩, rfl⟩

/-- Instructions are read of what spells them. -/
theorem instruction : Accepts Reader.instruction Instruction.Spelt := by
  refine (offset fun start => byte.bind fun number => numbered number start).regroup ?_ ?_
  · rintro i _ ⟨_, first, _, hfirst, ⟨rfl, form, payload, hform, hpayload, rfl⟩, rfl⟩
    obtain rfl := spells_plain.1 hfirst
    exact ⟨_, .intro hform hpayload, by simp [Item.bytes]⟩
  · rintro i _ ⟨hform, hpayload⟩
    exact ⟨_, ⟨_, _, _, spells_plain.2 rfl, ⟨rfl, _, _, hform, hpayload, rfl⟩, rfl⟩,
      by simp [Item.bytes]⟩

end Accepts

/-- **Decoding.** The bytes that are decoded to a stream are those that spell it. -/
theorem decode_iff_spelt {bs : List UInt8} {code : Stream} :
    Stream.decode bs = .ok code ↔
      ∃ items, Stream.Spelt code items ∧ bs = items.flatMap Item.bytes := by
  rw [decode_iff]
  constructor
  · intro h
    induction h with
    | nil => exact ⟨[], .nil, rfl⟩
    | cons hfirst _ ih =>
      obtain ⟨first, hi, hbs⟩ := Accepts.instruction.sound hfirst
      obtain ⟨rest, hcode, hrest⟩ := ih
      exact ⟨first ++ rest, .cons hi hcode, by rw [hbs, hrest, List.flatMap_append]⟩
  · rintro ⟨items, hitems, rfl⟩
    induction hitems with
    | nil => exact .nil
    | cons hi _ ih =>
      rw [List.flatMap_append]
      exact .cons ((Accepts.instruction.complete hi).total trivial _ 0) ih

/-! ## The shortest spelling -/

/-- The item that is written for a field. -/
def Field.shortest : Field → Item
  | integer n => .integer (Varint.write n)
  | plain bytes => .plain bytes

/-- The operands are written in the shortest way. -/
theorem encodeOperands_eq (op : Op) :
    op.encodeOperands = (op.fields.map Field.shortest).flatMap Item.bytes := by
  cases op <;>
    simp [Op.encodeOperands, Op.fields, textFields, encodeString, Field.shortest, Item.bytes]

/-- The payload of an instruction is written in the shortest way. -/
theorem payload_eq_shortest (i : Instruction) :
    i.payload = (i.fields.map Field.shortest).flatMap Item.bytes := by
  simp [Instruction.payload, Instruction.fields, encodeOperands_eq, Field.shortest, Item.bytes]

/-- What is written for a layout spells it, if anything does. -/
theorem Spells.shortest {fields : List Field} {items : List Item} (h : Spells fields items) :
    Spells fields (fields.map Field.shortest) := by
  induction h with
  | nil => exact .nil
  | cons hfield _ ih =>
    cases hfield with
    | integer hform => exact .cons (.integer (Varint.form_write hform.bounded)) ih
    | plain => exact .cons .plain ih

/-- Bytes are at most as long as what items spell, and the same if and only if all items are
minimal. -/
structure Shrinks (bs : List UInt8) (items : List Item) : Prop where
  length_le : bs.length ≤ (items.flatMap Item.bytes).length
  eq_iff : bs = items.flatMap Item.bytes ↔ ∀ item ∈ items, item.Minimal

/-- Bytes that shrink two rows of items shrink them in a row. If the whole is the same, so are the
parts, since neither of them is longer. -/
theorem Shrinks.append {bs cs : List UInt8} {items more : List Item} (h : Shrinks bs items)
    (h' : Shrinks cs more) : Shrinks (bs ++ cs) (items ++ more) where
  length_le := by
    rw [List.flatMap_append, List.length_append, List.length_append]
    exact Nat.add_le_add h.length_le h'.length_le
  eq_iff := by
    have hlength := h.length_le
    have hlength' := h'.length_le
    rw [List.flatMap_append, List.forall_mem_append, ← h.eq_iff, ← h'.eq_iff]
    constructor
    · intro heq
      have hsum := congrArg List.length heq
      rw [List.length_append, List.length_append] at hsum
      exact List.append_inj heq (by omega)
    · rintro ⟨hbs, hcs⟩
      rw [← hbs, ← hcs]

/-- What is written of an integer is at most as long as any of its forms. -/
theorem Shrinks.integer {n : Nat} {form : List UInt8} (h : Varint.Form n form) :
    Shrinks (Varint.write n) [.integer form] where
  length_le := by
    rw [List.flatMap_singleton]
    exact h.length_write_le (Nat.le_refl n)
  eq_iff := by
    rw [List.flatMap_singleton, Item.bytes, h.write_eq_iff, List.forall_mem_singleton,
      Item.Minimal]

/-- Bytes that can be written in one way do not shrink. -/
theorem Shrinks.plain (bs : List UInt8) : Shrinks bs [.plain bs] where
  length_le := by simp [Item.bytes]
  eq_iff := by simp [Item.bytes, Item.Minimal]

/-- What is written for a layout is at most as long as what spells it. -/
theorem Spells.shrinks {fields : List Field} {items : List Item} (h : Spells fields items) :
    Shrinks ((fields.map Field.shortest).flatMap Item.bytes) items := by
  induction h with
  | nil => exact ⟨Nat.le_refl _, by simp⟩
  | cons hfield _ ih =>
    cases hfield with
    | integer hform => exact (Shrinks.integer hform).append ih
    | plain => exact (Shrinks.plain _).append ih

/-- A payload that shrinks does not make the form of its length longer. -/
theorem Instruction.Spelt.shrinks {i : Instruction} {items : List Item} (h : i.Spelt items) :
    Shrinks i.encode items := by
  obtain @⟨form, payload, hform, hpayload⟩ := h
  have hshrinks : Shrinks i.payload payload := by
    rw [payload_eq_shortest]
    exact hpayload.shrinks
  have hlength := hshrinks.length_le
  have hsize := hform.length_write_le hlength
  have hsized : Shrinks (Varint.write i.payload.length ++ i.payload)
      (.integer form :: payload) := by
    constructor
    · rw [List.flatMap_cons, List.length_append, List.length_append]
      exact Nat.add_le_add hsize hlength
    rw [List.flatMap_cons, Item.bytes, List.forall_mem_cons, ← hshrinks.eq_iff, Item.Minimal,
      ← hform.write_eq_iff]
    constructor
    · intro heq
      have hsum := congrArg List.length heq
      rw [List.length_append, List.length_append] at hsum
      obtain ⟨hwritten, hsame⟩ := List.append_inj heq (by omega)
      exact ⟨by rw [← hsame, hwritten], hsame⟩
    · rintro ⟨hwritten, hsame⟩
      rw [← hwritten, ← hsame]
  exact (Shrinks.plain [i.op.opcode.number]).append hsized

/-- What is written of a stream is at most as long as what spells it, since each instruction is. -/
theorem Stream.Spelt.shrinks {code : Stream} {items : List Item} (h : Stream.Spelt code items) :
    Shrinks code.encode items := by
  induction h with
  | nil => exact ⟨Nat.le_refl _, by simp [Stream.encode]⟩
  | cons hi _ ih => exact hi.shrinks.append ih

/-- What is written of an instruction spells it, if anything does. -/
theorem Instruction.Spelt.written {i : Instruction} {items : List Item} (h : i.Spelt items) :
    ∃ items', i.Spelt items' ∧ i.encode = items'.flatMap Item.bytes := by
  obtain @⟨form, payload, hform, hpayload⟩ := h
  have hlength := hpayload.shrinks.length_le
  refine ⟨_, .intro (Varint.form_write (Nat.lt_of_le_of_lt hlength hform.bounded))
    hpayload.shortest, ?_⟩
  rw [Instruction.encode, payload_eq_shortest]
  rfl

/-- What can be spelled at all is spelled by what is written. -/
theorem Stream.Spelt.written {code : Stream} {items : List Item} (h : Stream.Spelt code items) :
    ∃ items', Stream.Spelt code items' ∧ code.encode = items'.flatMap Item.bytes := by
  induction h with
  | nil => exact ⟨[], .nil, rfl⟩
  | @cons i code first rest hi _ ih =>
    obtain ⟨rest', hrest, hbs⟩ := ih
    obtain ⟨first', hfirst, hbytes⟩ := hi.written
    exact ⟨first' ++ rest', .cons hfirst hrest, by
      rw [Stream.encode, List.flatMap_cons, hbytes, List.flatMap_append, ← hbs, Stream.encode]⟩

/-- An instruction takes at least four bytes: its opcode, the length of its payload, and the start
and the length of its span. -/
theorem Instruction.four_le_length_encode (i : Instruction) : 4 ≤ i.encode.length := by
  have hwrite : ∀ n, 1 ≤ (Varint.write n).length := fun n => by
    rw [Varint.write, List.length_append]
    exact Nat.le_add_left _ _
  have hlength := hwrite i.payload.length
  have hstart := hwrite i.span.start.toNat
  have hspan := hwrite i.span.length.toNat
  simp only [encode, payload, List.length_cons, List.length_append] at hlength ⊢
  omega

/-- A stream takes at least four bytes for each instruction, so that the bytes bound what decoding
gives. -/
theorem Stream.four_mul_length_le (code : Stream) : 4 * code.length ≤ code.encode.length := by
  induction code with
  | nil => exact Nat.le_refl _
  | cons i code ih =>
    have hi := i.four_le_length_encode
    rw [List.length_cons, Stream.encode, List.flatMap_cons, List.length_append, ← Stream.encode]
    omega

/-- **What the decoder accepts.** Bytes that are decoded are at least as long as what is written for
their stream, which is decoded to it as well, and every instruction takes four of them at least.
They are spelled as the stream is, and they are what is written if and only if no integer that
spells it begins with an empty group. -/
theorem decode_accepts {bs : List UInt8} {code : Stream} (h : Stream.decode bs = .ok code) :
    code.encode.length ≤ bs.length ∧ 4 * code.length ≤ bs.length ∧
    Stream.decode code.encode = .ok code ∧
    (∃ items, Stream.Spelt code items ∧ bs = items.flatMap Item.bytes) ∧
    ∀ items, Stream.Spelt code items → bs = items.flatMap Item.bytes →
      (code.encode = bs ↔ ∀ item ∈ items, item.Minimal) := by
  have hspelt := decode_iff_spelt.1 h
  obtain ⟨items, hitems, rfl⟩ := hspelt
  have hlength := hitems.shrinks.length_le
  refine ⟨hlength, Nat.le_trans code.four_mul_length_le hlength,
    decode_iff_spelt.2 hitems.written, ⟨items, hitems, rfl⟩, fun items' hitems' hbs => ?_⟩
  rw [hbs, hitems'.shrinks.eq_iff]

/-- An instruction whose length is in two groups, the first of them empty, is decoded and is written
without that group. -/
theorem decode_accepts_overlong :
    Stream.decode [1, 0x80, 2, 0, 0] = .ok [⟨.pushNil, {}⟩] ∧
      (Stream.encode [⟨.pushNil, {}⟩]).length ≤ 5 ∧
      Stream.decode (Stream.encode [⟨.pushNil, {}⟩]) = .ok [⟨.pushNil, {}⟩] ∧
      Stream.encode [⟨.pushNil, {}⟩] ≠ [1, 0x80, 2, 0, 0] := by
  have hzero : Varint.Form 0 [0] := ⟨⟨[], 0, rfl, nofun, by decide⟩, rfl, by decide⟩
  have htwo : Varint.Form 2 [0x80, 2] := ⟨⟨[0x80], 2, rfl, by simp, by decide⟩, rfl, by decide⟩
  have hspelt : Stream.Spelt [⟨.pushNil, {}⟩]
      ([.plain [1], .integer [0x80, 2], .integer [0], .integer [0]] ++ []) :=
    .cons (.intro htwo (.cons (.integer hzero) (.cons (.integer hzero) .nil))) .nil
  have hdecode : Stream.decode [1, 0x80, 2, 0, 0] = .ok [⟨.pushNil, {}⟩] :=
    decode_iff_spelt.2 ⟨_, hspelt, rfl⟩
  obtain ⟨hlength, -, hwritten, -, hiff⟩ := decode_accepts hdecode
  refine ⟨hdecode, hlength, hwritten, fun heq => ?_⟩
  exact (hiff _ hspelt rfl).1 heq (.integer [0x80, 2]) (by simp) rfl

end Formals
