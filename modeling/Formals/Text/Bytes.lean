/-!
# Bytes and text

A text is kept as the bytes of its UTF-8 form: `textBytes` gives them, and `textOfBytes?` the text
they stand for, if they are UTF-8. Bytes are shown as hexadecimal text: `hexText` writes two
lower-case digits a byte, `hexBytes?` reads digits of either case.
-/

namespace Formals

/-- The bytes of a text. -/
def textBytes (s : String) : List UInt8 := s.toUTF8.data.toList

/-- The text that some bytes stand for, if they are UTF-8. -/
def textOfBytes? (bytes : List UInt8) : Option String := String.fromUTF8? ⟨bytes.toArray⟩

/-- The value of a hexadecimal digit. -/
def hexValue? (c : Char) : Option Nat :=
  if '0' ≤ c ∧ c ≤ '9' then some (c.toNat - '0'.toNat)
  else if 'a' ≤ c ∧ c ≤ 'f' then some (c.toNat - 'a'.toNat + 10)
  else if 'A' ≤ c ∧ c ≤ 'F' then some (c.toNat - 'A'.toNat + 10)
  else none

/-- A byte as two hexadecimal digits. -/
def hexByte (b : UInt8) : String :=
  String.ofList [Nat.digitChar (b.toNat / 16), Nat.digitChar (b.toNat % 16)]

/-- Bytes as text. -/
def hexText (bytes : List UInt8) : String := String.join (bytes.map hexByte)

/-- The bytes that some digits stand for. -/
def hexBytes? : List Char → Option (List UInt8)
  | [] => some []
  | a :: b :: rest => do
    let high ← hexValue? a
    let low ← hexValue? b
    return UInt8.ofNat (high * 16 + low) :: (← hexBytes? rest)
  | _ => none

end Formals
