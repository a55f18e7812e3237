import Formals.Text.Invisible

/-!
# Quoted text

`quoted s` writes a text in double quotes so that every character of it can be read off: quotes,
backslashes and the common controls by a backslash escape, and each invisible character by its code
point in hexadecimal.
-/

namespace Formals

/-- The digits of `n` in base sixteen, in lower case and without leading zeros. -/
def hexDigits (n : Nat) : String := String.ofList (Nat.toDigits 16 n)

/-- One character between double quotes. -/
def quotedChar (c : Char) : String :=
  match c with
  | '"' => "\\\""
  | '\\' => "\\\\"
  | '\n' => "\\n"
  | '\r' => "\\r"
  | '\t' => "\\t"
  | '\x00' => "\\0"
  | _ => if isInvisible c then s!"\\u\x7b{hexDigits c.toNat}\x7d" else c.toString

/-- A text in double quotes. -/
def quoted (s : String) : String :=
  "\"" ++ String.join (s.toList.map quotedChar) ++ "\""

end Formals
