import Formals.Json.Value
import Formals.Text.Decimal
import Formals.Text.Quoted

/-!
# Writing JSON text

`Json.text` writes a document without blanks. Of the characters of a string only the quote, the
backslash and the controls are escaped. Different doubles have different texts, and a double that is
a whole number still has a fraction or an exponent.
-/

namespace Formals.Json

/-- One character of a string. -/
def charText (c : Char) : String :=
  match c with
  | '"' => "\\\""
  | '\\' => "\\\\"
  | '\n' => "\\n"
  | '\r' => "\\r"
  | '\t' => "\\t"
  | '\x08' => "\\b"
  | '\x0c' => "\\f"
  | _ =>
    if c.toNat < 0x20 then "\\u00" ++ (if c.toNat < 0x10 then "0" else "") ++ hexDigits c.toNat
    else c.toString

/-- A string with its quotes. -/
def stringText (s : String) : String :=
  "\"" ++ String.join (s.toList.map charText) ++ "\""

mutual
/-- A document as text. -/
def text : Json → String
  | null | broken => "null"
  | bool true => "true"
  | bool false => "false"
  | int n => toString n
  | real negative magnitude => (if negative then "-" else "") ++ magnitude.text
  | str s => stringText s
  | arr items => "[" ++ itemsText items ++ "]"
  | obj members => "\x7b" ++ membersText members ++ "\x7d"

/-- The items of an array, separated by commas. -/
def itemsText : List Json → String
  | [] => ""
  | [j] => j.text
  | j :: rest => j.text ++ "," ++ itemsText rest

/-- The members of an object, separated by commas. -/
def membersText : List (String × Json) → String
  | [] => ""
  | [(name, j)] => stringText name ++ ":" ++ j.text
  | (name, j) :: rest => stringText name ++ ":" ++ j.text ++ "," ++ membersText rest
end

end Formals.Json
