import Formals.Json.Value
import Formals.Text.Bytes

/-!
# Reading JSON text

`Json.parse` reads a text that is one JSON value between blanks. Every rule consumes characters, so
the length of the text bounds the nesting of the recursion.
-/

namespace Formals.Json

/-- The blanks that may stand between tokens. -/
def isBlank (c : Char) : Bool := c = ' ' || c = '\n' || c = '\t' || c = '\r'

/-- The text from its first character on that is not blank. -/
def skipBlanks (cs : List Char) : List Char := cs.dropWhile isBlank

/-- A character of a string as it is spelled: itself, or a 16-bit unit given in hexadecimal. -/
inductive Spelled where
  | char (c : Char)
  | unit (n : Nat)

/-- What a backslash and the character after it stand for. -/
def escaped? : Char → Option Char
  | '"' => some '"'
  | '\\' => some '\\'
  | '/' => some '/'
  | 'b' => some '\x08'
  | 'f' => some '\x0c'
  | 'n' => some '\n'
  | 'r' => some '\r'
  | 't' => some '\t'
  | _ => none

/-- The characters of a string up to its closing quote, and the text after it. A control character
has to be escaped. -/
def spelled? : List Char → Option (List Spelled × List Char)
  | '"' :: rest => some ([], rest)
  | '\\' :: 'u' :: a :: b :: c :: d :: rest => do
    let n := (← hexValue? a) * 4096 + (← hexValue? b) * 256 + (← hexValue? c) * 16 + (← hexValue? d)
    let (more, after) ← spelled? rest
    return (.unit n :: more, after)
  | '\\' :: c :: rest => do
    let e ← escaped? c
    let (more, after) ← spelled? rest
    return (.char e :: more, after)
  | c :: rest =>
    if c.toNat < 0x20 then none
    else do
      let (more, after) ← spelled? rest
      return (.char c :: more, after)
  | [] => none

/-- The characters that are spelled, unless a surrogate lacks its other half. -/
def unspell? : List Spelled → Option (List Char)
  | [] => some []
  | .char c :: rest => (unspell? rest).map (c :: ·)
  | .unit high :: .unit low :: rest =>
    if 0xd800 ≤ high ∧ high < 0xdc00 then
      if 0xdc00 ≤ low ∧ low < 0xe000 then
        (unspell? rest).map (Char.ofNat (0x10000 + (high - 0xd800) * 1024 + (low - 0xdc00)) :: ·)
      else none
    else if 0xdc00 ≤ high ∧ high < 0xe000 then none
    else (unspell? (.unit low :: rest)).map (Char.ofNat high :: ·)
  | .unit n :: rest =>
    if 0xd800 ≤ n ∧ n < 0xe000 then none else (unspell? rest).map (Char.ofNat n :: ·)

/-- The text of a string whose opening quote is read, or `none` within if it stands for nothing. -/
def stringBody? (cs : List Char) : Option (Option String × List Char) :=
  (spelled? cs).map fun (units, rest) => ((unspell? units).map String.ofList, rest)

/-- The value of a run of decimal digits. -/
def digitsValue (ds : List Char) : Nat := ds.foldl (fun n d => n * 10 + (d.toNat - '0'.toNat)) 0

/-- Appends digits to a number as long as it stays a word of 64 bits: the number, and how many of
the digits are left over. -/
def appendDigits (n : Nat) : List Char → Nat × Nat
  | [] => (n, 0)
  | d :: ds =>
    let longer := n * 10 + (d.toNat - '0'.toNat)
    if longer < UInt64.size then appendDigits longer ds else (n, ds.length + 1)

/-- The number whose sign, digits before and after the point, and exponent are given. Digits before
the point that are left over still count as places. -/
def decimal (negative : Bool) (whole fraction : List Char) (exponent : Int) : Json :=
  let (leading, places) := appendDigits 0 whole
  let (digits, ignored) := appendDigits leading fraction
  let scale := exponent + places - (fraction.length - ignored : Nat)
  ((Double.ofDecimal? digits scale).map (real negative)).getD broken

/-- The number that has only digits before the point. -/
def integer (negative : Bool) (whole : List Char) : Json :=
  let n := digitsValue whole
  if negative then
    if n = 0 ∨ ¬FitsInt64 (-n) then decimal true whole [] 0 else int (-n)
  else if n < UInt64.size then int n else decimal false whole [] 0

/-- A non-empty run of digits, and the text after it. -/
def digits? (cs : List Char) : Option (List Char × List Char) :=
  let ds := cs.takeWhile Char.isDigit
  if ds.isEmpty then none else some (ds, cs.dropWhile Char.isDigit)

/-- The exponent of a number, if there is one, and the text after it. -/
def exponent? (cs : List Char) : Option (Option Int × List Char) :=
  match cs with
  | e :: rest =>
    if e = 'e' ∨ e = 'E' then
      match rest with
      | '-' :: ds => (digits? ds).map fun (d, after) => (some (-(digitsValue d : Int)), after)
      | '+' :: ds => (digits? ds).map fun (d, after) => (some (digitsValue d : Int), after)
      | ds => (digits? ds).map fun (d, after) => (some (digitsValue d : Int), after)
    else some (none, cs)
  | [] => some (none, cs)

/-- A number after its sign. A whole part that begins with zero has no further digit. -/
def unsigned? (negative : Bool) (cs : List Char) : Option (Json × List Char) := do
  let (whole, rest) ← digits? cs
  if whole.head? = some '0' ∧ whole.length > 1 then none
  else match rest with
    | '.' :: more => do
      let (fraction, rest) ← digits? more
      let (exponent, rest) ← exponent? rest
      return (decimal negative whole fraction (exponent.getD 0), rest)
    | rest => do
      match ← exponent? rest with
      | (some exponent, rest) => return (decimal negative whole [] exponent, rest)
      | (none, rest) => return (integer negative whole, rest)

/-- An object from its members, which stands for nothing if one of the names does. -/
def object (members : List (Option String × Json)) : Json :=
  match members.mapM fun (name, value) => name.map fun n => (n, value) with
  | some named => obj named
  | none => broken

mutual
/-- A value at the front of a text, and the text after it. -/
def value? : Nat → List Char → Option (Json × List Char)
  | 0, _ => none
  | fuel + 1, cs =>
    match skipBlanks cs with
    | '\x7b' :: rest =>
      match skipBlanks rest with
      | '\x7d' :: after => some (obj [], after)
      | _ => (members? fuel rest).map fun (ms, after) => (object ms, after)
    | '[' :: rest =>
      match skipBlanks rest with
      | ']' :: after => some (arr [], after)
      | _ => (items? fuel rest).map fun (js, after) => (arr js, after)
    | '"' :: rest =>
      (stringBody? rest).map fun (s, after) => ((s.map str).getD broken, after)
    | 'n' :: 'u' :: 'l' :: 'l' :: rest => some (null, rest)
    | 't' :: 'r' :: 'u' :: 'e' :: rest => some (bool true, rest)
    | 'f' :: 'a' :: 'l' :: 's' :: 'e' :: rest => some (bool false, rest)
    | '-' :: rest => unsigned? true rest
    | rest => unsigned? false rest

/-- The items of an array up to its closing bracket, of which there is at least one. -/
def items? : Nat → List Char → Option (List Json × List Char)
  | 0, _ => none
  | fuel + 1, cs => do
    let (first, rest) ← value? fuel cs
    match skipBlanks rest with
    | ',' :: more =>
      let (others, after) ← items? fuel more
      return (first :: others, after)
    | ']' :: after => return ([first], after)
    | _ => none

/-- The members of an object up to its closing brace, of which there is at least one. -/
def members? : Nat → List Char → Option (List (Option String × Json) × List Char)
  | 0, _ => none
  | fuel + 1, cs =>
    match skipBlanks cs with
    | '"' :: rest => do
      let (name, rest) ← stringBody? rest
      match skipBlanks rest with
      | ':' :: rest => do
        let (value, rest) ← value? fuel rest
        match skipBlanks rest with
        | ',' :: more =>
          let (others, after) ← members? fuel more
          return ((name, value) :: others, after)
        | '\x7d' :: after => return ([(name, value)], after)
        | _ => none
      | _ => none
    | _ => none
end

/-- The document that a text spells. -/
def parse (text : String) : Option Json :=
  match value? (text.length + 1) text.toList with
  | some (j, rest) => if (skipBlanks rest).isEmpty then some j else none
  | none => none

end Formals.Json
