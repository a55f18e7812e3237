import Formals.Double

/-!
# Decimal text of a double

`Double.text` writes the fewest digits that a double is the nearest to, and of those the digits
nearest to it. A number that is neither very small nor very large has a point among its digits, the
others an exponent after them.
-/

namespace Formals.Double

/-- How many times `10 ^ -1074` a unit is. -/
def unitInDecimal : Nat := Nat.pow 5 1074

/-- A double as `digits * 10 ^ exponent` with `count` digits, if one of the two such decimals around
it rounds to it. The nearer one comes first. -/
def withDigits? (x : Double) (count : Nat) : Option (Nat × Int) :=
  let exact := x.units * unitInDecimal
  let dropped := (Nat.toDigits 10 exact).length - count
  let last := Nat.pow 10 dropped
  let near := nearestQuotient exact last
  let far := if exact < near * last then near - 1 else near + 1
  ([near, far].find? fun digits => round (digits * last) unitInDecimal == x).map fun digits =>
    (digits, (dropped : Int) - 1074)

/-- A double as `digits * 10 ^ exponent` with the fewest digits. Seventeen are always enough. -/
def shortest (x : Double) : Nat × Int :=
  let (digits, exponent) := ((List.range 17).findSome? fun n => x.withDigits? (n + 1)).getD (0, 0)
  if digits % 10 = 0 then (digits / 10, exponent + 1) else (digits, exponent)

/-- Some zeros. -/
def zeros (n : Nat) : List Char := List.replicate n '0'

/-- The digits of a number at their place around the point, or followed by an exponent. -/
def placed (digits : List Char) (exponent : Int) : List Char :=
  let point := digits.length + exponent
  if 0 ≤ exponent ∧ point ≤ 16 then digits ++ zeros exponent.toNat ++ ['.', '0']
  else if 0 < point ∧ point ≤ 16 then digits.take point.toNat ++ '.' :: digits.drop point.toNat
  else if -5 < point ∧ point ≤ 0 then '0' :: '.' :: (zeros (-point).toNat ++ digits)
  else
    let others := digits.drop 1
    digits.take 1 ++ (if others.isEmpty then [] else '.' :: others) ++
      'e' :: (toString (point - 1)).toList

/-- A double as decimal text. -/
def text (x : Double) : String :=
  if x.units = 0 then "0.0"
  else
    let (digits, exponent) := x.shortest
    String.ofList (placed (Nat.toDigits 10 digits) exponent)

end Formals.Double
