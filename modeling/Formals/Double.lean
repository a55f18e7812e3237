/-!
# Double precision

The numbers of double precision without their sign, computed in whole numbers. Each is a multiple of
the least one above zero, `2 ^ -1074`, and a `Double` is that multiple, so that equal numbers are
equal terms. `Double.round` rounds to the nearest, ties to even. What it yields is unbounded: a
number that reaches `2 ^ 1024` is out of range, which `Double.inRange` tells.
-/

namespace Formals

/-- The whole number nearest to `p / q`, the even one of two that are equally near. -/
def nearestQuotient (p q : Nat) : Nat :=
  let below := p / q
  let rest := p % q
  if 2 * rest < q ∨ 2 * rest = q ∧ below % 2 = 0 then below else below + 1

/-- A number of double precision that is not negative, as a multiple of `2 ^ -1074`. -/
structure Double where
  units : Nat
  deriving DecidableEq, Repr, Inhabited

namespace Double

/-- How many units make one. -/
def unitsOfOne : Nat := Nat.pow 2 1074

/-- Whether a number is less than `2 ^ 1024`. -/
def inRange (x : Double) : Bool := x.units < Nat.pow 2 1024 * unitsOfOne

/-- The double nearest to `p / q` units: the nearest number of at most 53 binary digits, of which
the last may not be less than one unit. -/
def round (p q : Nat) : Double :=
  let last := Nat.pow 2 (Nat.log2 (p / q) - 52)
  ⟨nearestQuotient p (q * last) * last⟩

/-- The double nearest to a whole number. -/
def ofNat (n : Nat) : Double := round (n * unitsOfOne) 1

/-- The double nearest to a product. -/
def mul (x y : Double) : Double := round (x.units * y.units) unitsOfOne

/-- The double nearest to a quotient. -/
def div (x y : Double) : Double := round (x.units * unitsOfOne) y.units

/-- The double nearest to a power of ten. -/
def powerOfTen (n : Nat) : Double := ofNat (Nat.pow 10 n)

/-- The exponent of the greatest power of ten in range. -/
def maxPower : Nat := 308

/-- The product with a power of ten, if that and the power are in range. Zero always stays zero. -/
def timesPower? (x : Double) (n : Nat) : Option Double :=
  if x.units = 0 then some x
  else if n ≤ maxPower then
    let product := x.mul (powerOfTen n)
    if product.inRange then some product else none
  else none

/-- The quotient by a power of ten. One that is out of range is divided by in steps, each rounded,
until nothing is left. -/
def overPower (x : Double) (n : Nat) : Double :=
  if n ≤ maxPower then x.div (powerOfTen n)
  else if x.units = 0 then x
  else (x.div (powerOfTen maxPower)).overPower (n - maxPower)
termination_by n
decreasing_by simp only [maxPower] at *; omega

/-- The double for `digits * 10 ^ exponent`, if it is in range. The digits, the power of ten and
what they make together are rounded one after the other, so it need not be the nearest. -/
def ofDecimal? (digits : Nat) (exponent : Int) : Option Double :=
  if exponent < 0 then some ((ofNat digits).overPower exponent.natAbs)
  else (ofNat digits).timesPower? exponent.natAbs

end Double
end Formals
