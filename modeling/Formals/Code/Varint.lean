/-!
# Variable-length integers

An unsigned integer is written in groups of seven bits, most significant group first, one group a
byte, and every byte but the last has its high bit set. `read` accepts integers below `2 ^ 64`, also
in longer forms than `write` gives. `zigzag` interleaves the signed 64-bit integers with the
unsigned ones, so that small magnitudes stay short.
-/

namespace Formals.Varint

/-- What is wrong with the bytes of an integer. -/
inductive Fault where
  /-- The bytes end before one with a clear high bit. -/
  | truncated
  /-- The value does not fit in 64 bits. -/
  | overflow
  deriving DecidableEq, Repr

/-- The leading groups, all marked as continued; none for `0`. -/
def continued (n : Nat) : List UInt8 :=
  if n = 0 then [] else continued (n / 128) ++ [UInt8.ofNat (128 + n % 128)]

/-- The shortest form of `n`. -/
def write (n : Nat) : List UInt8 :=
  continued (n / 128) ++ [UInt8.ofNat (n % 128)]

/-- The number of significant bits of `n`. -/
def bitLength (n : Nat) : Nat := if n = 0 then 0 else n.log2 + 1

/-- The number of bytes of `write n`, from the number of its bits. -/
def size (n : Nat) : Nat := (max (bitLength n) 1 + 6) / 7

/-- The greatest value to which another group can be added without leaving 64 bits. -/
def roomForGroup : Nat := UInt64.size / 128 - 1

/-- Reads on from the groups whose value is `acc`, and gives the value with the bytes after it. -/
def readFrom (acc : Nat) : List UInt8 → Except Fault (Nat × List UInt8)
  | [] => .error .truncated
  | b :: rest =>
    if acc > roomForGroup then .error .overflow
    else
      let value := acc * 128 + b.toNat % 128
      if b.toNat < 128 then .ok (value, rest) else readFrom value rest

/-- Reads an integer from the front, and gives it with the bytes after it. -/
def read (bytes : List UInt8) : Except Fault (Nat × List UInt8) := readFrom 0 bytes

/-- The place of a signed integer in the order 0, -1, 1, -2, 2, …. -/
def zigzag (n : Int64) : Nat :=
  if n.toInt < 0 then (-2 * n.toInt - 1).toNat else (2 * n.toInt).toNat

/-- The signed integer at a place of the order 0, -1, 1, -2, 2, …. -/
def unzigzag (n : Nat) : Int64 :=
  if n % 2 = 0 then Int64.ofInt (n / 2 : Nat) else Int64.ofInt (-(n / 2 : Nat) - 1)

end Formals.Varint
