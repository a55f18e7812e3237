import Formals.Text.Bytes

/-!
# Hashing

A fast hash of 64 bits, without a secret: nothing keeps anybody from choosing texts that have one
hash. Bytes are taken in by blocks of sixteen, two words each, and the words of a block are combined
by the halves of their product.
-/

namespace Formals.Cache.Hash

/-- The two halves of a product of 128 bits, combined. -/
def mix (x y : UInt64) : UInt64 :=
  let product := x.toNat * y.toNat
  UInt64.ofNat product ^^^ UInt64.ofNat (product / UInt64.size)

/-- The word that some bytes are, the least significant one first. -/
def word (bytes : List UInt8) : UInt64 := bytes.foldr (fun b rest => rest * 256 + b.toUInt64) 0

/-- The state that a hash of bytes begins with. -/
def seeds : UInt64 × UInt64 := (0x243f6a8885a308d3, 0x13198a2e03707344)

/-- Keeps blocks of zeros from wiping out the state. -/
def salt : UInt64 := 0xa4093822299f31d0

/-- Takes the first blocks into the state, as many as are asked for. -/
def absorb : Nat → List UInt8 → UInt64 × UInt64 → UInt64 × UInt64
  | 0, _, state => state
  | n + 1, bytes, (a, b) =>
    absorb n (bytes.drop 16)
      (b, mix (a ^^^ word (bytes.take 8)) (salt ^^^ word ((bytes.drop 8).take 8)))

/-- The state with two more words. -/
def exclusive (state : UInt64 × UInt64) (first last : List UInt8) : UInt64 × UInt64 :=
  (state.1 ^^^ word first, state.2 ^^^ word last)

/-- The hash of some bytes. The last sixteen bytes are taken in whatever the blocks before them are,
and of fewer bytes the first and the last ones, which may be the same. -/
def ofBytes (bytes : List UInt8) : UInt64 :=
  let n := bytes.length
  let ends (k : Nat) := exclusive seeds (bytes.take k) (bytes.drop (n - k))
  let (a, b) :=
    if 16 < n then
      let last := bytes.drop (n - 16)
      exclusive (absorb ((n - 1) / 16) bytes seeds) (last.take 8) (last.drop 8)
    else if 8 ≤ n then ends 8
    else if 4 ≤ n then ends 4
    else exclusive seeds (bytes.take 1) ((bytes.drop (n / 2)).take 1 ++ bytes.drop (n - 1))
  mix a b ^^^ UInt64.ofNat n

/-- A hash with one more word. -/
def add (hash word : UInt64) : UInt64 := (hash + word) * 0xf1357aea2e62a9c5

/-- A hash with one more text, behind which a byte stands that no text contains. -/
def addText (hash : UInt64) (text : String) : UInt64 :=
  add (add hash (ofBytes (textBytes text))) 0xff

/-- What a hash comes to: its upper bits, which depend on most of what was hashed, become the lower
ones. -/
def finish (hash : UInt64) : UInt64 := hash <<< 26 ||| hash >>> 38

end Formals.Cache.Hash
