/-!
# Machine words

Which integers fit in a word of 64 bits. Unsigned words are bounded by core's `UInt32.size` and
`UInt64.size`.
-/

namespace Formals

/-- The integers of 64 bits with a sign. -/
def FitsInt64 (n : Int) : Prop := -0x8000000000000000 ≤ n ∧ n < 0x8000000000000000

instance (n : Int) : Decidable (FitsInt64 n) := inferInstanceAs (Decidable (_ ∧ _))

/-- An integer as a word, if it fits. -/
def int64OfInt? (n : Int) : Option Int64 := if FitsInt64 n then some (Int64.ofInt n) else none

end Formals
