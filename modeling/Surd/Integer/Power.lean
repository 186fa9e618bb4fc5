/-!
# Integer powers of bounded size

A power is computed only if its size, estimated from the bits of the base, is
at most `maxPowerBits`. The bases `-1`, `0` and `1` have powers of one bit
whatever the exponent, and are never refused.
-/

namespace Surd.Integer

/-- The largest estimated size of a power, in bits. -/
def maxPowerBits : Nat := 1 <<< 20

/-- The number of binary digits of a positive number. -/
def bits (n : Nat) : Nat :=
  n.log2 + 1

/-- The power `b ^ k`, unless it is too large to compute. -/
def power? (b : Int) (k : Nat) : Option Int :=
  if k = 0 ∨ b = 1 then some 1
  else if b = 0 then some 0
  else if b = -1 then some (if k % 2 = 1 then -1 else 1)
  else if bits b.natAbs * k > maxPowerBits then none
  else some (b.pow k)

end Surd.Integer
