/-!
# Counts of 64 bits

Sizes and lengths are natural numbers that never exceed `wordMax` : an operation that would
go beyond it stays there. `powerOfTwo` rounds a requested capacity up to the next power of
two that still fits, so that a position can be reduced to an index by masking.
-/

namespace HttpServer

/-- The largest 64-bit count. -/
def wordMax : Nat := 0xFFFFFFFFFFFFFFFF

/-- The sum of two counts, held at `wordMax`. -/
def saturatingAdd (m n : Nat) : Nat := min (m + n) wordMax

/-- The product of two counts, held at `wordMax`. -/
def saturatingMul (m n : Nat) : Nat := min (m * n) wordMax

/-- The least power of two that is at least `n`, if 64 bits hold it. -/
def nextPowerOfTwo? (n : Nat) : Option Nat :=
  let p := if n ≤ 1 then 1 else 1 <<< ((n - 1).log2 + 1)
  if p ≤ wordMax then some p else none

/-- The least power of two that is at least `n`, or the largest that fits into 64 bits. -/
def powerOfTwo (n : Nat) : Nat :=
  if n ≤ 1 then 1 else (nextPowerOfTwo? n).getD (1 <<< 63)

end HttpServer
