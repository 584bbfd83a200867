import Radiance.Scalar.Binary32

/-!
# Radical inverses

The radical inverse of an index mirrors its digits at the radix point.  Consecutive indices give
numbers that are spread evenly over `[0, 1)`.

## Main definitions

* `RadicalInverse.reverse`: the index with its digits reversed, and their number.
* `radicalInverse`: the mirrored number in binary32; `radicalInverse?` refuses base zero.
* `primes`: the bases of successive dimensions.
-/

namespace Radiance

/-- The largest binary32 number below one. -/
def oneMinusEpsilon : Float32 := Float32.ofBits 0x3f7fffff

namespace RadicalInverse

/-- Moves the digits of an index in a base, last digit first, onto the digits already reversed, and
counts them.  A base below two has no digits to move. -/
def reverse (base index reversed : UInt64) (count : Nat) : UInt64 × Nat :=
  if h : 1 < base ∧ 0 < index then
    let next := index / base
    reverse base next (reversed * base + (index - next * base)) (count + 1)
  else (reversed, count)
  termination_by index.toNat
  decreasing_by
    rw [UInt64.toNat_div]
    exact Nat.div_lt_self (UInt64.lt_iff_toNat_lt.1 h.2) (UInt64.lt_iff_toNat_lt.1 h.1)

/-- The product of `count` equal factors, multiplied one after the other. -/
def power (factor : Float) : Nat → Float
  | 0 => 1
  | n + 1 => power factor n * factor

end RadicalInverse

/-- The radical inverse of an index, kept below one. -/
def radicalInverse (base : UInt32) (index : UInt64) : Float32 :=
  let (reversed, count) := RadicalInverse.reverse base.toUInt64 index 0 0
  let scale := RadicalInverse.power (1 / base.toUInt64.toFloat) count
  Scalar.min (reversed.toFloat * scale).toFloat32 oneMinusEpsilon

/-- The radical inverse of an index, if the base can divide it: base zero has the index zero alone,
which has no digits. -/
def radicalInverse? (base : UInt32) (index : UInt64) : Option Float32 :=
  if base = 0 ∧ index ≠ 0 then none else some (radicalInverse base index)

/-- Whether a number has no divisor but one and itself. -/
def isPrime (n : Nat) : Bool := 2 ≤ n && (List.range n).all fun d => d < 2 || n % d ≠ 0

/-- The number of dimensions with a base of their own. -/
def primeCount : Nat := 256

/-- The first `primeCount` primes. -/
def primes : Array UInt32 := (((List.range 1620).filter isPrime).map UInt32.ofNat).toArray

end Radiance
