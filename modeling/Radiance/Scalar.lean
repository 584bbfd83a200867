/-!
# Scalars

The numbers a renderer computes with.  `Scalar` lists the operations and no laws, so the same
geometry can be run on binary32 numbers and reasoned about over an exact model of the reals
with infinities and an undefined value.

## Main definitions

* `Scalar`: the operations, with order and equality following the rules of IEEE 754.
* `Scalar.min`, `Scalar.max`, `Scalar.clamp`: order operations that say what they do with an
  undefined operand.
* `Scalar.epsilon`: the offset below which a distance along a ray does not count.
-/

namespace Radiance

/-- The operations on numbers that rendering needs.  Equality `==` and the two orders are false
whenever an operand is undefined. -/
class Scalar (α : Type) extends Add α, Sub α, Mul α, Div α, Neg α, LT α, LE α, BEq α where
  decidableLT : DecidableLT α
  decidableLE : DecidableLE α
  /-- The number nearest to a natural number. -/
  ofNat : Nat → α
  /-- The number nearest to `m * 10 ^ e`, or to `m / 10 ^ e` if the flag is set. -/
  ofScientific : Nat → Bool → Nat → α
  infinity : α
  pi : α
  sqrt : α → α
  abs : α → α
  floor : α → α
  /-- The magnitude of the first argument under the sign of the second. -/
  copySign : α → α → α
  sin : α → α
  cos : α → α
  tan : α → α
  acos : α → α
  /-- `atan2 y x` is the angle of the point `(x, y)`. -/
  atan2 : α → α → α
  pow : α → α → α
  /-- The integer part, clamped to the range of a word; zero for an undefined number. -/
  toInt64 : α → Int64

namespace Scalar

variable {α : Type} [Scalar α]

instance : DecidableLT α := Scalar.decidableLT
instance : DecidableLE α := Scalar.decidableLE

instance (priority := low) instOfNatScalar {n : Nat} : OfNat α n := ⟨Scalar.ofNat n⟩

instance (priority := low) instOfScientificScalar : OfScientific α := ⟨Scalar.ofScientific⟩

/-! ## Order operations -/

/-- Whether a number is undefined: such a number differs from itself. -/
@[inline] def isNaN (x : α) : Bool := !(x == x)

/-- Whether a number is neither infinite nor undefined. -/
@[inline] def isFinite (x : α) : Bool := decide (abs x < infinity)

/-- The smaller of two numbers; an undefined operand is ignored, and of two equal ones the
first is taken. -/
def min (a b : α) : α := if b < a then b else if isNaN a then b else a

/-- The larger of two numbers; an undefined operand is ignored, and of two equal ones the
first is taken. -/
def max (a b : α) : α := if a < b then b else if isNaN a then b else a

/-- The nearest number of `[lo, hi]`; an undefined number stays undefined. -/
def clamp (x lo hi : α) : α := if x < lo then lo else if hi < x then hi else x

/-! ## Derived numbers and functions -/

/-- The offset that keeps a ray from hitting the surface it starts on, also used to reject
nearly degenerate triangles. -/
def epsilon : α := 3e-4

def halfPi : α := pi / 2

def quarterPi : α := pi / 4

def invPi : α := 1 / pi

/-- The density of a uniformly distributed direction, `1 / (4 π)`. -/
def invFourPi : α := 0.25 * invPi

def sqr (x : α) : α := x * x

/-- The square root, with the small negative numbers that rounding produces read as zero. -/
def safeSqrt (x : α) : α := sqrt (max x 0)

/-- The arc cosine, with arguments just outside `[-1, 1]` moved to the nearest end. -/
def safeAcos (x : α) : α := acos (clamp x (-1) 1)

/-- An angle in degrees as an angle in radians. -/
def radians (degrees : α) : α := degrees * (pi / 180)

/-- The whole part of a number as a natural number, negative numbers giving zero. -/
def toNat (x : α) : Nat := (toInt64 x).toInt.toNat

/-- The whole part of a number as a byte, clamped at both ends. -/
def toByte (x : α) : UInt8 := UInt8.ofNat (Nat.min (toNat x) 255)

end Scalar

end Radiance
