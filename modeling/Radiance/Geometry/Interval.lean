import Radiance.Scalar

/-!
# Intervals

A range of numbers along one axis.  Interval ends may be infinite, and an interval whose ends are
out of order holds nothing.
-/

namespace Radiance

/-- The range from `min` to `max`, both ends included. -/
@[ext]
structure Interval (α : Type) where
  min : α
  max : α
  deriving Repr, DecidableEq, Inhabited

namespace Interval

variable {α : Type} [Scalar α]

/-- Holds nothing; extending it by a number gives that number alone. -/
def empty : Interval α := ⟨Scalar.infinity, -Scalar.infinity⟩

/-- Holds every number. -/
def everything : Interval α := ⟨-Scalar.infinity, Scalar.infinity⟩

def size (i : Interval α) : α := i.max - i.min

def center (i : Interval α) : α := 0.5 * (i.min + i.max)

/-- Whether the interval has no inner points: a single number counts as empty here. -/
def isEmpty (i : Interval α) : Bool := decide (i.max ≤ i.min)

def isUnbounded (i : Interval α) : Bool := i.min == -Scalar.infinity || i.max == Scalar.infinity

def contains (i : Interval α) (x : α) : Bool := decide (i.min ≤ x) && decide (x ≤ i.max)

/-- The smallest interval around an interval and a number. -/
def extend (i : Interval α) (x : α) : Interval α := ⟨Scalar.min i.min x, Scalar.max i.max x⟩

/-- The smallest interval around two intervals. -/
def surrounding (a b : Interval α) : Interval α :=
  ⟨Scalar.min a.min b.min, Scalar.max a.max b.max⟩

end Interval

end Radiance
