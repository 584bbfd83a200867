import Radiance.Geometry.Interval
import Radiance.Geometry.Ray

/-!
# Axis-aligned boxes

Boxes bound geometry.  A box may be flat, and may reach to infinity.

## Main definitions

* `Box`: an interval on each axis, with `Box.empty` neutral for `Box.surrounding`.
* `Box.rayEntry`: where a ray enters a box, infinity if it never does.
-/

namespace Radiance

/-- An interval on each axis. -/
@[ext]
structure Box (α : Type) where
  x : Interval α
  y : Interval α
  z : Interval α
  deriving Repr, DecidableEq, Inhabited

namespace Box

variable {α : Type} [Scalar α]

/-- Holds nothing. -/
def empty : Box α := ⟨.empty, .empty, .empty⟩

/-- Holds all of space. -/
def everything : Box α := ⟨.everything, .everything, .everything⟩

/-- The box between two opposite corners, given in any order. -/
def ofPoints (a b : Vec3 α) : Box α :=
  let lo := a.min b
  let hi := a.max b
  ⟨⟨lo.x, hi.x⟩, ⟨lo.y, hi.y⟩, ⟨lo.z, hi.z⟩⟩

def min (b : Box α) : Vec3 α := ⟨b.x.min, b.y.min, b.z.min⟩

def max (b : Box α) : Vec3 α := ⟨b.x.max, b.y.max, b.z.max⟩

/-- One of the eight corners: bit `k` of the number picks the upper end on axis `k`. -/
def corner (b : Box α) (i : Nat) : Vec3 α :=
  ⟨if i.testBit 0 then b.x.max else b.x.min,
    if i.testBit 1 then b.y.max else b.y.min,
    if i.testBit 2 then b.z.max else b.z.min⟩

/-- Whether the box has no inner points: flat boxes count as empty here. -/
def isEmpty (b : Box α) : Bool := b.x.isEmpty || b.y.isEmpty || b.z.isEmpty

def isUnbounded (b : Box α) : Bool := b.x.isUnbounded || b.y.isUnbounded || b.z.isUnbounded

/-- The smallest box around a box and a point. -/
def extendPoint (b : Box α) (p : Vec3 α) : Box α :=
  ⟨b.x.extend p.x, b.y.extend p.y, b.z.extend p.z⟩

/-- The smallest box around two boxes. -/
def surrounding (a b : Box α) : Box α :=
  ⟨a.x.surrounding b.x, a.y.surrounding b.y, a.z.surrounding b.z⟩

/-- The smallest box around a list of boxes. -/
def union (boxes : List (Box α)) : Box α := boxes.foldl surrounding empty

/-- The smallest box around a list of points. -/
def hull (points : List (Vec3 α)) : Box α := points.foldl extendPoint empty

def diagonal (b : Box α) : Vec3 α := b.max - b.min

def center (b : Box α) : Vec3 α := ⟨b.x.center, b.y.center, b.z.center⟩

/-- The surface area, zero for a box without inner points. -/
def surfaceArea (b : Box α) : α :=
  if b.isEmpty then 0
  else
    let d := b.diagonal
    2 * (d.x * d.y + d.y * d.z + d.z * d.x)

/-- The axis along which the box is longest, a later axis winning a tie. -/
def longestAxis (b : Box α) : Axis :=
  let d := b.diagonal
  if d.y < d.x ∧ d.z < d.x then .x
  else if d.z < d.y then .y
  else .z

/-- Whether the second box lies inside the first. -/
def contains (b inner : Box α) : Bool :=
  decide (b.x.min ≤ inner.x.min) && decide (b.y.min ≤ inner.y.min) &&
    decide (b.z.min ≤ inner.z.min) && decide (inner.x.max ≤ b.x.max) &&
    decide (inner.y.max ≤ b.y.max) && decide (inner.z.max ≤ b.z.max)

/-- The distance at which a ray enters the box, given the reciprocal of its direction: the latest
of the three slab entries.  It may be negative when the ray starts inside; it is infinite when the
ray misses the box or has left it before `Scalar.epsilon`. -/
def rayEntry (b : Box α) (ray : Ray α) (invDirection : Vec3 α) : α :=
  let t₁ := (b.min - ray.origin) * invDirection
  let t₂ := (b.max - ray.origin) * invDirection
  let near := (t₁.min t₂).maxElement
  let far := (t₁.max t₂).minElement
  if far < near ∨ far < Scalar.epsilon then Scalar.infinity else near

end Box

end Radiance
