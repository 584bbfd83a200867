import Radiance.Vector

/-!
# Rays

Half lines along which light is followed.
-/

namespace Radiance

/-- A half line with the number of bounces that led to it. -/
@[ext]
structure Ray (α : Type) where
  origin : Vec3 α
  direction : Vec3 α
  depth : UInt32 := 0
  deriving Repr, DecidableEq, Inhabited

namespace Ray

variable {α : Type} [Scalar α]

/-- The ray from a point in a direction, brought to unit length. -/
def towards (origin direction : Vec3 α) : Ray α := ⟨origin, direction.normalize, 0⟩

/-- The same ray with another number of bounces. -/
def withDepth (r : Ray α) (depth : UInt32) : Ray α := { r with depth }

/-- The point at a distance along the ray. -/
def pointAt (r : Ray α) (t : α) : Vec3 α := r.origin + t • r.direction

end Ray

end Radiance
