import Radiance.Geometry.Transform

/-!
# Placement of objects

A placement is a list of steps, each applied after the one before.

## Main definitions

* `TransformStep`: one step, with its matrix by `TransformStep.toMatrix`.
* `TransformStep.compose?`: the transform of a list of steps.
-/

namespace Radiance

/-- One step of a placement. -/
inductive TransformStep (α : Type)
  | translate (offset : Vec3 α)
  | scale (factors : Vec3 α)
  /-- A turn by an angle in degrees. -/
  | rotate (axis : Vec3 α) (angle : α)
  | matrix (m : Matrix4 α)
  /-- Puts the origin at a point, the third axis toward a target and the second toward `up`. -/
  | lookAt (origin target up : Vec3 α)
  deriving Repr, DecidableEq, Inhabited

namespace TransformStep

variable {α : Type} [Scalar α]

/-- The unit vector of a direction, or zero if it has none. -/
def direction (v : Vec3 α) : Vec3 α := v.normalize?.getD .zero

/-- The matrix of a step. -/
def toMatrix : TransformStep α → Matrix4 α
  | translate offset => .translate offset
  | scale factors => .scaling factors
  | rotate axis angle => .rotation (direction axis) (Scalar.radians angle)
  | matrix m => m
  | lookAt origin target up =>
    let forward := direction (target - origin)
    let right := direction (forward.cross up)
    .ofAxes right (right.cross forward) forward origin

/-- The transform of a list of steps, none for the empty list. -/
def compose? (steps : List (TransformStep α)) : Option (Transform α) :=
  if steps.isEmpty then none
  else some (.ofMatrix (steps.foldl (fun m step => step.toMatrix * m) .identity))

end TransformStep

end Radiance
