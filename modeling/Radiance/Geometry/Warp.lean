import Radiance.Vector

/-!
# Maps of the unit square

Maps that carry uniform points of the unit square to points of a disk, a hemisphere and a sphere
with a known density.
-/

namespace Radiance.Warp

variable {α : Type} [Scalar α]

/-- The concentric map onto the unit disk. -/
def disk (u : Vec2 α) : Vec2 α :=
  let offset : Vec2 α := (2 : α) • u - Vec2.splat 1
  if offset.x == 0 && offset.y == 0 then Vec2.zero
  else
    let (r, theta) :=
      if Scalar.abs offset.y < Scalar.abs offset.x then
        (offset.x, Scalar.quarterPi * (offset.y / offset.x))
      else (offset.y, Scalar.halfPi - Scalar.quarterPi * (offset.x / offset.y))
    r • (⟨Scalar.cos theta, Scalar.sin theta⟩ : Vec2 α)

/-- Directions of the upper hemisphere with a density in proportion to the cosine. -/
def cosineHemisphere (u : Vec2 α) : Vec3 α :=
  let d := disk u
  ⟨d.x, d.y, Scalar.safeSqrt (1 - d.lengthSquared)⟩

/-- The density of `cosineHemisphere`. -/
def cosineHemispherePdf (w : Vec3 α) : α := Scalar.max w.z 0 * Scalar.invPi

/-- Uniform directions. -/
def sphere (u : Vec2 α) : Vec3 α :=
  let z := 1 - 2 * u.y
  let r := Scalar.safeSqrt (1 - z * z)
  let phi := 2 * Scalar.pi * u.x
  ⟨r * Scalar.cos phi, r * Scalar.sin phi, z⟩

/-- The density of `sphere`. -/
def spherePdf : α := Scalar.invFourPi

end Radiance.Warp
