import Radiance.Shape.Hit

/-!
# Spheres and rectangles

The unit sphere around the origin and the square `[-1, 1]²` in the plane `z = 0`.  Size and place
come from the instances around them.

## Main definitions

* `Sphere.distance?`: where a ray meets the sphere.
* `Sphere.intersect`, `Rectangle.intersect`: the record after a query.
* `Sphere.surfaceAt`, `Rectangle.surfaceAt`: their surfaces at a point.
-/

namespace Radiance

variable {α : Type} [Scalar α]

namespace Sphere

/-- The surface in the direction of a point. -/
def surfaceAt (p : Vec3 α) : Surface α :=
  let n := p.normalize
  let theta := Scalar.safeAcos (-n.y)
  let phi := Scalar.atan2 (-n.z) n.x + Scalar.pi
  let tangent := Vec3.unitY.cross n
  let frame : Frame α :=
    -- At the poles the direction of longitude is undefined.
    if tangent.lengthSquared < 1e-8 then .ofNormal n
    else
      let tangent := tangent.normalize
      ⟨tangent, n.cross tangent, n⟩
  ⟨n, ⟨phi / (2 * Scalar.pi), theta / Scalar.pi⟩, frame, Scalar.invFourPi⟩

/-- The two distances at which a line with unit direction meets the sphere, the smaller first.  The
root of larger magnitude is computed first, to avoid cancellation. -/
def roots? (ray : Ray α) : Option (α × α) :=
  let b := ray.origin.dot ray.direction
  let c := ray.origin.lengthSquared - 1
  let discriminant := b * b - c
  if discriminant < 0 then none
  else
    let root := Scalar.sqrt discriminant
    let q := if 0 < b then -b - root else -b + root
    let (t₀, t₁) := if q == 0 then (0, 0) else (q, c / q)
    some (if t₁ < t₀ then (t₁, t₀) else (t₀, t₁))

/-- The first distance beyond `Scalar.epsilon` at which a ray meets the sphere. -/
def distance? (ray : Ray α) : Option α :=
  match roots? ray with
  | none => none
  | some (t₀, t₁) =>
    if Scalar.epsilon < t₀ then some t₀
    else if Scalar.epsilon < t₁ then some t₁
    else none

def intersect (ray : Ray α) (hit : Hit α) : Bool × Hit α :=
  match distance? ray with
  | none => (false, hit)
  | some t =>
    if hit.t ≤ t then (false, hit)
    else (true, { hit with t, surface := surfaceAt (ray.pointAt t) })

def boundingBox : Box α := .ofPoints (-Vec3.one) .one

end Sphere

namespace Rectangle

def surfaceAt (x y : α) : Surface α :=
  ⟨⟨x, y, 0⟩, ⟨(x + 1) * 0.5, (y + 1) * 0.5⟩, .standard, 0.25⟩

def intersect (ray : Ray α) (hit : Hit α) : Bool × Hit α :=
  if ray.direction.z == 0 then (false, hit)
  else
    let t := -ray.origin.z / ray.direction.z
    if t < Scalar.epsilon ∨ hit.t ≤ t then (false, hit)
    else
      let p := ray.pointAt t
      if 1 < Scalar.abs p.x ∨ 1 < Scalar.abs p.y then (false, hit)
      else (true, { hit with t, surface := surfaceAt p.x p.y })

def boundingBox : Box α := .ofPoints ⟨-1, -1, 0⟩ ⟨1, 1, 0⟩

end Rectangle

end Radiance
