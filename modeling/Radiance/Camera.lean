import Radiance.Geometry.Transform
import Radiance.Geometry.Warp
import Radiance.Random.Sampler

/-!
# Cameras

Primary rays for image positions: a pinhole, or a thin lens that is sharp at one distance.
-/

namespace Radiance

/-- The image axis an angle of view is measured along. -/
inductive FovAxis
  | x | y
  deriving Repr, DecidableEq, Inhabited

/-- A perspective camera; in its own space it sits at the origin and looks along the third axis. -/
structure Camera (α : Type) where
  width : UInt32
  height : UInt32
  toWorld : Transform α
  /-- Half the size of the image plane at unit distance. -/
  extent : Vec2 α
  apertureRadius : α
  focusDistance : α
  deriving Repr, DecidableEq, Inhabited

/-- A primary ray and its weight. -/
structure CameraSample (α : Type) where
  ray : Ray α
  weight : Color α
  deriving Repr, DecidableEq, Inhabited

namespace Camera

variable {α : Type} [Scalar α]

/-- The pinhole camera with an angle of view in degrees. -/
def pinhole (width height : UInt32) (fov : α) (axis : FovAxis) (toWorld : Transform α) :
    Camera α :=
  let tan := Scalar.tan (0.5 * Scalar.radians fov)
  let aspect := Scalar.ofNat width.toNat / Scalar.ofNat (Nat.max height.toNat 1)
  let extent : Vec2 α :=
    match axis with
    | .x => ⟨tan, tan / aspect⟩
    | .y => ⟨tan * aspect, tan⟩
  { width, height, toWorld, extent, apertureRadius := 0, focusDistance := 1 }

/-- The same camera with a lens of a radius, sharp at a distance. -/
def withThinLens (c : Camera α) (apertureRadius focusDistance : α) : Camera α :=
  { c with apertureRadius := Scalar.max apertureRadius 0, focusDistance }

/-- The point of the image plane at unit distance for a position in `[-1, 1]²`. -/
def imagePoint (c : Camera α) (p : Vec2 α) : Vec3 α := ⟨p.x * c.extent.x, p.y * c.extent.y, 1⟩

/-- The ray from a point of the lens through the image of a position in the plane of focus. -/
def rayFrom (c : Camera α) (origin direction : Vec3 α) : CameraSample α :=
  ⟨.towards (c.toWorld.applyPoint origin) (c.toWorld.applyVector direction), .one⟩

/-- Samples a ray for a position in `[-1, 1]²`, first axis to the right and second up. -/
def sampleNormalized {σ : Type} [Sampler σ α] (c : Camera α) (p : Vec2 α) :
    StateM σ (CameraSample α) := do
  let direction := c.imagePoint p
  if 0 < c.apertureRadius then
    let u ← Sampler.next₂
    let lens := c.apertureRadius • Warp.disk u
    let origin : Vec3 α := ⟨lens.x, lens.y, 0⟩
    return c.rayFrom origin (c.focusDistance • direction - origin)
  else return c.rayFrom .zero direction

/-- Samples a ray through a random point of a pixel; the first row is at the top. -/
def sample {σ : Type} [Sampler σ α] (c : Camera α) (pixel : Pixel) :
    StateM σ (CameraSample α) := do
  let u ← Sampler.next₂
  let px := (Scalar.ofNat pixel.x.toNat + u.x) / Scalar.ofNat c.width.toNat
  let py := (Scalar.ofNat pixel.y.toNat + u.y) / Scalar.ofNat c.height.toNat
  c.sampleNormalized ⟨2 * px - 1, 1 - 2 * py⟩

end Camera

end Radiance
