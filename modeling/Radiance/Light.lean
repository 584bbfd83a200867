import Radiance.Geometry.Transform
import Radiance.Geometry.Warp
import Radiance.Random.Sampler
import Radiance.Scattering.Lookup
import Radiance.Texture

/-!
# Lights

Light that surfaces emit and light that comes from outside the geometry.

## Main definitions

* `emittedRadiance`: what a glowing surface emits.
* `EnvironmentMap`: light from all directions, also seen by rays that leave the scene.
* `Light`: the light sources, sampled by `Light.sampleDirect`.
-/

namespace Radiance

variable {α : Type} [Scalar α]

/-- The radiance a glowing surface sends in a local direction: it glows on its front alone. -/
def emittedRadiance (emission : Texture α) (uv : Vec2 α) (wo : Vec3 α) : Color α :=
  if 0 < wo.z then emission.evaluate uv else .zero

/-- The radiance a glowing surface sends in a local direction, if it has a color where it glows. -/
def emittedRadiance? (emission : Texture α) (uv : Vec2 α) (wo : Vec3 α) : Option (Color α) :=
  if 0 < wo.z then emission.evaluate? uv else some .zero

/-- A direction to a light and what arrives from it. -/
structure LightSample (α : Type) where
  /-- The unit direction to the light. -/
  wi : Vec3 α
  /-- The incident radiance over the density of the direction. -/
  weight : Color α
  /-- The distance to the light, infinite for lights at infinity. -/
  distance : α
  deriving Repr, DecidableEq, Inhabited

namespace LightSample

def invalid : LightSample α := ⟨.zero, .zero, 0⟩

def isInvalid (s : LightSample α) : Bool := s.weight.isZero

end LightSample

/-- Light from all directions, given by a texture of longitude and latitude. -/
structure EnvironmentMap (α : Type) where
  texture : Texture α
  transform : Option (Transform α)
  deriving Repr, DecidableEq, Inhabited

namespace EnvironmentMap

/-- The texture coordinates of a direction. -/
def coordinates (e : EnvironmentMap α) (direction : Vec3 α) : Vec2 α :=
  let w :=
    match e.transform with
    | some t => (t.inverseVector direction).normalize
    | none => direction
  ⟨(Scalar.atan2 (-w.z) w.x + Scalar.pi) / (2 * Scalar.pi), Scalar.safeAcos w.y / Scalar.pi⟩

/-- The radiance from a direction. -/
def evaluate (e : EnvironmentMap α) (direction : Vec3 α) : Color α :=
  e.texture.evaluate (e.coordinates direction)

/-- The radiance from a direction, if the texture has a color there. -/
def evaluate? (e : EnvironmentMap α) (direction : Vec3 α) : Option (Color α) :=
  e.texture.evaluate? (e.coordinates direction)

end EnvironmentMap

/-- A light source. -/
inductive Light (α : Type)
  /-- A point that shines equally in all directions. -/
  | point (position : Vec3 α) (intensity : Color α)
  /-- Parallel light from a unit direction, or none if the direction is zero. -/
  | directional (direction : Vec3 α) (intensity : Color α)
  | environment (map : EnvironmentMap α)
  deriving Repr, DecidableEq, Inhabited

namespace Light

/-- The point light with a total power. -/
def ofPower (position : Vec3 α) (power : Color α) : Light α :=
  point position ((Scalar.invFourPi : α) • power)

/-- Parallel light from a direction of any length. -/
def ofDirection (direction : Vec3 α) (intensity : Color α) : Light α :=
  directional (direction.normalize?.getD .zero) intensity

/-- Whether rays can hit the light; such lights are left to the sampling of materials. -/
def canBeIntersected : Light α → Bool
  | environment _ => true
  | _ => false

/-- Samples a direction from a point to the light. -/
def sampleDirect {σ : Type} [Sampler σ α] (light : Light α) (origin : Vec3 α) :
    StateM σ (LightSample α) :=
  match light with
  | point position intensity =>
    let offset := position - origin
    let distance2 := offset.lengthSquared
    if distance2 == 0 then return .invalid
    else
      let distance := Scalar.sqrt distance2
      return ⟨offset / distance, intensity / distance2, distance⟩
  | directional direction intensity =>
    if direction.isZero then return .invalid
    else return ⟨direction, intensity, Scalar.infinity⟩
  | environment map => do
    let u ← Sampler.next₂
    let wi := Warp.sphere u
    return ⟨wi, map.evaluate wi / (Scalar.invFourPi : α), Scalar.infinity⟩

/-- Samples a direction from a point to the light, if the light has a color there. -/
def sampleDirect? {σ : Type} [Sampler σ α] (light : Light α) (origin : Vec3 α) :
    StateM σ (Option (LightSample α)) := do
  let s ← light.sampleDirect origin
  match light with
  | environment map => return (map.evaluate? s.wi).map fun _ => s
  | _ => return some s

end Light

end Radiance
