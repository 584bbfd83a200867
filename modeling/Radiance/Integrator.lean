import Radiance.Scene

/-!
# Light transport

Estimates of the radiance that arrives along a ray.

## Main definitions

* `nextEvent`: the light that arrives from one light picked at random.
* `tracePath`: the radiance along a path of bounces, vertex by vertex.
* `Integrator`: the estimators, run by `Integrator.radiance`.
-/

namespace Radiance

variable {α : Type} [Scalar α] {σ : Type} [Sampler σ α]

/-- The light at a hit from one light picked at random.  Lights that rays can hit are left to the
bounces, so each light is counted by one of the two. -/
def nextEvent (scene : Scene α) (hit : Hit α) : StateM σ (Color α) := do
  match ← scene.sampleLight with
  | none => return .zero
  | some choice =>
    if choice.light.canBeIntersected then return .zero
    else
      let sample ← choice.light.sampleDirect hit.surface.position
      if sample.isInvalid then return .zero
      else if scene.occluded (.towards hit.surface.position sample.wi) sample.distance then
        return .zero
      else return (hit.evaluateBsdf sample.wi * sample.weight) / choice.probability

/-- Follows a path for at most a number of vertices, starting with the radiance gathered so far, the
throughput and the ray to the next vertex. -/
def tracePath (scene : Scene α) : Nat → Color α → Color α → Ray α → UInt32 → StateM σ (Color α)
  | 0, radiance, _, _, _ => return radiance
  | n + 1, radiance, throughput, ray, depth =>
    let hit := scene.intersect ray
    if hit.isHit then
      let radiance := radiance + throughput * hit.emission
      if hit.bsdf?.isNone ∨ n = 0 then return radiance
      else do
        let radiance ←
          if scene.hasLights then do
            let direct ← nextEvent scene hit
            pure (radiance + throughput * direct)
          else pure radiance
        let sample ← hit.sampleBsdf
        if sample.isInvalid then return radiance
        else
          tracePath scene n radiance (throughput * sample.weight)
            ((Ray.towards hit.surface.position sample.wi).withDepth (depth + 1)) (depth + 1)
    else return radiance + throughput * scene.evaluateBackground ray.direction

/-- Emission at the first hit, one light, and the emission that one bounce finds. -/
def directRadiance (scene : Scene α) (ray : Ray α) : StateM σ (Color α) :=
  let hit := scene.intersect ray
  if hit.isHit then
    let radiance := hit.emission
    if hit.bsdf?.isNone then return radiance
    else do
      let radiance ←
        if scene.hasLights then do
          let direct ← nextEvent scene hit
          pure (radiance + direct)
        else pure radiance
      let sample ← hit.sampleBsdf
      if sample.isInvalid then return radiance
      else
        let bounce := (Ray.towards hit.surface.position sample.wi).withDepth (ray.depth + 1)
        let next := scene.intersect bounce
        let incoming :=
          if next.isHit then next.emission else scene.evaluateBackground bounce.direction
        return radiance + sample.weight * incoming
  else return scene.evaluateBackground ray.direction

/-- An estimator of radiance, or a picture of one property of the first hit. -/
inductive Integrator (α : Type)
  /-- Paths of at most a number of vertices. -/
  | pathTracer (maxDepth : UInt32)
  | direct
  /-- The shading normal, moved from `[-1, 1]` to `[0, 1]` on request. -/
  | normals (remap : Bool)
  | albedo
  /-- Nodes and primitives looked at, over a unit. -/
  | traversal (unit : α)
  deriving Repr, DecidableEq, Inhabited

/-- The radiance that arrives along a ray. -/
def Integrator.radiance (integrator : Integrator α) (scene : Scene α) (ray : Ray α) :
    StateM σ (Color α) :=
  match integrator with
  | pathTracer maxDepth => tracePath scene maxDepth.toNat .zero .one ray 0
  | direct => directRadiance scene ray
  | normals remap =>
    let hit := scene.intersect ray
    if hit.isHit then
      let normal := hit.surface.frame.normal
      return if remap then (0.5 : α) • (normal + Vec3.one) else normal
    else return .zero
  | albedo =>
    let hit := scene.intersect ray
    return if hit.isHit then hit.albedo else .zero
  | traversal unit =>
    let stats := (scene.intersect ray).stats
    return ⟨Scalar.ofNat stats.nodes.toNat / unit, Scalar.ofNat stats.primitives.toNat / unit, 0⟩

end Radiance
