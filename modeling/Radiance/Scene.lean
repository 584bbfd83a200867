import Radiance.Camera
import Radiance.Shape

/-!
# Scenes

The camera, the geometry and the lights that an image is rendered from.

## Main definitions

* `Scene`: the parts of a scene; `Scene.ofShapes` groups its shapes.
* `Scene.intersect`, `Scene.occluded`: the nearest hit of a ray, and whether anything is in the way.
* `Scene.sampleLight`: a light picked at random.
-/

namespace Radiance

/-- A scene. -/
structure Scene (α : Type) where
  camera : Camera α
  root : Shape α
  lights : Array (Light α) := #[]
  /-- The light seen by rays that leave the scene. -/
  background : Option (EnvironmentMap α) := none
  deriving Inhabited

/-- A light picked at random and the probability of picking it. -/
structure LightChoice (α : Type) where
  light : Light α
  probability : α
  deriving Inhabited

namespace Scene

variable {α : Type} [Scalar α]

/-- The root of a list of shapes: the shape itself if there is only one, and their group if not. -/
def rootOf (shapes : Array (Shape α)) : Shape α :=
  match shapes with
  | #[s] => s
  | _ => .ofChildren .midpoint shapes

def ofShapes (camera : Camera α) (shapes : Array (Shape α)) : Scene α :=
  { camera, root := rootOf shapes }

def withLight (s : Scene α) (light : Light α) : Scene α := { s with lights := s.lights.push light }

/-- The scene with an environment map, which is a light and the background. -/
def withEnvironment (s : Scene α) (map : EnvironmentMap α) : Scene α :=
  { s.withLight (.environment map) with background := some map }

/-- The nearest hit of a ray. -/
def intersect (s : Scene α) (ray : Ray α) : Hit α :=
  (s.root.intersect ray (.unbounded (-ray.direction))).2

/-- Whether anything is hit before a distance. -/
def occluded (s : Scene α) (ray : Ray α) (distance : α) : Bool :=
  (s.root.intersect ray (.within (-ray.direction) (distance * (1 - Scalar.epsilon)))).1

def hasLights (s : Scene α) : Bool := !s.lights.isEmpty

/-- Picks one of the lights, all alike. -/
def sampleLight {σ : Type} [Sampler σ α] (s : Scene α) : StateM σ (Option (LightChoice α)) :=
  if s.lights.size = 0 then return none
  else do
    let u ← Sampler.next₁
    return s.lights[Shape.pick u s.lights.size]?.map fun light =>
      ⟨light, 1 / Scalar.ofNat s.lights.size⟩

/-- The radiance from outside the scene. -/
def evaluateBackground (s : Scene α) (direction : Vec3 α) : Color α :=
  match s.background with
  | none => .zero
  | some map => map.evaluate direction

end Scene

end Radiance
