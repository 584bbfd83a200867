import Radiance.Decimal
import Radiance.Description.Decode
import Radiance.Json.Reader

/-!
# Checks on scene descriptions

What a description has to say before a scene can be built from it.

## Main definitions

* `ConfigError`: what can be wrong with a description.
* `Description.validate`: the first thing that is wrong.
* `Description.parse`: the description of a text.
-/

namespace Radiance

/-- What is wrong with a scene description. -/
inductive ConfigError (α : Type)
  /-- The file at a path cannot be read, and why. -/
  | unreadable (path cause : String)
  | malformed
  | missingOutput
  | invalidResolution (width height : UInt32)
  | invalidFov (fov : α)
  | invalidSampleCount
  | invalidDepth
  | unknownReference (id : String)
  | cyclicReference (id : String)
  | multipleBackgrounds (count : Nat)
  | emptyGroup (owner : String)
  | singularTransform (owner : String)
  deriving Repr, DecidableEq, Inhabited

/-- The text of a configuration error. -/
def ConfigError.message : ConfigError Float32 → String
  | unreadable path cause => s!"Failed to read scene file {path}: {cause}"
  | malformed => "Malformed scene description"
  | missingOutput => "The integrator has no output image"
  | invalidResolution width height => s!"Invalid camera resolution {width}x{height}"
  | invalidFov fov =>
    "Field of view must be in (0, 180) degrees, got " ++ Binary32.text fov
  | invalidSampleCount => "Sample count must be at least 1"
  | invalidDepth => "Path depth must be at least 1"
  | unknownReference id => "Unknown shared shape \"" ++ id ++ "\""
  | cyclicReference id => "Shared shape \"" ++ id ++ "\" references itself"
  | multipleBackgrounds count => s!"Only one background light is supported, found {count}"
  | emptyGroup owner => s!"Group in {owner} has no children"
  | singularTransform owner => s!"Transform of {owner} is not invertible"

namespace Description

variable {α : Type} [Scalar α]

mutual

/-- Whether a group without children occurs in a shape. -/
def hasEmptyGroup : ShapeSpec α → Bool
  | .group [] => true
  | .group children => anyEmptyGroup children
  | _ => false

/-- Whether a group without children occurs in one of a list of instances. -/
def anyEmptyGroup : List (InstanceSpec α) → Bool
  | [] => false
  | .mk shape _ :: rest => hasEmptyGroup shape || anyEmptyGroup rest

end

/-- Refuses a shape in which a group has no children. -/
def checkGroups (shape : ShapeSpec α) (owner : String) : Except (ConfigError α) Unit :=
  if hasEmptyGroup shape then .error (.emptyGroup owner) else .ok ()

/-- The number of environment maps. -/
def backgroundCount (d : Description α) : Nat :=
  d.lights.countP fun
    | .envmap _ _ => true
    | _ => false

/-- The first thing that is wrong with a description. -/
def validate (d : Description α) : Except (ConfigError α) Unit := do
  if d.output.isNone then throw .missingOutput
  if d.camera.width = 0 ∨ d.camera.height = 0 then
    throw (.invalidResolution d.camera.width d.camera.height)
  unless 0 < d.camera.fov ∧ d.camera.fov < 180 do throw (.invalidFov d.camera.fov)
  if d.sampler.count = 0 then throw .invalidSampleCount
  if let .pathTracer depth := d.integrator then
    if depth = 0 then throw .invalidDepth
  for (instance_, i) in d.instances.zipIdx do
    checkGroups instance_.shape s!"instance {i}"
  for (id, shape) in d.shared do
    checkGroups shape ("shared shape \"" ++ id ++ "\"")
  if 1 < d.backgroundCount then throw (.multipleBackgrounds d.backgroundCount)

/-- The description of a text. -/
def parse [JsonScalar α] (text : String) : Except (ConfigError α) (Description α) :=
  match (Json.parse? text).bind ofJson? with
  | some d => .ok d
  | none => .error .malformed

end Description

end Radiance
