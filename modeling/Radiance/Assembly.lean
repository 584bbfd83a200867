import Radiance.Assembly.Event
import Radiance.Assets
import Radiance.Description.Validation

/-!
# Assembly of scenes

From a description to a scene.  Meshes and images are read once, shapes of the shared table are
built once, and every reference gets what has been built.

## Main definitions

* `Stock`: what has been read and built so far.
* `Plan`: what a scene is built from, with one operation for each part of a description.
* `Plan.shape`, `Plan.placed`, `Plan.reference`: the recursion through groups and references.
* `Plan.scene`: the scene of a description.
-/

namespace Radiance

/-- Why a scene cannot be loaded. -/
inductive LoadError (α : Type)
  | config (e : ConfigError α)
  | mesh (e : MeshError)
  | texture (e : TextureError)
  deriving Repr, DecidableEq, Inhabited

/-- Whether the error ends the program instead of being reported. -/
def LoadError.halts {α : Type} : LoadError α → Bool
  | mesh (.overflow _) => true
  | _ => false

/-- What has been read and built so far. -/
structure Stock (α : Type) where
  images : ImageCache α := {}
  /-- Meshes by the components of their paths, smooth and flat ones apart. -/
  meshes : List ((List String × Bool) × Shape α) := []
  /-- Finished shapes of the shared table. -/
  shared : List (String × Shape α) := []
  log : List (Event α) := []
  deriving Inhabited

/-- A step of an assembly: it changes the stock, also if it fails. -/
abbrev Assemble (α β : Type) : Type := ExceptT (LoadError α) (StateM (Stock α)) β

/-- What a scene is built from. -/
structure Plan (α : Type) where
  assets : Assets α
  /-- The directory that file names are read from. -/
  base : String
  /-- The shared table. -/
  shared : List (String × ShapeSpec α)

namespace Plan

variable {α : Type}

/-- The part of the shared table that is not being built. -/
def unopened (plan : Plan α) (resolving : List String) : List (String × ShapeSpec α) :=
  plan.shared.filter fun entry => !resolving.contains entry.1

/-- A name that is opened is one that was not open before, so the rest of the table gets smaller. -/
theorem length_unopened_cons {plan : Plan α} {resolving : List String} {id : String}
    {spec : ShapeSpec α} (closed : id ∉ resolving) (found : plan.shared.lookup id = some spec) :
    (plan.unopened (id :: resolving)).length < (plan.unopened resolving).length := by
  unfold unopened
  have key : ∀ table : List (String × ShapeSpec α), table.lookup id = some spec →
      (table.filter fun entry => !(id :: resolving).contains entry.1).length <
        (table.filter fun entry => !resolving.contains entry.1).length := by
    intro table
    have weaker : ∀ rest : List (String × ShapeSpec α),
        (rest.filter fun entry => !(id :: resolving).contains entry.1).length ≤
          (rest.filter fun entry => !resolving.contains entry.1).length := by
      intro rest
      induction rest with
      | nil => simp
      | cons entry rest ih => grind
    induction table with
    | nil => simp
    | cons entry rest ih =>
      obtain ⟨name, value⟩ := entry
      intro found
      have := weaker rest
      by_cases same : id = name <;> grind
  exact key plan.shared found

/-- Adds to the log. -/
def note (events : List (Event α)) : Assemble α Unit :=
  modify fun s => { s with log := s.log ++ events }

variable [Scalar α]

/-- The transform of an object's steps, none for no steps.  A transform that collapses space is an
error. -/
def transform (steps : List (TransformStep α)) (owner : String) :
    Assemble α (Option (Transform α)) :=
  match TransformStep.compose? steps with
  | none => return none
  | some t =>
    if t.isInvertible then return some t
    else do
      note [.collapse owner t.determinant]
      throw (.config (.singularTransform owner))

/-- The image of a file name. -/
def image (plan : Plan α) (filename : String) : Assemble α (Image α) := do
  let cache := (← get).images
  match cache.load plan.assets.image filename with
  | .error e => throw (.texture e)
  | .ok (image, cache') =>
    if (cache.find? filename).isNone then
      note [.imageRead (cache.resolve filename) image.width image.height image.sizeBytes]
    modify fun s => { s with images := cache' }
    return image

/-- The texture of its description. -/
def texture (plan : Plan α) : TextureSpec α → Assemble α (Texture α)
  | .scalar value => return .constant (.splat value)
  | .color value => return .constant value
  | .constant value => return .constant value
  | .checkerboard color₀ color₁ scale => return .checkerboard color₀ color₁ scale
  | .image filename exposure border filter => do
    return .image ⟨← plan.image filename, exposure, border, filter⟩

/-- The texture of a description that may be missing. -/
def texture? (plan : Plan α) : Option (TextureSpec α) → Assemble α (Option (Texture α))
  | none => return none
  | some spec => return some (← plan.texture spec)

/-- What an instance gives to its shape, in the order material, emission, normal map, placement. -/
def binding (plan : Plan α) (spec : BindingSpec α) (owner : String) :
    Assemble α (Binding α) := do
  let bsdf ←
    match spec.bsdf with
    | none => pure none
    | some b => pure (some (← b.mapM plan.texture))
  let emission ← plan.texture? spec.emission
  let normalMap ← plan.texture? spec.normal
  let transform ← transform spec.transform owner
  return { bsdf, emission, transform, normalMap }

/-- The mesh of a file name. -/
def mesh (plan : Plan α) (filename : String) (smooth : Bool) : Assemble α (Shape α) := do
  let path := PathName.join plan.base filename
  let key := (PathName.components path, smooth)
  match (← get).meshes.lookup key with
  | some shape => return shape
  | none =>
    match plan.assets.mesh path with
    | .error e => throw (.mesh e)
    | .ok mesh =>
      let shape := Shape.mesh (.ofMesh mesh smooth .midpoint)
      note ([.meshRead path mesh.vertexCount mesh.triangleCount mesh.normals.isSome
        mesh.uvs.isSome, .meshLoaded path mesh.triangleCount] ++ shape.buildEvents)
      modify fun s => { s with meshes := (key, shape) :: s.meshes }
      return shape

/-- The group of shapes. -/
def group (children : List (Shape α)) : Assemble α (Shape α) := do
  let shape := Shape.ofChildren .midpoint children.toArray
  note shape.buildEvents
  return shape

mutual

/-- The shape of its description, while some names of the shared table are being built. -/
def shape (plan : Plan α) (resolving : List String) (spec : ShapeSpec α) : Assemble α (Shape α) :=
  match spec with
  | .sphere => return .sphere
  | .rectangle => return .rectangle
  | .mesh filename smooth => plan.mesh filename smooth
  | .group children => do group (← plan.children resolving 0 children)
  | .ref id => plan.reference resolving id
  termination_by ((plan.unopened resolving).length, sizeOf spec)

/-- The instance of its description. -/
def placed (plan : Plan α) (resolving : List String) (spec : InstanceSpec α) (owner : String) :
    Assemble α (Shape α) :=
  match spec with
  | .mk shapeSpec bindingSpec => do
    let inner ← plan.shape resolving shapeSpec
    return .placed inner (← plan.binding bindingSpec owner)
  termination_by ((plan.unopened resolving).length, sizeOf spec)

/-- The children of a group, numbered from `i`. -/
def children (plan : Plan α) (resolving : List String) (i : Nat) (specs : List (InstanceSpec α)) :
    Assemble α (List (Shape α)) :=
  match specs with
  | [] => return []
  | spec :: rest => do
    let first ← plan.placed resolving spec s!"group child {i}"
    return first :: (← plan.children resolving (i + 1) rest)
  termination_by ((plan.unopened resolving).length, sizeOf specs)

/-- The shared shape of a name, built only if it has not been built before.  A name that is being
built refers to itself. -/
def reference (plan : Plan α) (resolving : List String) (id : String) : Assemble α (Shape α) := do
  match (← get).shared.lookup id with
  | some shape => return shape
  | none =>
    if _closed : id ∈ resolving then throw (.config (.cyclicReference id))
    else
      match _found : plan.shared.lookup id with
      | none => throw (.config (.unknownReference id))
      | some spec =>
        let shape ← plan.shape (id :: resolving) spec
        modify fun s => { s with shared := (id, shape) :: s.shared }
        return shape
  termination_by ((plan.unopened resolving).length, 0)
  decreasing_by exact Prod.Lex.left _ _ (length_unopened_cons _closed _found)

end

/-- The camera of its description. -/
def camera (spec : CameraSpec α) : Assemble α (Camera α) := do
  let toWorld ← transform spec.transform "camera"
  let pinhole :=
    Camera.pinhole spec.width spec.height spec.fov spec.fovAxis (toWorld.getD .identity)
  return if 0 < spec.apertureRadius then
    pinhole.withThinLens spec.apertureRadius spec.focusDistance else pinhole

/-- The scene with a light added. -/
def light (plan : Plan α) (scene : Scene α) : LightSpec α → Assemble α (Scene α)
  | .point position power => return scene.withLight (.ofPower position power)
  | .directional direction intensity =>
    return scene.withLight (.ofDirection direction intensity)
  | .envmap textureSpec steps => do
    let texture ← plan.texture textureSpec
    return scene.withEnvironment ⟨texture, ← transform steps "envmap"⟩

/-- The instances of a description, numbered from `i`. -/
def instances (plan : Plan α) (i : Nat) : List (InstanceSpec α) → Assemble α (List (Shape α))
  | [] => return []
  | spec :: rest => do
    let first ← plan.placed [] spec s!"instance {i}"
    return first :: (← plan.instances (i + 1) rest)

/-- The scene of a description: the camera, the instances, then the lights. -/
def scene (plan : Plan α) (d : Description α) : Assemble α (Scene α) := do
  let camera ← camera d.camera
  let shapes ← plan.instances 0 d.instances
  let bare := Scene.ofShapes camera shapes.toArray
  if shapes.length ≠ 1 then note (.rootGrouped shapes.length :: bare.root.buildEvents)
  d.lights.foldlM plan.light bare

end Plan

end Radiance
