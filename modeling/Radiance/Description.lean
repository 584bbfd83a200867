import Radiance.Camera
import Radiance.Description.Placement
import Radiance.Integrator

/-!
# Scene descriptions

What a scene file says: objects with their parameters and file names, before anything is loaded.

## Main definitions

* `TextureSpec`, `ShapeSpec`, `InstanceSpec`, `LightSpec`, `CameraSpec`, `SamplerSpec`: the parts.
* `Description`: a whole scene file.
-/

namespace Radiance

/-- A texture: a number, a color, or a pattern with parameters. -/
inductive TextureSpec (α : Type)
  | scalar (value : α)
  | color (value : Color α)
  | constant (value : Color α)
  | checkerboard (color₀ color₁ : Color α) (scale : Vec2 α)
  | image (filename : String) (exposure : α) (border : Border) (filter : Filter)
  deriving Repr, DecidableEq, Inhabited

/-- What an instance gives to its shape. -/
structure BindingSpec (α : Type) where
  bsdf : Option (Bsdf (TextureSpec α))
  emission : Option (TextureSpec α)
  transform : List (TransformStep α)
  normal : Option (TextureSpec α)
  deriving Repr, DecidableEq, Inhabited

mutual

/-- A shape. -/
inductive ShapeSpec (α : Type)
  | sphere
  | rectangle
  | mesh (filename : String) (smooth : Bool)
  | group (children : List (InstanceSpec α))
  /-- A shape of the shared table. -/
  | ref (id : String)

/-- A shape with its look and placement. -/
inductive InstanceSpec (α : Type)
  | mk (shape : ShapeSpec α) (binding : BindingSpec α)

end

instance {α : Type} : Inhabited (ShapeSpec α) := ⟨.sphere⟩

def InstanceSpec.shape {α : Type} : InstanceSpec α → ShapeSpec α
  | mk shape _ => shape

def InstanceSpec.binding {α : Type} : InstanceSpec α → BindingSpec α
  | mk _ binding => binding

/-- Induction over the shapes of the children of groups. -/
@[elab_as_elim]
theorem ShapeSpec.induct {α : Type} {motive : ShapeSpec α → Prop} (sphere : motive sphere)
    (rectangle : motive rectangle) (mesh : ∀ filename smooth, motive (mesh filename smooth))
    (group : ∀ children, (∀ child ∈ children, motive child.shape) → motive (group children))
    (ref : ∀ id, motive (ref id)) (s : ShapeSpec α) : motive s :=
  @ShapeSpec.rec α motive (fun child => motive child.shape)
    (fun children => ∀ child ∈ children, motive child.shape) sphere rectangle mesh group ref
    (fun _ _ h => h) nofun (fun _ _ hchild hrest => List.forall_mem_cons.2 ⟨hchild, hrest⟩) s

/-- A light. -/
inductive LightSpec (α : Type)
  | point (position : Vec3 α) (power : Color α)
  | directional (direction : Vec3 α) (intensity : Color α)
  | envmap (texture : TextureSpec α) (transform : List (TransformStep α))
  deriving Repr, DecidableEq, Inhabited

/-- A perspective camera. -/
structure CameraSpec (α : Type) where
  width : UInt32
  height : UInt32
  /-- The angle of view in degrees. -/
  fov : α
  fovAxis : FovAxis
  transform : List (TransformStep α)
  apertureRadius : α
  focusDistance : α
  deriving Repr, DecidableEq, Inhabited

inductive SamplerKind
  | independent | halton
  deriving Repr, DecidableEq, Inhabited

/-- A sampler with its number of samples per pixel. -/
structure SamplerSpec where
  kind : SamplerKind
  count : UInt32
  seed : UInt64
  deriving Repr, DecidableEq, Inhabited

namespace SamplerSpec

def defaultCount : UInt32 := 64

def defaultSeed : UInt64 := 1337

/-- The sampler of a scene file that names none. -/
def standard : SamplerSpec := ⟨.independent, defaultCount, defaultSeed⟩

def withCount (s : SamplerSpec) (count : UInt32) : SamplerSpec := { s with count }

/-- The sampler in its initial state. -/
def source (s : SamplerSpec) : Source :=
  match s.kind with
  | .independent => .independent (.ofSeed s.count s.seed)
  | .halton => .halton (.ofSeed s.count s.seed)

end SamplerSpec

/-- A scene file. -/
structure Description (α : Type) where
  camera : CameraSpec α
  sampler : SamplerSpec
  integrator : Integrator α
  /-- The image to write. -/
  output : Option String
  /-- Shapes that instances refer to, in the order of their names. -/
  shared : List (String × ShapeSpec α)
  instances : List (InstanceSpec α)
  lights : List (LightSpec α)
  deriving Inhabited

end Radiance
