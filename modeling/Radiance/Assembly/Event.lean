import Radiance.Decimal
import Radiance.Shape

/-!
# Events of an assembly

What is reported while a scene is read and built.

## Main definitions

* `Event`: the things reported, with `Event.message`.
* `Shape.buildEvents`: what is reported of a shape that has just been built.
-/

namespace Radiance

/-- Something that happened while a scene was read or built. -/
inductive Event (α : Type)
  | sceneRead (path : String) (instances lights shared : Nat)
  | meshRead (path : String) (vertices triangles : Nat) (hasNormals hasUvs : Bool)
  | meshLoaded (path : String) (triangles : Nat)
  | imageRead (path : String) (width height : UInt32) (bytes : Nat)
  | hierarchyBuilt (items nodes : Nat) (method : SplitMethod)
  | groupBuilt (children nodes : Nat)
  | rootGrouped (shapes : Nat)
  /-- The transform of an object collapses space. -/
  | collapse (owner : String) (determinant : α)
  | ready (instances lights images meshes : Nat)
  deriving Repr, DecidableEq, Inhabited

def SplitMethod.name : SplitMethod → String
  | midpoint => "Midpoint"
  | sah => "Sah"

/-- A number of bytes in units of 1024, with one decimal. -/
def kilobytes (bytes : Nat) : String := Binary32.fixedText (Float32.ofNat bytes / 1024) 1

/-- The text of an event. -/
def Event.message : Event Float32 → String
  | sceneRead path instances lights shared =>
    s!"Loaded scene {path}: {instances} instances, {lights} lights, {shared} shared shapes"
  | meshRead path vertices triangles hasNormals hasUvs =>
    s!"Loaded mesh {path}: {vertices} vertices, {triangles} triangles " ++
      s!"(normals: {hasNormals}, uvs: {hasUvs})"
  | meshLoaded path triangles => s!"Loaded mesh {path}: {triangles} triangles"
  | imageRead path width height bytes =>
    s!"Loaded image: {path} ({width}x{height}, {kilobytes bytes} KB)"
  | hierarchyBuilt items nodes method =>
    s!"Built BVH over {items} primitives: {nodes} nodes ({method.name})"
  | groupBuilt children nodes => s!"built group bvh: {children} children, {nodes} nodes"
  | rootGrouped shapes => s!"Building BVH over {shapes} shapes"
  | collapse owner determinant =>
    s!"Transform of {owner} collapses space (determinant {Binary32.text determinant})"
  | ready instances lights images meshes =>
    s!"Scene ready: {instances} instances, {lights} lights, {images} images, {meshes} meshes"

variable {α : Type} [Scalar α]

/-- What is reported of a hierarchy; the empty one is not mentioned. -/
def Hierarchy.buildEvents (h : Hierarchy α) (method : SplitMethod) : List (Event α) :=
  if h.indices.isEmpty then [] else [.hierarchyBuilt h.indices.size h.nodes.size method]

/-- What is reported of a shape that has just been built by midpoints. -/
def Shape.buildEvents : Shape α → List (Event α)
  | mesh m => m.hierarchy.buildEvents .midpoint
  | group children hierarchy =>
    hierarchy.buildEvents .midpoint ++ [.groupBuilt children.size hierarchy.nodes.size]
  | _ => []

end Radiance
