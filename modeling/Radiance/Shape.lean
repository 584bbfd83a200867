import Radiance.Shape.Analytic
import Radiance.Shape.Mesh

/-!
# Shapes

Geometry as a tree: spheres, rectangles and meshes at the leaves, groups, and instances that place a
shape and give it a look.

## Main definitions

* `Shape`: the tree, with `Shape.boundingBox` and `Shape.centroid`.
* `Shape.intersect`: the nearest hit of a ray.
* `Shape.sampleArea`: a random point of the surface; `AreaError` says why there may be none.
* `Binding.placeSurface`: how an instance carries a surface point to its own space.
-/

namespace Radiance

/-- A shape. -/
inductive Shape (α : Type)
  | sphere
  | rectangle
  | mesh (m : TriangleMesh α)
  | group (children : Array (Shape α)) (hierarchy : Hierarchy α)
  | placed (inner : Shape α) (binding : Binding α)
  deriving Inhabited

variable {α : Type} [Scalar α]

namespace Binding

/-- Whether the normal map, if there is one, has a color at texture coordinates. -/
def mapsAt (b : Binding α) (uv : Vec2 α) : Bool := b.normalMap.all (·.isDefinedAt uv)

/-- The shading frame turned by the normal map, in the space of the inner shape. -/
def applyNormalMap (b : Binding α) (s : Surface α) : Surface α :=
  match b.normalMap with
  | none => s
  | some texture =>
    let m := (2 : α) • texture.evaluate s.uv - Vec3.one
    let mapped := m.x • s.frame.tangent + m.y • s.frame.bitangent + m.z • s.frame.normal
    match mapped.normalize? with
    | none => s
    | some normal => { s with frame := .ofNormal normal }

/-- The frame of a surface carried by a transform.  The tangent keeps its direction and the other
axes are made perpendicular to it; a transform that mirrors space turns the bitangent. -/
def carryFrame (t : Transform α) (tangent bitangent : Vec3 α) : Frame α :=
  let bitangent := if t.determinant < 0 then -bitangent else bitangent
  let tangent := tangent.normalize
  let normal := (tangent.cross bitangent).normalize
  ⟨tangent, normal.cross tangent, normal⟩

/-- A surface point in the space of the instance, and the factor by which area grows around it. -/
def placeSurface (b : Binding α) (s : Surface α) : Surface α × α :=
  let s := b.applyNormalMap s
  match b.transform with
  | none => (s, 1)
  | some t =>
    let tangent := t.applyVector s.frame.tangent
    let bitangent := t.applyVector s.frame.bitangent
    let frame : Frame α :=
      if b.normalMap.isSome then .ofNormal (t.applyNormal s.frame.normal).normalize
      else carryFrame t tangent bitangent
    ({ s with position := t.applyPoint s.position, frame }, (tangent.cross bitangent).length)

/-- The record of a hit inside the instance, which claims it if it has a look of its own or nothing
inside has claimed it.  The normal map is looked up in any case. -/
def claim (b : Binding α) (hit : Hit α) : Hit α :=
  let hit := { hit with isMapped := hit.isMapped && b.mapsAt hit.surface.uv }
  if hit.binding.isNone || b.hasMaterial then { hit with binding := some b } else hit

/-- Queries what an instance holds, in the space of the inner shape. -/
def intersect (b : Binding α) (inner : Ray α → Hit α → Bool × Hit α) (ray : Ray α) (hit : Hit α) :
    Bool × Hit α :=
  match b.transform with
  | none =>
    match inner ray { hit with binding := none } with
    | (true, h) => (true, b.claim { h with surface := b.applyNormalMap h.surface })
    | (false, h) => (false, { h with binding := hit.binding })
  | some t =>
    let moved := t.inverseRay ray
    let scale := moved.direction.length
    let ray := { moved with direction := moved.direction / scale }
    match inner ray { hit with binding := none, t := hit.t * scale } with
    | (true, h) =>
      (true, b.claim { h with t := h.t / scale, surface := (b.placeSurface h.surface).1 })
    | (false, h) => (false, { h with t := hit.t, binding := hit.binding })

end Binding

/-- Why there is no random point of a surface. -/
inductive AreaError
  /-- Meshes and empty groups have no points to offer. -/
  | pointless
  /-- A normal map has no color at the point. -/
  | unmapped
  deriving Repr, DecidableEq, Inhabited

namespace Shape

/-- The box around a shape. -/
def boundingBox : Shape α → Box α
  | sphere => Sphere.boundingBox
  | rectangle => Rectangle.boundingBox
  | mesh m => m.hierarchy.boundingBox
  | group _ hierarchy => hierarchy.boundingBox
  | placed inner b =>
    match b.transform with
    | some t => t.applyBox inner.boundingBox
    | none => inner.boundingBox

/-- The point that stands for a shape when a hierarchy is built. -/
def centroid : Shape α → Vec3 α
  | sphere => .zero
  | rectangle => .zero
  | mesh m => m.hierarchy.centroid
  | group _ hierarchy => hierarchy.centroid
  | placed inner b =>
    match b.transform with
    | some t => t.applyPoint inner.centroid
    | none => inner.centroid

/-- What a hierarchy knows about a shape. -/
def item (s : Shape α) : Item α := ⟨s.boundingBox, s.centroid⟩

/-- The group of a list of shapes. -/
def ofChildren (method : SplitMethod) (children : Array (Shape α)) : Shape α :=
  group children (.build method (children.map item))

/-- Whether a shape has a hit nearer than the record, and the record after the query. -/
def intersect (s : Shape α) (ray : Ray α) (hit : Hit α) : Bool × Hit α :=
  match s with
  | sphere => Sphere.intersect ray hit
  | rectangle => Rectangle.intersect ray hit
  | mesh m => m.intersect ray hit
  | group children hierarchy =>
    let query i hit :=
      if h : i < children.size then children[i].intersect ray hit else (false, hit)
    hierarchy.intersect ray query hit
  | placed inner b => b.intersect (fun ray hit => inner.intersect ray hit) ray hit
  termination_by s

/-- The number of a child picked by a draw from `[0, 1)`. -/
def pick (u : α) (n : Nat) : Nat := Nat.min (Scalar.toNat (u * Scalar.ofNat n)) (n - 1)

/-- A random point of the surface.  The normal maps of all instances around it are looked up, from
the innermost on. -/
def sampleArea {σ : Type} [Sampler σ α] (s : Shape α) : StateM σ (Except AreaError (Surface α)) :=
  match s with
  | sphere => do
    let u ← Sampler.next₂
    return .ok (Sphere.surfaceAt (Warp.sphere u))
  | rectangle => do
    let u ← Sampler.next₂
    return .ok (Rectangle.surfaceAt (2 * u.x - 1) (2 * u.y - 1))
  | mesh _ => return .error .pointless
  | group children _ =>
    if children.size = 0 then return .error .pointless
    else do
      let u ← Sampler.next₁
      let i := pick u children.size
      if h : i < children.size then
        let sample ← children[i].sampleArea
        return sample.map fun p => { p with pdf := p.pdf / Scalar.ofNat children.size }
      else return .error .pointless
  | placed inner b => do
    let sample ← inner.sampleArea
    return sample.bind fun p =>
      let (q, area) := b.placeSurface p
      if !b.mapsAt p.uv then .error .unmapped
      else .ok (if 0 < area then { q with pdf := q.pdf / area } else q)
  termination_by s

end Shape

end Radiance
