import Radiance.Shape.Hierarchy

/-!
# Triangle meshes

Triangles over shared vertices, with optional normals and texture coordinates.

## Main definitions

* `Mesh.ofParts`: a mesh whose triangles all name existing vertices.
* `Mesh.computeNormals`: vertex normals from the faces around each vertex.
* `Triangle.intersect?`: where a ray meets a triangle.
* `TriangleMesh`: a mesh with its hierarchy, ready for rays.
-/

namespace Radiance

/-- Why there is no mesh. -/
inductive MeshError
  /-- The file at a path cannot be read, and why. -/
  | unreadable (path cause : String)
  | empty (path : String)
  | indexOutOfRange (index vertexCount : Nat)
  /-- A number in the file at a path is too large for a word, which ends the program. -/
  | overflow (path : String)
  deriving Repr, DecidableEq, Inhabited

/-- The text of a mesh error. -/
def MeshError.message : MeshError → String
  | unreadable path cause => s!"Failed to load OBJ file {path}: {cause}"
  | empty path => s!"Mesh {path} contains no triangles"
  | indexOutOfRange index vertexCount =>
    s!"Triangle index {index} out of range for {vertexCount} vertices"
  | overflow path => s!"Index overflow in OBJ file {path}"

/-- Vertices, and triangles as runs of three vertex numbers. -/
structure Mesh (α : Type) where
  positions : Array (Vec3 α)
  normals : Option (Array (Vec3 α))
  uvs : Option (Array (Vec2 α))
  indices : Array Nat
  bounds : Box α
  deriving Repr, DecidableEq, Inhabited

namespace Mesh

variable {α : Type} [Scalar α]

/-- The mesh of its parts.  A vertex number out of range is an error; normals and texture
coordinates that do not match the number of vertices are dropped. -/
def ofParts (positions : Array (Vec3 α)) (indices : Array Nat) (normals : Option (Array (Vec3 α)))
    (uvs : Option (Array (Vec2 α))) : Except MeshError (Mesh α) :=
  match indices.find? (positions.size ≤ ·) with
  | some index => .error (.indexOutOfRange index positions.size)
  | none =>
    .ok
      { positions
        normals := normals.filter (·.size = positions.size)
        uvs := uvs.filter (·.size = positions.size)
        indices
        bounds := .hull positions.toList }

def triangleCount (m : Mesh α) : Nat := m.indices.size / 3

def vertexCount (m : Mesh α) : Nat := m.positions.size

/-- The vertex numbers of a triangle. -/
def triangle (m : Mesh α) (i : Nat) : Nat × Nat × Nat :=
  (m.indices.getD (3 * i) 0, m.indices.getD (3 * i + 1) 0, m.indices.getD (3 * i + 2) 0)

def position (m : Mesh α) (v : Nat) : Vec3 α := m.positions.getD v .zero

/-- The corners of a triangle. -/
def corners (m : Mesh α) (i : Nat) : Vec3 α × Vec3 α × Vec3 α :=
  let (a, b, c) := m.triangle i
  (m.position a, m.position b, m.position c)

def triangleBounds (m : Mesh α) (i : Nat) : Box α :=
  let (a, b, c) := m.corners i
  .hull [a, b, c]

def triangleCentroid (m : Mesh α) (i : Nat) : Vec3 α :=
  let (a, b, c) := m.corners i
  (a + b + c) / (3 : α)

/-- Adds the normal of a face, weighted by its area, to the normals of its corners. -/
def addFaceNormal (m : Mesh α) (normals : Array (Vec3 α)) (i : Nat) : Array (Vec3 α) :=
  let (a, b, c) := m.triangle i
  let p := m.position a
  let n := (m.position b - p).cross (m.position c - p)
  ((normals.modify a (· + n)).modify b (· + n)).modify c (· + n)

/-- The mesh with normals averaged over the faces around each vertex. -/
def computeNormals (m : Mesh α) : Mesh α :=
  let sums := (List.range m.triangleCount).foldl m.addFaceNormal
    (Array.replicate m.vertexCount .zero)
  { m with normals := some (sums.map fun n => n.normalize?.getD .unitZ) }

end Mesh

/-- Where a ray meets a triangle: the distance, and the weights of the second and third corner.
Rays that are nearly parallel to the triangle, and hits before `Scalar.epsilon`, do not count. -/
def Triangle.intersect? {α : Type} [Scalar α] (ray : Ray α) (p₀ p₁ p₂ : Vec3 α) :
    Option (α × Vec2 α) :=
  let edge₁ := p₁ - p₀
  let edge₂ := p₂ - p₀
  let h := ray.direction.cross edge₂
  let det := edge₁.dot h
  if Scalar.abs det < Scalar.epsilon * Scalar.epsilon then none
  else
    let invDet := 1 / det
    let s := ray.origin - p₀
    let u := invDet * s.dot h
    if 0 ≤ u ∧ u ≤ 1 then
      let q := s.cross edge₁
      let v := invDet * ray.direction.dot q
      if v < 0 ∨ 1 < u + v then none
      else
        let t := invDet * edge₂.dot q
        if t ≤ Scalar.epsilon then none else some (t, ⟨u, v⟩)
    else none

/-- A mesh with its hierarchy. -/
structure TriangleMesh (α : Type) where
  mesh : Mesh α
  /-- Whether normals are interpolated over a triangle where the mesh has them. -/
  smooth : Bool
  hierarchy : Hierarchy α
  deriving Repr, DecidableEq, Inhabited

namespace TriangleMesh

variable {α : Type} [Scalar α]

/-- The items of the hierarchy of a mesh. -/
def items (mesh : Mesh α) : Array (Item α) :=
  (Array.range mesh.triangleCount).map fun i => ⟨mesh.triangleBounds i, mesh.triangleCentroid i⟩

def ofMesh (mesh : Mesh α) (smooth : Bool) (method : SplitMethod) : TriangleMesh α :=
  ⟨mesh, smooth, .build method (items mesh)⟩

/-- The surface of a triangle at a point with the given corner weights. -/
def surfaceAt (m : TriangleMesh α) (index : Nat) (position : Vec3 α) (bary : Vec2 α) :
    Surface α :=
  let (i₀, i₁, i₂) := m.mesh.triangle index
  let w : Vec3 α := ⟨1 - bary.x - bary.y, bary.x, bary.y⟩
  let p := m.mesh.position
  let geometric := ((p i₁ - p i₀).cross (p i₂ - p i₀)).normalize
  let normal :=
    match m.mesh.normals, m.smooth with
    | some ns, true =>
      let n i := ns.getD i .zero
      (w.x • n i₀ + w.y • n i₁ + w.z • n i₂).normalize?.getD geometric
    | _, _ => geometric
  let uv :=
    match m.mesh.uvs with
    | some ts =>
      let t i := ts.getD i .zero
      w.x • t i₀ + w.y • t i₁ + w.z • t i₂
    | none => bary
  ⟨position, uv, .ofNormal normal, 0⟩

/-- Queries one triangle. -/
def queryTriangle (m : TriangleMesh α) (ray : Ray α) : Hierarchy.Query α := fun i hit =>
  let (a, b, c) := m.mesh.corners i
  match Triangle.intersect? ray a b c with
  | none => (false, hit)
  | some (t, bary) =>
    if hit.t ≤ t then (false, hit)
    else (true, { hit with t, surface := m.surfaceAt i (ray.pointAt t) bary })

/-- Queries the mesh. -/
def intersect (m : TriangleMesh α) (ray : Ray α) (hit : Hit α) : Bool × Hit α :=
  m.hierarchy.intersect ray (m.queryTriangle ray) hit

end TriangleMesh

end Radiance
