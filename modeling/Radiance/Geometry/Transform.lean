import Radiance.Geometry.Box

/-!
# Affine transforms

Four-by-four matrices and the maps of points, directions, normals, rays and boxes they give.  A
transform keeps the inverse matrix beside the matrix, so that no matrix is inverted per ray.

## Main definitions

* `Vec4`, `Matrix4`: columns and matrices, with `Matrix4.determinant` and `Matrix4.inverse`.
* `Transform`: a matrix with its inverse and determinant.
-/

namespace Radiance

/-- A column of a matrix. -/
@[ext]
structure Vec4 (α : Type) where
  x : α
  y : α
  z : α
  w : α
  deriving Repr, DecidableEq, Inhabited

namespace Vec4

variable {α : Type} [Scalar α]

instance : Add (Vec4 α) := ⟨fun a b => ⟨a.x + b.x, a.y + b.y, a.z + b.z, a.w + b.w⟩⟩
instance : Sub (Vec4 α) := ⟨fun a b => ⟨a.x - b.x, a.y - b.y, a.z - b.z, a.w - b.w⟩⟩
instance : Mul (Vec4 α) := ⟨fun a b => ⟨a.x * b.x, a.y * b.y, a.z * b.z, a.w * b.w⟩⟩
instance : HSMul α (Vec4 α) (Vec4 α) := ⟨fun s v => ⟨s * v.x, s * v.y, s * v.z, s * v.w⟩⟩

/-- The sum of the products, the first and third added before the second and fourth. -/
def dot (a b : Vec4 α) : α := (a.x * b.x + a.z * b.z) + (a.y * b.y + a.w * b.w)

def isFinite (v : Vec4 α) : Bool :=
  Scalar.isFinite v.x && Scalar.isFinite v.y && Scalar.isFinite v.z && Scalar.isFinite v.w

/-- The first three components. -/
def xyz (v : Vec4 α) : Vec3 α := ⟨v.x, v.y, v.z⟩

def toList (v : Vec4 α) : List α := [v.x, v.y, v.z, v.w]

end Vec4

/-- A four-by-four matrix by columns. -/
@[ext]
structure Matrix4 (α : Type) where
  x : Vec4 α
  y : Vec4 α
  z : Vec4 α
  w : Vec4 α
  deriving Repr, DecidableEq, Inhabited

namespace Matrix4

variable {α : Type} [Scalar α]

def identity : Matrix4 α := ⟨⟨1, 0, 0, 0⟩, ⟨0, 1, 0, 0⟩, ⟨0, 0, 1, 0⟩, ⟨0, 0, 0, 1⟩⟩

/-- The image of a column. -/
def mulVec (m : Matrix4 α) (v : Vec4 α) : Vec4 α :=
  ((v.x • m.x + v.y • m.y) + v.z • m.z) + v.w • m.w

instance : Mul (Matrix4 α) := ⟨fun m n => ⟨m.mulVec n.x, m.mulVec n.y, m.mulVec n.z, m.mulVec n.w⟩⟩

def transpose (m : Matrix4 α) : Matrix4 α :=
  ⟨⟨m.x.x, m.y.x, m.z.x, m.w.x⟩, ⟨m.x.y, m.y.y, m.z.y, m.w.y⟩,
    ⟨m.x.z, m.y.z, m.z.z, m.w.z⟩, ⟨m.x.w, m.y.w, m.z.w, m.w.w⟩⟩

/-- The image of a point, without a division by the fourth coordinate. -/
def point (m : Matrix4 α) (p : Vec3 α) : Vec3 α :=
  (((p.x • m.x + p.y • m.y) + p.z • m.z) + m.w).xyz

/-- The image of a direction. -/
def vector (m : Matrix4 α) (v : Vec3 α) : Vec3 α :=
  ((v.x • m.x + v.y • m.y) + v.z • m.z).xyz

def isFinite (m : Matrix4 α) : Bool := m.x.isFinite && m.y.isFinite && m.z.isFinite && m.w.isFinite

/-- The entries column by column. -/
def toList (m : Matrix4 α) : List α := m.x.toList ++ m.y.toList ++ m.z.toList ++ m.w.toList

/-- The determinant, expanded along the first column. -/
def determinant (m : Matrix4 α) : α :=
  let ⟨x, y, z, w⟩ := m
  let a₀ := z.z * w.w - z.w * w.z
  let a₁ := z.y * w.w - z.w * w.y
  let a₂ := z.y * w.z - z.z * w.y
  let a₃ := z.x * w.w - z.w * w.x
  let a₄ := z.x * w.z - z.z * w.x
  let a₅ := z.x * w.y - z.y * w.x
  x.dot
    ⟨(y.y * a₀ - y.z * a₁) + y.w * a₂,
      -((y.x * a₀ - y.z * a₃) + y.w * a₄),
      (y.x * a₁ - y.y * a₃) + y.w * a₅,
      -((y.x * a₂ - y.y * a₄) + y.z * a₅)⟩

/-- The minors of two rows that the inverse combines; `r` and `s` pick the rows. -/
def minors (m : Matrix4 α) (r s : Vec4 α → α) : Vec4 α :=
  let p := r m.z * s m.w - r m.w * s m.z
  ⟨p, p, r m.y * s m.w - r m.w * s m.y, r m.y * s m.z - r m.z * s m.y⟩

/-- The inverse by cofactors; a matrix without one gives entries that are not finite. -/
def inverse (m : Matrix4 α) : Matrix4 α :=
  let f₀ := m.minors Vec4.z Vec4.w
  let f₁ := m.minors Vec4.y Vec4.w
  let f₂ := m.minors Vec4.y Vec4.z
  let f₃ := m.minors Vec4.x Vec4.w
  let f₄ := m.minors Vec4.x Vec4.z
  let f₅ := m.minors Vec4.x Vec4.y
  let row (r : Vec4 α → α) : Vec4 α := ⟨r m.y, r m.x, r m.x, r m.x⟩
  let v₀ := row Vec4.x
  let v₁ := row Vec4.y
  let v₂ := row Vec4.z
  let v₃ := row Vec4.w
  let even : Vec4 α := ⟨1, -1, 1, -1⟩
  let odd : Vec4 α := ⟨-1, 1, -1, 1⟩
  let i₀ := even * ((v₁ * f₀ - v₂ * f₁) + v₃ * f₂)
  let i₁ := odd * ((v₀ * f₀ - v₂ * f₃) + v₃ * f₄)
  let i₂ := even * ((v₀ * f₁ - v₁ * f₃) + v₃ * f₅)
  let i₃ := odd * ((v₀ * f₂ - v₁ * f₄) + v₂ * f₅)
  let r := 1 / m.x.dot ⟨i₀.x, i₁.x, i₂.x, i₃.x⟩
  ⟨r • i₀, r • i₁, r • i₂, r • i₃⟩

/-- Moves every point by the same offset. -/
def translate (v : Vec3 α) : Matrix4 α :=
  ⟨⟨1, 0, 0, 0⟩, ⟨0, 1, 0, 0⟩, ⟨0, 0, 1, 0⟩, ⟨v.x, v.y, v.z, 1⟩⟩

/-- Stretches each axis by its own factor. -/
def scaling (v : Vec3 α) : Matrix4 α :=
  ⟨⟨v.x, 0, 0, 0⟩, ⟨0, v.y, 0, 0⟩, ⟨0, 0, v.z, 0⟩, ⟨0, 0, 0, 1⟩⟩

/-- Turns around a unit axis by an angle in radians. -/
def rotation (a : Vec3 α) (angle : α) : Matrix4 α :=
  let s := Scalar.sin angle
  let c := Scalar.cos angle
  let o := 1 - c
  ⟨⟨a.x * a.x * o + c, a.x * a.y * o + a.z * s, a.x * a.z * o - a.y * s, 0⟩,
    ⟨a.x * a.y * o - a.z * s, a.y * a.y * o + c, a.y * a.z * o + a.x * s, 0⟩,
    ⟨a.x * a.z * o + a.y * s, a.y * a.z * o - a.x * s, a.z * a.z * o + c, 0⟩,
    ⟨0, 0, 0, 1⟩⟩

/-- The matrix with three directions and a point as its columns. -/
def ofAxes (x y z origin : Vec3 α) : Matrix4 α :=
  ⟨⟨x.x, x.y, x.z, 0⟩, ⟨y.x, y.y, y.z, 0⟩, ⟨z.x, z.y, z.z, 0⟩, ⟨origin.x, origin.y, origin.z, 1⟩⟩

end Matrix4

/-- A matrix with its inverse and determinant. -/
@[ext]
structure Transform (α : Type) where
  matrix : Matrix4 α
  inverse : Matrix4 α
  determinant : α
  deriving Repr, DecidableEq, Inhabited

namespace Transform

variable {α : Type} [Scalar α]

def identity : Transform α := ⟨.identity, .identity, 1⟩

/-- The transform of a matrix, which need not be invertible. -/
def ofMatrix (m : Matrix4 α) : Transform α := ⟨m, m.inverse, m.determinant⟩

/-- Whether the inverse can be used. -/
def isInvertible (t : Transform α) : Bool := !(t.determinant == 0) && t.inverse.isFinite

def applyPoint (t : Transform α) (p : Vec3 α) : Vec3 α := t.matrix.point p

def applyVector (t : Transform α) (v : Vec3 α) : Vec3 α := t.matrix.vector v

/-- The image of a surface normal, by the transposed inverse. -/
def applyNormal (t : Transform α) (n : Vec3 α) : Vec3 α := t.inverse.transpose.vector n

def inversePoint (t : Transform α) (p : Vec3 α) : Vec3 α := t.inverse.point p

def inverseVector (t : Transform α) (v : Vec3 α) : Vec3 α := t.inverse.vector v

/-- A ray in local coordinates; the direction keeps the scale of the transform. -/
def inverseRay (t : Transform α) (r : Ray α) : Ray α :=
  ⟨t.inversePoint r.origin, t.inverseVector r.direction, r.depth⟩

/-- The box around the images of the eight corners.  Boxes that reach to infinity become all of
space, and boxes with ends out of order stay empty. -/
def applyBox (t : Transform α) (b : Box α) : Box α :=
  if b.isUnbounded then .everything
  else if b.isEmpty ∧ b.diagonal.minElement < 0 then .empty
  else .hull ((List.range 8).map fun i => t.applyPoint (b.corner i))

end Transform

end Radiance
