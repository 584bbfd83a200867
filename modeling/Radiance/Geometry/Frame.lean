import Radiance.Vector

/-!
# Shading frames

An orthonormal basis at a surface point.  In its local coordinates the normal is the third axis, so
angles to the normal are read off the components of a direction.

## Main definitions

* `Frame`: tangent, bitangent and normal, with `Frame.toLocal` and `Frame.toWorld`.
* `Frame.ofNormal`: a basis around a unit normal, without branches.
* `Local.cosTheta` and its relatives: trigonometry of local directions.
-/

namespace Radiance

/-- Tangent, bitangent and normal of a surface point. -/
@[ext]
structure Frame (α : Type) where
  tangent : Vec3 α
  bitangent : Vec3 α
  normal : Vec3 α
  deriving Repr, DecidableEq, Inhabited

namespace Frame

variable {α : Type} [Scalar α]

/-- The axes of space. -/
def standard : Frame α := ⟨.unitX, .unitY, .unitZ⟩

/-- A frame around a unit normal.  The sign of the third component keeps the divisor away from
zero. -/
def ofNormal (n : Vec3 α) : Frame α :=
  let sign := Scalar.copySign 1 n.z
  let a := -1 / (sign + n.z)
  let b := n.x * n.y * a
  { tangent := ⟨1 + sign * n.x * n.x * a, sign * b, -sign * n.x⟩
    bitangent := ⟨b, sign + n.y * n.y * a, -n.y⟩
    normal := n }

/-- A direction of space in the coordinates of the frame. -/
def toLocal (f : Frame α) (w : Vec3 α) : Vec3 α :=
  ⟨w.dot f.tangent, w.dot f.bitangent, w.dot f.normal⟩

/-- A direction in the coordinates of the frame as a direction of space. -/
def toWorld (f : Frame α) (w : Vec3 α) : Vec3 α :=
  w.x • f.tangent + w.y • f.bitangent + w.z • f.normal

end Frame

/-! ## Local trigonometry -/

namespace Local

variable {α : Type} [Scalar α]

def cosTheta (w : Vec3 α) : α := w.z

def cosTheta2 (w : Vec3 α) : α := Scalar.sqr w.z

def absCosTheta (w : Vec3 α) : α := Scalar.abs w.z

def sinTheta2 (w : Vec3 α) : α := Scalar.max (1 - cosTheta2 w) 0

def tanTheta2 (w : Vec3 α) : α := sinTheta2 w / cosTheta2 w

/-- Whether two directions lie on the same side of the surface. -/
def sameHemisphere (a b : Vec3 α) : Bool := decide (0 < a.z * b.z)

end Local

end Radiance
