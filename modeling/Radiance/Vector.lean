import Radiance.Scalar

/-!
# Vectors and colors

Pairs and triples of scalars with componentwise arithmetic.  The order in which the products of
`dot` and `cross` are added is part of their definition, because rounded sums depend on it.

## Main definitions

* `Vec2`, `Vec3`: points and directions of the plane and of space; `Color` is a triple of channels.
* `Vec3.dot`, `Vec3.cross`, `Vec3.normalize`: the usual products and the unit vector of a direction.
-/

namespace Radiance

/-- A point or direction of the plane. -/
@[ext]
structure Vec2 (α : Type) where
  x : α
  y : α
  deriving Repr, DecidableEq, Inhabited

/-- A point or direction of space. -/
@[ext]
structure Vec3 (α : Type) where
  x : α
  y : α
  z : α
  deriving Repr, DecidableEq, Inhabited

/-- The three axes of space. -/
inductive Axis
  | x | y | z
  deriving Repr, DecidableEq, Inhabited

/-- The position of an axis in the order `x`, `y`, `z`. -/
def Axis.index : Axis → Nat
  | .x => 0
  | .y => 1
  | .z => 2

/-- Red, green and blue channels of linear radiance. -/
abbrev Color (α : Type) := Vec3 α

namespace Vec2

variable {α : Type} [Scalar α]

instance : Add (Vec2 α) := ⟨fun a b => ⟨a.x + b.x, a.y + b.y⟩⟩
instance : Sub (Vec2 α) := ⟨fun a b => ⟨a.x - b.x, a.y - b.y⟩⟩
instance : Mul (Vec2 α) := ⟨fun a b => ⟨a.x * b.x, a.y * b.y⟩⟩
instance : HSMul α (Vec2 α) (Vec2 α) := ⟨fun s v => ⟨s * v.x, s * v.y⟩⟩

/-- The vector with both components equal. -/
def splat (s : α) : Vec2 α := ⟨s, s⟩

def zero : Vec2 α := splat 0

def lengthSquared (v : Vec2 α) : α := v.x * v.x + v.y * v.y

end Vec2

namespace Vec3

variable {α : Type} [Scalar α]

instance : Add (Vec3 α) := ⟨fun a b => ⟨a.x + b.x, a.y + b.y, a.z + b.z⟩⟩
instance : Sub (Vec3 α) := ⟨fun a b => ⟨a.x - b.x, a.y - b.y, a.z - b.z⟩⟩
instance : Neg (Vec3 α) := ⟨fun a => ⟨-a.x, -a.y, -a.z⟩⟩
instance : Mul (Vec3 α) := ⟨fun a b => ⟨a.x * b.x, a.y * b.y, a.z * b.z⟩⟩
instance : HSMul α (Vec3 α) (Vec3 α) := ⟨fun s v => ⟨s * v.x, s * v.y, s * v.z⟩⟩
instance : HDiv (Vec3 α) α (Vec3 α) := ⟨fun v s => ⟨v.x / s, v.y / s, v.z / s⟩⟩

/-- The vector with all components equal. -/
def splat (s : α) : Vec3 α := ⟨s, s, s⟩

def zero : Vec3 α := splat 0

def one : Vec3 α := splat 1

def unitX : Vec3 α := ⟨1, 0, 0⟩

def unitY : Vec3 α := ⟨0, 1, 0⟩

def unitZ : Vec3 α := ⟨0, 0, 1⟩

def dot (a b : Vec3 α) : α := a.x * b.x + a.y * b.y + a.z * b.z

def cross (a b : Vec3 α) : Vec3 α :=
  ⟨a.y * b.z - b.y * a.z, a.z * b.x - b.z * a.x, a.x * b.y - b.x * a.y⟩

def lengthSquared (v : Vec3 α) : α := v.dot v

def length (v : Vec3 α) : α := Scalar.sqrt v.lengthSquared

/-- The vector times the reciprocal of its length. -/
def normalize (v : Vec3 α) : Vec3 α := (1 / v.length : α) • v

/-- The unit vector of a direction, unless its length has no positive finite reciprocal. -/
def normalize? (v : Vec3 α) : Option (Vec3 α) :=
  let r : α := 1 / v.length
  if Scalar.isFinite r ∧ 0 < r then some (r • v) else none

/-- The smaller component on each axis. -/
def min (a b : Vec3 α) : Vec3 α := ⟨Scalar.min a.x b.x, Scalar.min a.y b.y, Scalar.min a.z b.z⟩

/-- The larger component on each axis. -/
def max (a b : Vec3 α) : Vec3 α := ⟨Scalar.max a.x b.x, Scalar.max a.y b.y, Scalar.max a.z b.z⟩

def minElement (v : Vec3 α) : α := Scalar.min v.x (Scalar.min v.y v.z)

def maxElement (v : Vec3 α) : α := Scalar.max v.x (Scalar.max v.y v.z)

/-- The arithmetic mean of the three channels. -/
def mean (v : Vec3 α) : α := (v.x + v.y + v.z) / 3

/-- The reciprocal on each axis. -/
def recip (v : Vec3 α) : Vec3 α := ⟨1 / v.x, 1 / v.y, 1 / v.z⟩

/-- The component along an axis. -/
def component (v : Vec3 α) : Axis → α
  | .x => v.x
  | .y => v.y
  | .z => v.z

/-! ## Mirror and refracted directions

Both directions point away from the surface. -/

/-- The mirror image of `w` about the normal `n`. -/
def reflect (w n : Vec3 α) : Vec3 α := (2 * n.dot w : α) • n - w

/-- The direction in which `w` continues through a surface with normal `n` on its own side and
relative index of refraction `eta`; zero on total internal reflection. -/
def refract (w n : Vec3 α) (eta : α) : Vec3 α :=
  let invEta := 1 / eta
  let cosI := n.dot w
  let k := 1 - Scalar.sqr invEta * (1 - Scalar.sqr cosI)
  if k < 0 then zero
  else (invEta * cosI - Scalar.sqrt k) • n - invEta • w

end Vec3

end Radiance
