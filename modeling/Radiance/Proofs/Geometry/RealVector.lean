import Radiance.Geometry.Transform
import Radiance.Proofs.Scalar.Exact

/-!
# Real vectors and rays

Exact arithmetic on vectors whose components are real numbers is arithmetic of the reals, component
by component.

## Main definitions

* `Vec3.IsReal`, `Ray.IsReal`: all components are real numbers; `Vec3.ofReal` makes such vectors.
* `Ray.IsProper`, `Ray.IsUnit`: a real ray with a direction, or with a direction of unit length.
* `Transform.localRay`: the ray that an instance hands to the shape inside.
-/

namespace Radiance

/-! ## Components -/

namespace Vec3

variable {α : Type} [Scalar α] (a b c d e f s : α)

@[simp] theorem mk_add : (⟨a, b, c⟩ + ⟨d, e, f⟩ : Vec3 α) = ⟨a + d, b + e, c + f⟩ := rfl

@[simp] theorem mk_sub : (⟨a, b, c⟩ - ⟨d, e, f⟩ : Vec3 α) = ⟨a - d, b - e, c - f⟩ := rfl

@[simp] theorem mk_mul : (⟨a, b, c⟩ * ⟨d, e, f⟩ : Vec3 α) = ⟨a * d, b * e, c * f⟩ := rfl

@[simp] theorem mk_neg : (-⟨a, b, c⟩ : Vec3 α) = ⟨-a, -b, -c⟩ := rfl

@[simp] theorem smul_mk : (s • (⟨a, b, c⟩ : Vec3 α) : Vec3 α) = ⟨s * a, s * b, s * c⟩ := rfl

@[simp] theorem mk_div : ((⟨a, b, c⟩ : Vec3 α) / s : Vec3 α) = ⟨a / s, b / s, c / s⟩ := rfl

end Vec3

namespace Vec4

variable {α : Type} [Scalar α] (a b c d e f g h s : α)

@[simp] theorem mk_add :
    (⟨a, b, c, d⟩ + ⟨e, f, g, h⟩ : Vec4 α) = ⟨a + e, b + f, c + g, d + h⟩ := rfl

@[simp] theorem mk_sub :
    (⟨a, b, c, d⟩ - ⟨e, f, g, h⟩ : Vec4 α) = ⟨a - e, b - f, c - g, d - h⟩ := rfl

@[simp] theorem mk_mul :
    (⟨a, b, c, d⟩ * ⟨e, f, g, h⟩ : Vec4 α) = ⟨a * e, b * f, c * g, d * h⟩ := rfl

@[simp] theorem smul_mk :
    (s • (⟨a, b, c, d⟩ : Vec4 α) : Vec4 α) = ⟨s * a, s * b, s * c, s * d⟩ := rfl

end Vec4

variable {z : ZeroSign}

namespace Vec3

open Exact

/-- A vector of real numbers as a vector of exact scalars. -/
def ofReal (v : Vec3 ℝ) : Vec3 (Exact z) := ⟨number v.x, number v.y, number v.z⟩

theorem ofReal_inj {v w : Vec3 ℝ} :
    (ofReal v : Vec3 (Exact z)) = ofReal w ↔ v.x = w.x ∧ v.y = w.y ∧ v.z = w.z := by
  simp only [ofReal, Vec3.mk.injEq, number_inj]

/-- All components are real numbers. -/
def IsReal (v : Vec3 (Exact z)) : Prop := ∃ x y t : ℝ, v = ⟨number x, number y, number t⟩

theorem isReal_iff {v : Vec3 (Exact z)} : v.IsReal ↔ ∃ w : Vec3 ℝ, v = ofReal w :=
  ⟨fun ⟨x, y, t, h⟩ => ⟨⟨x, y, t⟩, h⟩, fun ⟨w, h⟩ => ⟨w.x, w.y, w.z, h⟩⟩

section

variable {u v : Vec3 (Exact z)}

theorem IsReal.sub (hu : u.IsReal) (hv : v.IsReal) : (u - v).IsReal := by
  obtain ⟨a, b, c, rfl⟩ := hu
  obtain ⟨d, e, f, rfl⟩ := hv
  exact ⟨_, _, _, rfl⟩

theorem IsReal.cross (hu : u.IsReal) (hv : v.IsReal) : (u.cross v).IsReal := by
  obtain ⟨a, b, c, rfl⟩ := hu
  obtain ⟨d, e, f, rfl⟩ := hv
  exact ⟨_, _, _, rfl⟩

theorem IsReal.dot (hu : u.IsReal) (hv : v.IsReal) : ∃ x : ℝ, u.dot v = number x := by
  obtain ⟨a, b, c, rfl⟩ := hu
  obtain ⟨d, e, f, rfl⟩ := hv
  exact ⟨_, rfl⟩

end

/-! ### Laws of arithmetic -/

section

variable {t w : Vec3 (Exact z)} (a b c : Vec3 (Exact z))

protected theorem add_assoc : a + b + c = a + (b + c) :=
  Vec3.ext (Exact.add_assoc _ _ _) (Exact.add_assoc _ _ _) (Exact.add_assoc _ _ _)

protected theorem zero_add : zero + a = a :=
  Vec3.ext (Exact.zero_add _) (Exact.zero_add _) (Exact.zero_add _)

protected theorem add_zero : a + zero = a :=
  Vec3.ext (Exact.add_zero _) (Exact.add_zero _) (Exact.add_zero _)

protected theorem one_mul : one * a = a :=
  Vec3.ext (Exact.one_mul _) (Exact.one_mul _) (Exact.one_mul _)

theorem isReal_one : (one : Vec3 (Exact z)).IsReal := ⟨1, 1, 1, by simp [one, splat]⟩

theorem IsReal.mul (ht : t.IsReal) (hw : w.IsReal) : (t * w).IsReal := by
  obtain ⟨x, y, r, rfl⟩ := ht
  obtain ⟨x', y', r', rfl⟩ := hw
  exact ⟨_, _, _, rfl⟩

theorem IsReal.mul_add (ht : t.IsReal) : t * (a + b) = t * a + t * b := by
  obtain ⟨x, y, r, rfl⟩ := ht
  exact Vec3.ext (number_mul_add _ _ _) (number_mul_add _ _ _) (number_mul_add _ _ _)

theorem IsReal.mul_mul (ht : t.IsReal) (hw : w.IsReal) : t * w * a = t * (w * a) := by
  obtain ⟨x, y, r, rfl⟩ := ht
  obtain ⟨x', y', r', rfl⟩ := hw
  exact Vec3.ext (number_mul_number_mul _ _ _) (number_mul_number_mul _ _ _)
    (number_mul_number_mul _ _ _)

end

theorem length_mk (x y t : ℝ) :
    (⟨number x, number y, number t⟩ : Vec3 (Exact z)).length =
      number √(x * x + y * y + t * t) := by
  simp only [length, lengthSquared, dot, number_mul, number_add]
  exact sqrt_number _ (by nlinarith [mul_self_nonneg x, mul_self_nonneg y, mul_self_nonneg t])

theorem length_mk_eq_one {x y t : ℝ} :
    (⟨number x, number y, number t⟩ : Vec3 (Exact z)).length = 1 ↔ x * x + y * y + t * t = 1 := by
  rw [length_mk, one_eq, number_inj, Real.sqrt_eq_one]

theorem mk_div_number (x y t : ℝ) {s : ℝ} (hs : s ≠ 0) :
    ((⟨number x, number y, number t⟩ : Vec3 (Exact z)) / (number s : Exact z) : Vec3 (Exact z)) =
      ⟨number (x / s), number (y / s), number (t / s)⟩ := by
  simp only [mk_div, number_div _ _ hs]

/-- The length of a vector that is not zero is positive, and dividing by it leaves a real vector of
unit length. -/
theorem IsReal.div_length {v : Vec3 (Exact z)} (hv : v.IsReal) (hne : v ≠ .zero) :
    ∃ s : ℝ, 0 < s ∧ v.length = number s ∧ (v / v.length).IsReal ∧
      (v / v.length).length = 1 := by
  obtain ⟨x, y, t, rfl⟩ := hv
  have hsum : 0 < x * x + y * y + t * t := by
    by_contra hle
    have hx : x = 0 := by nlinarith [mul_self_nonneg x, mul_self_nonneg y, mul_self_nonneg t]
    have hy : y = 0 := by nlinarith [mul_self_nonneg x, mul_self_nonneg y, mul_self_nonneg t]
    have ht : t = 0 := by nlinarith [mul_self_nonneg x, mul_self_nonneg y, mul_self_nonneg t]
    exact hne (by simp [zero, splat, hx, hy, ht])
  have hs : 0 < √(x * x + y * y + t * t) := Real.sqrt_pos.2 hsum
  refine ⟨_, hs, length_mk x y t, ?_⟩
  rw [length_mk, mk_div_number _ _ _ hs.ne']
  refine ⟨⟨_, _, _, rfl⟩, length_mk_eq_one.2 ?_⟩
  rw [div_mul_div_comm, div_mul_div_comm, div_mul_div_comm, ← add_div, ← add_div,
    Real.mul_self_sqrt hsum.le, div_self hsum.ne']

end Vec3

/-! ## Rays -/

namespace Ray

/-- Origin and direction are real. -/
structure IsReal (r : Ray (Exact z)) : Prop where
  origin : r.origin.IsReal
  direction : r.direction.IsReal

/-- A real ray that leads somewhere. -/
structure IsProper (r : Ray (Exact z)) : Prop extends IsReal r where
  ne_zero : r.direction ≠ .zero

/-- A real ray whose direction has unit length. -/
structure IsUnit (r : Ray (Exact z)) : Prop extends IsReal r where
  length_eq : r.direction.length = 1

theorem IsUnit.isProper {r : Ray (Exact z)} (h : r.IsUnit) : r.IsProper := by
  refine ⟨h.toIsReal, fun hzero => ?_⟩
  have hlength := h.length_eq
  rw [hzero, Vec3.zero, Vec3.splat, Exact.zero_eq, Vec3.length_mk_eq_one] at hlength
  norm_num at hlength

/-- A real ray that moves along all three axes. -/
structure IsOblique (r : Ray (Exact z)) : Prop extends IsReal r where
  x_ne_zero : r.direction.x ≠ 0
  y_ne_zero : r.direction.y ≠ 0
  z_ne_zero : r.direction.z ≠ 0

theorem IsOblique.isProper {r : Ray (Exact z)} (h : r.IsOblique) : r.IsProper :=
  ⟨h.toIsReal, fun hzero => h.x_ne_zero (by rw [hzero, Vec3.zero, Vec3.splat])⟩

/-- The point at a real distance along a real ray. -/
theorem IsReal.pointAt {r : Ray (Exact z)} (h : r.IsReal) (t : ℝ) :
    (r.pointAt (.number t)).IsReal := by
  obtain ⟨⟨a, b, c, ho⟩, ⟨d, e, f, hd⟩⟩ := h
  rw [Ray.pointAt, ho, hd]
  exact ⟨_, _, _, rfl⟩

/-- The ray in a direction that has the origin of space at a distance in front of it. -/
noncomputable def towardsOrigin (d : Vec3 ℝ) (a : ℝ) : Ray (Exact z) :=
  ⟨(.number (-a) : Exact z) • .ofReal d, .ofReal d, 0⟩

theorem isUnit_towardsOrigin {d : Vec3 ℝ} (h : d.x * d.x + d.y * d.y + d.z * d.z = 1) (a : ℝ) :
    (towardsOrigin d a : Ray (Exact z)).IsUnit :=
  ⟨⟨⟨_, _, _, rfl⟩, ⟨_, _, _, rfl⟩⟩, Vec3.length_mk_eq_one.2 h⟩

theorem isOblique_towardsOrigin {d : Vec3 ℝ} (hx : d.x ≠ 0) (hy : d.y ≠ 0) (hz : d.z ≠ 0) (a : ℝ) :
    (towardsOrigin d a : Ray (Exact z)).IsOblique := by
  refine ⟨⟨⟨_, _, _, rfl⟩, ⟨_, _, _, rfl⟩⟩, ?_, ?_, ?_⟩ <;> simpa [towardsOrigin, Vec3.ofReal]

end Ray

/-! ## The rays of instances -/

namespace Transform

variable {α : Type} [Scalar α]

/-- The ray in the space of a placed shape, with a direction of unit length. -/
def localRay (t : Transform α) (ray : Ray α) : Ray α :=
  { t.inverseRay ray with
    direction := (t.inverseRay ray).direction / (t.inverseRay ray).direction.length }

/-- The factor from distances along a ray to distances along the local ray. -/
def rayScale (t : Transform α) (ray : Ray α) : α := (t.inverseRay ray).direction.length

end Transform

open Exact

theorem Vec4.exists_numbers {v : Vec4 (Exact z)} (h : v.isFinite = true) :
    ∃ a b c d : ℝ, v = ⟨number a, number b, number c, number d⟩ := by
  obtain ⟨x, y, t, w⟩ := v
  simp only [isFinite, Bool.and_eq_true] at h
  obtain ⟨a, rfl⟩ := exists_number_of_isFinite h.1.1.1
  obtain ⟨b, rfl⟩ := exists_number_of_isFinite h.1.1.2
  obtain ⟨c, rfl⟩ := exists_number_of_isFinite h.1.2
  obtain ⟨d, rfl⟩ := exists_number_of_isFinite h.2
  exact ⟨a, b, c, d, rfl⟩

theorem Transform.isReal_inverseRay {t : Transform (Exact z)} {ray : Ray (Exact z)}
    (ht : t.inverse.isFinite = true) (hray : ray.IsReal) : (t.inverseRay ray).IsReal := by
  simp only [Matrix4.isFinite, Bool.and_eq_true] at ht
  obtain ⟨_, _, _, _, hx⟩ := Vec4.exists_numbers ht.1.1.1
  obtain ⟨_, _, _, _, hy⟩ := Vec4.exists_numbers ht.1.1.2
  obtain ⟨_, _, _, _, hz⟩ := Vec4.exists_numbers ht.1.2
  obtain ⟨_, _, _, _, hw⟩ := Vec4.exists_numbers ht.2
  obtain ⟨⟨_, _, _, ho⟩, ⟨_, _, _, hd⟩⟩ := hray
  simp only [inverseRay, inversePoint, inverseVector, Matrix4.point, Matrix4.vector, hx, hy, hz, hw,
    ho, hd]
  exact ⟨⟨_, _, _, rfl⟩, ⟨_, _, _, rfl⟩⟩

end Radiance
