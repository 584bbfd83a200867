import Radiance.Proofs.Geometry.Entry

/-!
# Invertible affine transforms

In exact arithmetic the inverse that a transform keeps beside its matrix undoes the matrix, so that
the point at a distance along the local ray is the image of the point at the scaled distance along
the ray itself.

## Main definitions

* `Matrix4.IsAffine`: a real matrix that moves points by a linear map and an offset.
* `Transform.IsAffine`: an affine matrix with its inverse.

## Main statements

* `Transform.IsAffine.applyPoint_pointAt`: where a local hit lies on the ray.
-/

namespace Radiance

open Exact

variable {z : ZeroSign}

/-! ## Affine matrices -/

namespace Matrix4

/-- Three real axes and a real origin. -/
def IsAffine (m : Matrix4 (Exact z)) : Prop :=
  ∃ X Y Z O : Vec3 ℝ, m = .ofAxes (.ofReal X) (.ofReal Y) (.ofReal Z) (.ofReal O)

/-- The volume that three axes span. -/
def volume (X Y Z : Vec3 ℝ) : ℝ :=
  X.x * (Y.y * Z.z - Y.z * Z.y) - X.y * (Y.x * Z.z - Y.z * Z.x) + X.z * (Y.x * Z.y - Y.y * Z.x)

variable (X Y Z O : Vec3 ℝ)

theorem determinant_ofAxes :
    (ofAxes (.ofReal X) (.ofReal Y) (.ofReal Z) (.ofReal O) : Matrix4 (Exact z)).determinant =
      number (volume X Y Z) := by
  simp [Vec3.ofReal, ofAxes, determinant, Vec4.dot, volume]
  ring

/-- The inverse of an affine matrix is affine; its rows are the cross products of the axes. -/
theorem inverse_ofAxes (h : volume X Y Z ≠ 0) :
    (ofAxes (.ofReal X) (.ofReal Y) (.ofReal Z) (.ofReal O) : Matrix4 (Exact z)).inverse =
      ofAxes
        (.ofReal ⟨(Y.y * Z.z - Y.z * Z.y) / volume X Y Z, (X.z * Z.y - X.y * Z.z) / volume X Y Z,
          (X.y * Y.z - X.z * Y.y) / volume X Y Z⟩)
        (.ofReal ⟨(Y.z * Z.x - Y.x * Z.z) / volume X Y Z, (X.x * Z.z - X.z * Z.x) / volume X Y Z,
          (X.z * Y.x - X.x * Y.z) / volume X Y Z⟩)
        (.ofReal ⟨(Y.x * Z.y - Y.y * Z.x) / volume X Y Z, (X.y * Z.x - X.x * Z.y) / volume X Y Z,
          (X.x * Y.y - X.y * Y.x) / volume X Y Z⟩)
        (.ofReal ⟨-(volume O Y Z / volume X Y Z), -(volume X O Z / volume X Y Z),
          -(volume X Y O / volume X Y Z)⟩) := by
  -- The expansion of the determinant along the first column, by which every entry is divided.
  have hexpand : X.x * (Y.y * Z.z - Y.z * Z.y) + X.z * (Y.x * Z.y - Y.y * Z.x) +
      X.y * -(Y.x * Z.z - Y.z * Z.x) = volume X Y Z := by
    unfold volume
    ring
  simp only [Vec3.ofReal, ofAxes, inverse, minors, Vec4.dot, zero_eq, one_eq, number_mul,
    number_sub, number_add, number_neg, Vec4.mk_add, Vec4.mk_sub, Vec4.mk_mul, Vec4.smul_mk,
    mul_zero, zero_mul, mul_one, one_mul, sub_zero, add_zero, neg_mul, and_true, hexpand,
    number_div _ _ h, Matrix4.mk.injEq, Vec4.mk.injEq, number_inj]
  refine ⟨⟨?_, ?_, ?_⟩, ⟨?_, ?_, ?_⟩, ⟨?_, ?_, ?_⟩, ⟨?_, ?_, ?_, ?last⟩⟩
  case last =>
    rw [one_div, inv_mul_eq_one₀ h]
    unfold volume
    ring
  all_goals
    simp only [volume]
    ring

theorem point_ofAxes (p : Vec3 ℝ) :
    (ofAxes (.ofReal X) (.ofReal Y) (.ofReal Z) (.ofReal O) : Matrix4 (Exact z)).point (.ofReal p) =
      .ofReal ⟨p.x * X.x + p.y * Y.x + p.z * Z.x + O.x, p.x * X.y + p.y * Y.y + p.z * Z.y + O.y,
        p.x * X.z + p.y * Y.z + p.z * Z.z + O.z⟩ := rfl

theorem vector_ofAxes (v : Vec3 ℝ) :
    (ofAxes (.ofReal X) (.ofReal Y) (.ofReal Z) (.ofReal O) : Matrix4 (Exact z)).vector
        (.ofReal v) =
      .ofReal ⟨v.x * X.x + v.y * Y.x + v.z * Z.x, v.x * X.y + v.y * Y.y + v.z * Z.y,
        v.x * X.z + v.y * Y.z + v.z * Z.z⟩ := rfl

end Matrix4

/-! ## Transforms -/

namespace Transform

variable {t : Transform (Exact z)}

/-- A real affine map beside its inverse. -/
structure IsAffine (t : Transform (Exact z)) : Prop where
  eq_ofMatrix : t = .ofMatrix t.matrix
  matrix : t.matrix.IsAffine
  isInvertible : t.isInvertible = true

theorem IsAffine.exists_axes (ht : t.IsAffine) : ∃ X Y Z O : Vec3 ℝ, Matrix4.volume X Y Z ≠ 0 ∧
    t = .ofMatrix (.ofAxes (.ofReal X) (.ofReal Y) (.ofReal Z) (.ofReal O)) := by
  obtain ⟨X, Y, Z, O, hm⟩ := ht.matrix
  have heq := ht.eq_ofMatrix
  rw [hm] at heq
  refine ⟨X, Y, Z, O, fun hzero => ?_, heq⟩
  have hinv := ht.isInvertible
  rw [heq, Transform.isInvertible, ofMatrix, Matrix4.determinant_ofAxes] at hinv
  simp [hzero] at hinv

section

variable {p v : Vec3 (Exact z)} {ray : Ray (Exact z)}

/-- The image of the preimage of a point is the point. -/
theorem IsAffine.applyPoint_inversePoint (ht : t.IsAffine) (hp : p.IsReal) :
    t.applyPoint (t.inversePoint p) = p := by
  obtain ⟨X, Y, Z, O, hV, rfl⟩ := ht.exists_axes
  obtain ⟨w, rfl⟩ := Vec3.isReal_iff.1 hp
  simp only [applyPoint, inversePoint, ofMatrix, Matrix4.inverse_ofAxes _ _ _ _ hV,
    Matrix4.point_ofAxes, Vec3.ofReal_inj]
  refine ⟨?_, ?_, ?_⟩
  all_goals
    field_simp
    unfold Matrix4.volume
    ring

theorem IsAffine.applyVector_inverseVector (ht : t.IsAffine) (hv : v.IsReal) :
    t.applyVector (t.inverseVector v) = v := by
  obtain ⟨X, Y, Z, O, hV, rfl⟩ := ht.exists_axes
  obtain ⟨w, rfl⟩ := Vec3.isReal_iff.1 hv
  simp only [applyVector, inverseVector, ofMatrix, Matrix4.inverse_ofAxes _ _ _ _ hV,
    Matrix4.vector_ofAxes, Vec3.ofReal_inj]
  refine ⟨?_, ?_, ?_⟩
  all_goals
    field_simp
    unfold Matrix4.volume
    ring

theorem IsAffine.isReal_inverseRay (ht : t.IsAffine) (hray : ray.IsReal) :
    (t.inverseRay ray).IsReal :=
  Transform.isReal_inverseRay (Bool.and_eq_true_iff.1 ht.isInvertible).2 hray

/-- A step along a direction becomes a step along its image. -/
theorem IsAffine.applyPoint_add_smul (ht : t.IsAffine) (hp : p.IsReal) (hv : v.IsReal) (s : ℝ) :
    t.applyPoint (p + (number s : Exact z) • v) =
      t.applyPoint p + (number s : Exact z) • t.applyVector v := by
  obtain ⟨X, Y, Z, O, -, rfl⟩ := ht.exists_axes
  obtain ⟨a, b, c, rfl⟩ := hp
  obtain ⟨d, e, f, rfl⟩ := hv
  simp only [applyPoint, applyVector, ofMatrix, Matrix4.point, Matrix4.vector, Matrix4.ofAxes,
    Vec3.ofReal, Vec4.xyz, Vec3.smul_mk, Vec3.mk_add, Vec4.smul_mk, Vec4.mk_add, number_mul,
    number_add, Vec3.mk.injEq, number_inj]
  refine ⟨?_, ?_, ?_⟩ <;> ring

/-! ### Local rays -/

theorem IsAffine.inverse_direction_ne_zero (ht : t.IsAffine) (hray : ray.IsProper) :
    (t.inverseRay ray).direction ≠ .zero := by
  intro hzero
  obtain ⟨X, Y, Z, O, -, ht'⟩ := ht.exists_axes
  refine hray.ne_zero ?_
  rw [← ht.applyVector_inverseVector hray.direction]
  change t.applyVector (t.inverseRay ray).direction = _
  have hofReal : (.zero : Vec3 (Exact z)) = .ofReal ⟨0, 0, 0⟩ := by
    simp [Vec3.zero, Vec3.splat, Vec3.ofReal]
  rw [hzero, hofReal, ht', applyVector, ofMatrix, Matrix4.vector_ofAxes, Vec3.ofReal_inj]
  simp

theorem IsAffine.exists_rayScale (ht : t.IsAffine) (hray : ray.IsProper) :
    ∃ s : ℝ, 0 < s ∧ t.rayScale ray = number s := by
  obtain ⟨s, hs, hlength, -⟩ := (ht.isReal_inverseRay hray.toIsReal).direction.div_length
    (ht.inverse_direction_ne_zero hray)
  exact ⟨s, hs, hlength⟩

theorem IsAffine.isUnit_localRay (ht : t.IsAffine) (hray : ray.IsProper) :
    (t.localRay ray).IsUnit := by
  have hreal := ht.isReal_inverseRay hray.toIsReal
  obtain ⟨s, hs, -, hdirection, hone⟩ :=
    hreal.direction.div_length (ht.inverse_direction_ne_zero hray)
  exact ⟨⟨hreal.origin, hdirection⟩, hone⟩

/-- The point at a distance along the local ray is the preimage of the point at the distance, in the
scale of the ray, along the ray. -/
theorem IsAffine.applyPoint_pointAt (ht : t.IsAffine) (hray : ray.IsProper) (τ : ℝ) :
    t.applyPoint ((t.localRay ray).pointAt (number τ)) =
      ray.pointAt (number τ / t.rayScale ray) := by
  have hreal := ht.isReal_inverseRay hray.toIsReal
  obtain ⟨s, hs, hscale⟩ := ht.exists_rayScale hray
  have hpoint : (t.localRay ray).pointAt (number τ) =
      (t.inverseRay ray).origin + (number (τ / s) : Exact z) • (t.inverseRay ray).direction := by
    obtain ⟨a, b, c, hd⟩ := hreal.direction
    change _ + (number τ : Exact z) • ((t.inverseRay ray).direction / t.rayScale ray) = _
    rw [hscale, hd, Vec3.mk_div_number _ _ _ hs.ne']
    simp only [Vec3.smul_mk, number_mul, div_mul_eq_mul_div, mul_div_assoc]
    rfl
  rw [hpoint, ht.applyPoint_add_smul hreal.origin hreal.direction, hscale, number_div _ _ hs.ne']
  change t.applyPoint (t.inversePoint ray.origin) +
    (number (τ / s) : Exact z) • t.applyVector (t.inverseVector ray.direction) = _
  rw [ht.applyPoint_inversePoint hray.origin, ht.applyVector_inverseVector hray.direction]
  rfl

end

end Transform

/-! ## Stretching -/

namespace Transform

/-- Stretches all axes by one factor. -/
noncomputable def stretch (s : ℝ) : Transform (Exact z) := .ofMatrix (.scaling (.splat (number s)))

section

variable {s : ℝ} {ray : Ray (Exact z)}

theorem matrix_stretch (s : ℝ) : (stretch s : Transform (Exact z)).matrix =
    .ofAxes (.ofReal ⟨s, 0, 0⟩) (.ofReal ⟨0, s, 0⟩) (.ofReal ⟨0, 0, s⟩) (.ofReal ⟨0, 0, 0⟩) := by
  simp [stretch, ofMatrix, Matrix4.scaling, Matrix4.ofAxes, Vec3.splat, Vec3.ofReal]

theorem applyPoint_stretch (p : Vec3 ℝ) :
    (stretch s : Transform (Exact z)).applyPoint (.ofReal p) =
      .ofReal ⟨p.x * s, p.y * s, p.z * s⟩ := by
  rw [applyPoint, matrix_stretch, Matrix4.point_ofAxes]
  simp

theorem inverse_stretch (hs : s ≠ 0) : (stretch s : Transform (Exact z)).inverse =
    (stretch s⁻¹ : Transform (Exact z)).matrix := by
  have hV : Matrix4.volume ⟨s, 0, 0⟩ ⟨0, s, 0⟩ ⟨0, 0, s⟩ ≠ 0 := by simp [Matrix4.volume, hs]
  change (stretch s : Transform (Exact z)).matrix.inverse = _
  rw [matrix_stretch, matrix_stretch, Matrix4.inverse_ofAxes _ _ _ _ hV]
  simp [Matrix4.volume, Vec3.ofReal, Matrix4.ofAxes]
  field_simp

theorem isAffine_stretch (hs : s ≠ 0) : (stretch s : Transform (Exact z)).IsAffine := by
  refine ⟨rfl, ⟨_, _, _, _, matrix_stretch s⟩, ?_⟩
  have hdet : (stretch s : Transform (Exact z)).determinant = number (s * (s * s)) := by
    change (stretch s : Transform (Exact z)).matrix.determinant = _
    rw [matrix_stretch, Matrix4.determinant_ofAxes]
    simp [Matrix4.volume]
  rw [isInvertible, hdet, inverse_stretch hs, matrix_stretch]
  simp [hs, Matrix4.isFinite, Matrix4.ofAxes, Vec4.isFinite, Vec3.ofReal]

theorem inverseRay_stretch (hs : s ≠ 0) (hray : ray.IsReal) :
    (stretch s).inverseRay ray = ⟨(number s⁻¹ : Exact z) • ray.origin,
      (number s⁻¹ : Exact z) • ray.direction, ray.depth⟩ := by
  obtain ⟨⟨a, b, c, ho⟩, ⟨d, e, f, hd⟩⟩ := hray
  simp only [inverseRay, inversePoint, inverseVector, inverse_stretch hs, matrix_stretch, ho, hd]
  simp [Matrix4.point, Matrix4.vector, Matrix4.ofAxes, Vec3.ofReal, Vec4.xyz, mul_comm]

/-- A unit direction stays, and distances shrink by the factor. -/
theorem localRay_stretch (hs : 0 < s) (hray : ray.IsUnit) :
    (stretch s).rayScale ray = number s⁻¹ ∧
      (stretch s).localRay ray =
        ⟨(number s⁻¹ : Exact z) • ray.origin, ray.direction, ray.depth⟩ := by
  have hinverse := inverseRay_stretch (z := z) hs.ne' hray.toIsReal
  obtain ⟨d, e, f, hd⟩ := hray.direction
  have hunit := hray.length_eq
  rw [hd, Vec3.length_mk_eq_one] at hunit
  have hscale : (stretch s).rayScale ray = number s⁻¹ := by
    rw [rayScale, hinverse, hd]
    simp only [Vec3.smul_mk, number_mul, Vec3.length_mk, number_inj]
    rw [show s⁻¹ * d * (s⁻¹ * d) + s⁻¹ * e * (s⁻¹ * e) + s⁻¹ * f * (s⁻¹ * f) = s⁻¹ * s⁻¹ by
      linear_combination s⁻¹ * s⁻¹ * hunit, Real.sqrt_mul_self (inv_nonneg.2 hs.le)]
  refine ⟨hscale, ?_⟩
  change Ray.mk _ (((stretch s).inverseRay ray).direction / (stretch s).rayScale ray) _ = _
  rw [hscale, hinverse, hd]
  simp only [Vec3.smul_mk, number_mul, Vec3.mk_div_number _ _ _ (inv_ne_zero hs.ne'),
    mul_div_cancel_left₀ _ (inv_ne_zero hs.ne')]

theorem localRay_stretch_towardsOrigin {d : Vec3 ℝ} (hs : 0 < s)
    (hd : d.x * d.x + d.y * d.y + d.z * d.z = 1) (a : ℝ) :
    (stretch s).localRay (.towardsOrigin d a) = (.towardsOrigin d (a / s) : Ray (Exact z)) := by
  rw [(localRay_stretch hs (Ray.isUnit_towardsOrigin hd a)).2]
  simp only [Ray.towardsOrigin, Vec3.ofReal, Vec3.smul_mk, number_mul, Ray.mk.injEq, Vec3.mk.injEq,
    number_inj, and_true]
  refine ⟨?_, ?_, ?_⟩ <;> ring

end

end Transform

end Radiance
