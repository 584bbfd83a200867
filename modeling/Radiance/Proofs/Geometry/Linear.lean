import Mathlib.LinearAlgebra.CrossProduct
import Mathlib.LinearAlgebra.Matrix.NonsingularInverse
import Radiance.Proofs.Geometry.Affine

/-!
# Affine transforms as matrices

In exact arithmetic an invertible affine transform is a real matrix with an offset, and what it does
to points, directions, normals and rays is matrix algebra.

## Main definitions

* `Vec3.ofCoords`: a vector of exact scalars by its real coordinates.
* `Coords.length`, `Coords.unit`: the length of real coordinates, and their unit vector.
* `Transform.ofLinear`: the transform of a real matrix and an offset.

## Main statements

* `Transform.IsAffine.exists_ofLinear`: every affine transform is of this form.
* `Transform.mul_ofLinear`: the product of two such transforms.
* `Transform.IsAffine.localRay_mul`, `Transform.IsAffine.rayScale_mul`: rays in nested spaces.
* `Coords.cross_mulVec`: the cross product of two images.
-/

namespace Radiance

open Exact Matrix

variable {z : ZeroSign}

/-! ## Lengths and directions -/

namespace Coords

noncomputable def length (v : Fin 3 → ℝ) : ℝ := √(v ⬝ᵥ v)

/-- The unit vector of a direction. -/
noncomputable def unit (v : Fin 3 → ℝ) : Fin 3 → ℝ := (length v)⁻¹ • v

variable {v : Fin 3 → ℝ} {c : ℝ} {M : Matrix (Fin 3) (Fin 3) ℝ}

theorem length_pos (hv : v ≠ 0) : 0 < length v := by
  refine Real.sqrt_pos.2 (lt_of_le_of_ne ?_ fun h => hv (dotProduct_self_eq_zero.1 h.symm))
  exact Finset.sum_nonneg fun i _ => mul_self_nonneg (v i)

theorem length_smul (c : ℝ) (v : Fin 3 → ℝ) : length (c • v) = |c| * length v := by
  rw [length, length, smul_dotProduct, dotProduct_smul, smul_eq_mul, smul_eq_mul, ← mul_assoc,
    Real.sqrt_mul (mul_self_nonneg c), Real.sqrt_mul_self_eq_abs]

theorem unit_smul (hc : 0 < c) (v : Fin 3 → ℝ) : unit (c • v) = unit v := by
  rw [unit, unit, length_smul, abs_of_pos hc, smul_smul, mul_inv, mul_assoc, mul_comm, mul_assoc,
    mul_inv_cancel₀ hc.ne', mul_one]

theorem length_mul_self (v : Fin 3 → ℝ) : length v * length v = v ⬝ᵥ v :=
  Real.mul_self_sqrt (Finset.sum_nonneg fun i _ => mul_self_nonneg (v i))

theorem unit_dotProduct_unit (hv : v ≠ 0) : unit v ⬝ᵥ unit v = 1 := by
  rw [unit, smul_dotProduct, dotProduct_smul, smul_eq_mul, smul_eq_mul, ← length_mul_self]
  field_simp [(length_pos hv).ne']

theorem unit_eq_self (hv : v ⬝ᵥ v = 1) : unit v = v := by
  rw [unit, length, hv, Real.sqrt_one, inv_one, one_smul]

theorem ne_zero_of_dotProduct_self (hv : v ⬝ᵥ v = 1) : v ≠ 0 := by
  rintro rfl
  simp at hv

theorem unit_ne_zero (hv : v ≠ 0) : unit v ≠ 0 :=
  ne_zero_of_dotProduct_self (unit_dotProduct_unit hv)

theorem mulVec_ne_zero (hM : M.det ≠ 0) (hv : v ≠ 0) : M *ᵥ v ≠ 0 :=
  fun h => hv (eq_zero_of_mulVec_eq_zero hM h)

theorem mulVec_unit (M : Matrix (Fin 3) (Fin 3) ℝ) (v : Fin 3 → ℝ) :
    M *ᵥ unit v = (length v)⁻¹ • (M *ᵥ v) := mulVec_smul M _ v

/-- Only the direction of a vector matters for the direction of its image. -/
theorem unit_mulVec_unit (hv : v ≠ 0) (M : Matrix (Fin 3) (Fin 3) ℝ) :
    unit (M *ᵥ unit v) = unit (M *ᵥ v) := by
  rw [mulVec_unit, unit_smul (inv_pos.2 (length_pos hv))]

theorem length_mul_length_mulVec_unit (hv : v ≠ 0) (M : Matrix (Fin 3) (Fin 3) ℝ) :
    length v * length (M *ᵥ unit v) = length (M *ᵥ v) := by
  rw [mulVec_unit, length_smul, abs_of_pos (inv_pos.2 (length_pos hv)), ← mul_assoc,
    mul_inv_cancel₀ (length_pos hv).ne', one_mul]

/-- What is carried as a normal stays at its angle to what is carried as a direction. -/
theorem normal_dotProduct_mulVec (hM : M.det ≠ 0) (n v : Fin 3 → ℝ) :
    M⁻¹ᵀ *ᵥ n ⬝ᵥ M *ᵥ v = n ⬝ᵥ v := by
  rw [mulVec_transpose, ← dotProduct_mulVec, mulVec_mulVec, nonsing_inv_mul _ hM.isUnit, one_mulVec]

/-- The cross product of two images is the image of the cross product as a normal, scaled by the
determinant. -/
theorem cross_mulVec (hM : M.det ≠ 0) (u v : Fin 3 → ℝ) :
    (M *ᵥ u) ⨯₃ (M *ᵥ v) = M.det • (M⁻¹ᵀ *ᵥ (u ⨯₃ v)) := by
  have hadjugate : M.adjugate = M.det • M⁻¹ := by
    rw [inv_def, Ring.inverse_eq_inv', smul_smul, mul_inv_cancel₀ hM, one_smul]
  rw [← smul_mulVec, ← transpose_smul, ← hadjugate, adjugate_fin_three]
  ext i
  fin_cases i <;> simp [cross_apply, mulVec, dotProduct, Fin.sum_univ_three] <;> ring

end Coords

/-! ## Coordinates -/

namespace Vec3

/-- The vector of real coordinates. -/
def ofCoords (v : Fin 3 → ℝ) : Vec3 (Exact z) := ⟨number (v 0), number (v 1), number (v 2)⟩

theorem isReal_ofCoords (v : Fin 3 → ℝ) : (ofCoords v : Vec3 (Exact z)).IsReal := ⟨_, _, _, rfl⟩

theorem ofCoords_inj {u v : Fin 3 → ℝ} : (ofCoords u : Vec3 (Exact z)) = ofCoords v ↔ u = v := by
  simp [ofCoords, funext_iff, Fin.forall_fin_succ]

theorem ofCoords_zero : (ofCoords 0 : Vec3 (Exact z)) = zero := by simp [ofCoords, zero, splat]

theorem IsReal.exists_coords {w : Vec3 (Exact z)} (h : w.IsReal) : ∃ v, w = ofCoords v := by
  obtain ⟨x, y, t, rfl⟩ := h
  exact ⟨![x, y, t], rfl⟩

section

variable (u v : Fin 3 → ℝ) (s : ℝ)

theorem neg_ofCoords : (-ofCoords u : Vec3 (Exact z)) = ofCoords (-u) := rfl

theorem add_ofCoords : (ofCoords u + ofCoords v : Vec3 (Exact z)) = ofCoords (u + v) := by
  simp [ofCoords]

theorem sub_ofCoords : (ofCoords u - ofCoords v : Vec3 (Exact z)) = ofCoords (u - v) := by
  simp [ofCoords]

theorem smul_ofCoords :
    ((number s : Exact z) • (ofCoords u : Vec3 (Exact z))) = ofCoords (s • u) := by
  simp [ofCoords]

theorem dot_ofCoords : (ofCoords u : Vec3 (Exact z)).dot (ofCoords v) = number (u ⬝ᵥ v) := by
  simp [dot, ofCoords, dotProduct, Fin.sum_univ_three]

theorem cross_ofCoords :
    (ofCoords u : Vec3 (Exact z)).cross (ofCoords v) = ofCoords (u ⨯₃ v) := by
  simp [cross, ofCoords, cross_apply, mul_comm]

theorem length_ofCoords : (ofCoords u : Vec3 (Exact z)).length = number (Coords.length u) := by
  rw [length, lengthSquared, dot_ofCoords, Coords.length]
  exact sqrt_number _ (Finset.sum_nonneg fun i _ => mul_self_nonneg (u i))

end

variable {u : Fin 3 → ℝ}

theorem normalize_ofCoords (hu : u ≠ 0) :
    (ofCoords u : Vec3 (Exact z)).normalize = ofCoords (Coords.unit u) := by
  rw [normalize, length_ofCoords, one_eq, number_div _ _ (Coords.length_pos hu).ne', one_div]
  rfl

theorem normalize?_ofCoords {u : Fin 3 → ℝ} (hu : u ≠ 0) :
    (ofCoords u : Vec3 (Exact z)).normalize? = some (ofCoords (Coords.unit u)) := by
  have hpos := Coords.length_pos hu
  have hrecip : (1 / (ofCoords u : Vec3 (Exact z)).length : Exact z) =
      number (1 / Coords.length u) := by
    rw [length_ofCoords, one_eq, number_div _ _ hpos.ne']
  have hvalid : Scalar.isFinite (1 / (ofCoords u : Vec3 (Exact z)).length : Exact z) = true ∧
      0 < (1 / (ofCoords u : Vec3 (Exact z)).length : Exact z) := by
    rw [hrecip, zero_eq, number_lt]
    exact ⟨isFinite_number _, one_div_pos.2 hpos⟩
  rw [← normalize_ofCoords hu]
  exact if_pos hvalid

theorem ofCoords_div_length (hu : u ≠ 0) :
    ((ofCoords u : Vec3 (Exact z)) / (number (Coords.length u) : Exact z) : Vec3 (Exact z)) =
      ofCoords (Coords.unit u) := by
  simp [ofCoords, Coords.unit, number_div _ _ (Coords.length_pos hu).ne', div_eq_inv_mul]

/-- A sum of squares is real only if all terms are. -/
theorem isReal_of_lengthSquared {v : Vec3 (Exact z)} {x : ℝ} (h : v.lengthSquared = number x) :
    v.IsReal := by
  have hsum {a b : Exact z} {y : ℝ} (hab : a + b = number y) :
      (∃ u, a = number u) ∧ ∃ w, b = number w := by
    rw [add_def] at hab
    cases a <;> cases b <;> simp_all [Exact.add]
  have hsquare {a : Exact z} {y : ℝ} (ha : a * a = number y) : ∃ u, a = number u := by
    rw [mul_def] at ha
    cases a <;> simp_all [Exact.mul]
  obtain ⟨⟨_, hxy⟩, ⟨_, hz⟩⟩ := hsum h
  obtain ⟨⟨_, hx⟩, ⟨_, hy⟩⟩ := hsum hxy
  obtain ⟨a, ha⟩ := hsquare hx
  obtain ⟨b, hb⟩ := hsquare hy
  obtain ⟨c, hc⟩ := hsquare hz
  exact ⟨a, b, c, Vec3.ext ha hb hc⟩

/-- Only a real vector has a unit vector: with an infinite or undefined component there is none. -/
theorem exists_coords_of_normalize? {v w : Vec3 (Exact z)} (h : v.normalize? = some w) :
    ∃ u, u ≠ 0 ∧ v = ofCoords u ∧ w = ofCoords (Coords.unit u) := by
  simp only [normalize?] at h
  split at h
  next hr =>
    obtain ⟨x, hx⟩ := exists_number_of_isFinite hr.1
    have hpos : 0 < x := by
      rw [hx, zero_eq, number_lt] at hr
      exact hr.2
    rw [div_def, one_eq] at hx
    obtain ⟨y, hy, hne⟩ : ∃ y, v.length = number y ∧ y ≠ 0 := by
      cases hlength : v.length with
      | number y =>
        refine ⟨y, rfl, ?_⟩
        rintro rfl
        rw [hlength, ← div_def] at hx
        obtain hinfinite | hinfinite := recip_zero (z := z)
        · rw [one_eq, hx] at hinfinite
          cases hinfinite
        · rw [one_eq, hx] at hinfinite
          cases hinfinite
      | undefined => simp [hlength, Exact.inv, mul_def, Exact.mul] at hx
      | infinity =>
        simp only [hlength, Exact.inv, number_mul, number_inj, mul_zero] at hx
        exact absurd hx hpos.ne
      | negInfinity =>
        simp only [hlength, Exact.inv, number_mul, number_inj, mul_zero] at hx
        exact absurd hx hpos.ne
    obtain ⟨q, hq⟩ : ∃ q, v.lengthSquared = number q := by
      change Exact.sqrt v.lengthSquared = _ at hy
      cases hsquare : v.lengthSquared <;> simp_all [Exact.sqrt]
    obtain ⟨u, rfl⟩ := (isReal_of_lengthSquared hq).exists_coords
    have hu : u ≠ 0 := by
      rintro rfl
      rw [length_ofCoords, number_inj] at hy
      exact hne (by simpa [Coords.length] using hy.symm)
    refine ⟨u, hu, rfl, ?_⟩
    rw [← Option.some.inj h]
    exact normalize_ofCoords hu
  · cases h

end Vec3

theorem Ray.IsReal.exists_coords {ray : Ray (Exact z)} (h : ray.IsReal) :
    ∃ p d depth, ray = ⟨.ofCoords p, .ofCoords d, depth⟩ := by
  obtain ⟨p, hp⟩ := h.origin.exists_coords
  obtain ⟨d, hd⟩ := h.direction.exists_coords
  exact ⟨p, d, ray.depth, by rw [← hp, ← hd]⟩

theorem Ray.IsProper.exists_coords {ray : Ray (Exact z)} (h : ray.IsProper) :
    ∃ p d, d ≠ 0 ∧ ray = ⟨.ofCoords p, .ofCoords d, ray.depth⟩ := by
  obtain ⟨p, d, depth, rfl⟩ := h.toIsReal.exists_coords
  refine ⟨p, d, ?_, rfl⟩
  rintro rfl
  exact h.ne_zero Vec3.ofCoords_zero

/-! ## Transforms -/

namespace Transform

/-- The transform of a real matrix and an offset. -/
noncomputable def ofLinear (M : Matrix (Fin 3) (Fin 3) ℝ) (o : Fin 3 → ℝ) : Transform (Exact z) :=
  .ofMatrix (.ofAxes (.ofCoords (M.col 0)) (.ofCoords (M.col 1)) (.ofCoords (M.col 2))
    (.ofCoords o))

variable {M N : Matrix (Fin 3) (Fin 3) ℝ} {o q : Fin 3 → ℝ}

theorem applyPoint_ofLinear (p : Fin 3 → ℝ) :
    (ofLinear M o : Transform (Exact z)).applyPoint (.ofCoords p) = .ofCoords (M *ᵥ p + o) := by
  refine (Matrix4.point_ofAxes ⟨_, _, _⟩ ⟨_, _, _⟩ ⟨_, _, _⟩ ⟨_, _, _⟩ ⟨p 0, p 1, p 2⟩).trans ?_
  simp [Vec3.ofReal, Vec3.ofCoords, mulVec, dotProduct, Fin.sum_univ_three, mul_comm]

theorem applyVector_ofLinear (v : Fin 3 → ℝ) :
    (ofLinear M o : Transform (Exact z)).applyVector (.ofCoords v) = .ofCoords (M *ᵥ v) := by
  refine (Matrix4.vector_ofAxes ⟨_, _, _⟩ ⟨_, _, _⟩ ⟨_, _, _⟩ ⟨_, _, _⟩ ⟨v 0, v 1, v 2⟩).trans ?_
  simp [Vec3.ofReal, Vec3.ofCoords, mulVec, dotProduct, Fin.sum_univ_three, mul_comm]

theorem volume_col (M : Matrix (Fin 3) (Fin 3) ℝ) :
    Matrix4.volume ⟨M 0 0, M 1 0, M 2 0⟩ ⟨M 0 1, M 1 1, M 2 1⟩ ⟨M 0 2, M 1 2, M 2 2⟩ = M.det := by
  rw [Matrix4.volume, det_fin_three]
  ring

theorem determinant_ofLinear :
    (ofLinear M o : Transform (Exact z)).determinant = number M.det := by
  rw [← volume_col]
  exact Matrix4.determinant_ofAxes ⟨_, _, _⟩ ⟨_, _, _⟩ ⟨_, _, _⟩ ⟨o 0, o 1, o 2⟩

/-- The inverse that is kept beside the matrix is the inverse of the matrix. -/
theorem inverse_ofLinear (hM : M.det ≠ 0) : (ofLinear M o : Transform (Exact z)).inverse =
    (ofLinear M⁻¹ (-(M⁻¹ *ᵥ o)) : Transform (Exact z)).matrix := by
  have hinverse := Matrix4.inverse_ofAxes (z := z) ⟨M 0 0, M 1 0, M 2 0⟩ ⟨M 0 1, M 1 1, M 2 1⟩
    ⟨M 0 2, M 1 2, M 2 2⟩ ⟨o 0, o 1, o 2⟩ (by rwa [volume_col])
  refine hinverse.trans ?_
  rw [volume_col]
  simp only [ofLinear, ofMatrix, inv_def, Ring.inverse_eq_inv', adjugate_fin_three, Vec3.ofReal,
    Vec3.ofCoords, Matrix4.ofAxes, Matrix4.mk.injEq, Vec4.mk.injEq, number_inj, and_true]
  simp [Matrix4.volume, dotProduct, Fin.sum_univ_three]
  refine ⟨⟨?_, ?_, ?_⟩, ⟨?_, ?_, ?_⟩, ⟨?_, ?_, ?_⟩, ?_, ?_, ?_⟩ <;> ring

theorem inversePoint_ofLinear (hM : M.det ≠ 0) (p : Fin 3 → ℝ) :
    (ofLinear M o : Transform (Exact z)).inversePoint (.ofCoords p) =
      .ofCoords (M⁻¹ *ᵥ (p - o)) := by
  rw [inversePoint, inverse_ofLinear hM]
  refine (applyPoint_ofLinear p).trans ?_
  rw [mulVec_sub, sub_eq_add_neg]

theorem inverseVector_ofLinear (hM : M.det ≠ 0) (v : Fin 3 → ℝ) :
    (ofLinear M o : Transform (Exact z)).inverseVector (.ofCoords v) = .ofCoords (M⁻¹ *ᵥ v) := by
  rw [inverseVector, inverse_ofLinear hM]
  exact applyVector_ofLinear v

/-- The product of two transforms. -/
theorem mul_ofLinear :
    (.ofMatrix ((ofLinear M o : Transform (Exact z)).matrix * (ofLinear N q).matrix) :
      Transform (Exact z)) = ofLinear (M * N) (M *ᵥ q + o) := by
  refine congrArg ofMatrix ?_
  change Matrix4.mk (Matrix4.mulVec _ _) (Matrix4.mulVec _ _) (Matrix4.mulVec _ _)
    (Matrix4.mulVec _ _) = _
  simp [ofLinear, ofMatrix, Matrix4.ofAxes, Matrix4.mulVec, Vec3.ofCoords, mul_apply, mulVec,
    dotProduct, Fin.sum_univ_three, mul_comm]

theorem identity_eq_ofLinear : (identity : Transform (Exact z)) = ofLinear 1 0 := by
  have hmatrix : (Matrix4.identity : Matrix4 (Exact z)) =
      (ofLinear 1 0 : Transform (Exact z)).matrix := by
    simp [ofLinear, ofMatrix, Matrix4.identity, Matrix4.ofAxes, Vec3.ofCoords]
  refine Transform.ext hmatrix ?_ ?_
  · rw [inverse_ofLinear (by simp), inv_one, mulVec_zero, neg_zero]
    exact hmatrix
  · rw [determinant_ofLinear, det_one]
    exact one_eq

/-- Every affine transform is the transform of a regular matrix and an offset. -/
theorem IsAffine.exists_ofLinear {t : Transform (Exact z)} (ht : t.IsAffine) :
    ∃ M o, M.det ≠ 0 ∧ t = ofLinear M o := by
  obtain ⟨X, Y, Z, O, hV, rfl⟩ := ht.exists_axes
  refine ⟨!![X.x, Y.x, Z.x; X.y, Y.y, Z.y; X.z, Y.z, Z.z], ![O.x, O.y, O.z], ?_, rfl⟩
  rw [← volume_col]
  exact hV

theorem isAffine_ofLinear (hM : M.det ≠ 0) (o : Fin 3 → ℝ) :
    (ofLinear M o : Transform (Exact z)).IsAffine := by
  refine ⟨rfl, ⟨⟨_, _, _⟩, ⟨_, _, _⟩, ⟨_, _, _⟩, ⟨_, _, _⟩, rfl⟩, ?_⟩
  rw [isInvertible, determinant_ofLinear, inverse_ofLinear hM]
  simp [hM, ofLinear, ofMatrix, Matrix4.isFinite, Matrix4.ofAxes, Vec4.isFinite, Vec3.ofCoords]

/-! ### Rays -/

variable {p d : Fin 3 → ℝ} {depth : UInt32}

theorem rayScale_ofLinear (hM : M.det ≠ 0) :
    (ofLinear M o : Transform (Exact z)).rayScale ⟨.ofCoords p, .ofCoords d, depth⟩ =
      number (Coords.length (M⁻¹ *ᵥ d)) := by
  rw [rayScale, inverseRay, inverseVector_ofLinear hM, Vec3.length_ofCoords]

theorem inv_mulVec_ne_zero (hM : M.det ≠ 0) (hd : d ≠ 0) : M⁻¹ *ᵥ d ≠ 0 :=
  Coords.mulVec_ne_zero (by simpa [det_nonsing_inv] using hM) hd

theorem localRay_ofLinear (hM : M.det ≠ 0) (hd : d ≠ 0) :
    (ofLinear M o : Transform (Exact z)).localRay ⟨.ofCoords p, .ofCoords d, depth⟩ =
      ⟨.ofCoords (M⁻¹ *ᵥ (p - o)), .ofCoords (Coords.unit (M⁻¹ *ᵥ d)), depth⟩ := by
  rw [localRay, inverseRay, inversePoint_ofLinear hM, inverseVector_ofLinear hM,
    Vec3.length_ofCoords, Vec3.ofCoords_div_length (inv_mulVec_ne_zero hM hd)]

theorem det_mul_ne_zero (hM : M.det ≠ 0) (hN : N.det ≠ 0) : (M * N).det ≠ 0 := by
  rw [det_mul]
  exact mul_ne_zero hM hN

variable {A B : Transform (Exact z)} {ray : Ray (Exact z)}

/-- The local ray of a product is the local ray of the local ray. -/
theorem IsAffine.localRay_mul (hA : A.IsAffine) (hB : B.IsAffine) (hray : ray.IsProper) :
    (ofMatrix (A.matrix * B.matrix)).localRay ray = B.localRay (A.localRay ray) := by
  obtain ⟨M, o, hM, rfl⟩ := hA.exists_ofLinear
  obtain ⟨N, q, hN, rfl⟩ := hB.exists_ofLinear
  obtain ⟨p, d, hd, hcoords⟩ := hray.exists_coords
  have hlocal := inv_mulVec_ne_zero hM hd
  have horigin : M⁻¹ *ᵥ (p - (M *ᵥ q + o)) = M⁻¹ *ᵥ (p - o) - q := by
    rw [add_comm, ← sub_sub, mulVec_sub, mulVec_mulVec, nonsing_inv_mul _ hM.isUnit, one_mulVec]
  rw [mul_ofLinear, hcoords, localRay_ofLinear hM hd,
    localRay_ofLinear hN (Coords.unit_ne_zero hlocal), localRay_ofLinear (det_mul_ne_zero hM hN) hd,
    Coords.unit_mulVec_unit hlocal, Matrix.mul_inv_rev, ← mulVec_mulVec, ← mulVec_mulVec, horigin]

/-- The scale of a product is the product of the scales, each along its own ray. -/
theorem IsAffine.rayScale_mul (hA : A.IsAffine) (hB : B.IsAffine) (hray : ray.IsProper) :
    (ofMatrix (A.matrix * B.matrix)).rayScale ray =
      A.rayScale ray * B.rayScale (A.localRay ray) := by
  obtain ⟨M, o, hM, rfl⟩ := hA.exists_ofLinear
  obtain ⟨N, q, hN, rfl⟩ := hB.exists_ofLinear
  obtain ⟨p, d, hd, hcoords⟩ := hray.exists_coords
  rw [mul_ofLinear, hcoords, localRay_ofLinear hM hd, rayScale_ofLinear hM, rayScale_ofLinear hN,
    rayScale_ofLinear (det_mul_ne_zero hM hN), number_mul, number_inj,
    Coords.length_mul_length_mulVec_unit (inv_mulVec_ne_zero hM hd), Matrix.mul_inv_rev,
    mulVec_mulVec]

/-- The identity leaves a ray of unit length as it is. -/
theorem localRay_identity (hray : ray.IsUnit) :
    (identity : Transform (Exact z)).localRay ray = ray ∧
      (identity : Transform (Exact z)).rayScale ray = 1 := by
  obtain ⟨p, d, hd, hcoords⟩ := hray.isProper.exists_coords
  have hlength : Coords.length d = 1 := by
    have h := hray.length_eq
    rwa [hcoords, Vec3.length_ofCoords, one_eq, number_inj] at h
  have hunit : Coords.unit d = d := by rw [Coords.unit, hlength, inv_one, one_smul]
  rw [identity_eq_ofLinear, hcoords, localRay_ofLinear (by simp) hd, rayScale_ofLinear (by simp)]
  simp [hlength, hunit]

end Transform

end Radiance
