import Radiance.Proofs.Geometry.Linear

/-!
# Matrices with any fourth row

A transform keeps the inverse of all four rows and columns of its matrix, but maps points and
directions without the fourth row.  In exact arithmetic the kept inverse undoes the map if the
fourth row is that of an affine matrix or the offset is zero, and otherwise it moves some points.  A
matrix with an inverse may still map all of space to a plane.

## Main definitions

* `Matrix4.ofReal`: the matrix of exact scalars with given real entries.
* `Coords.image`: the image of three coordinates with a fourth one, without the fourth row.
* `Transform.RoundTrips`: the kept inverse undoes the map of points and of directions.
* `Matrix4.linearPart`: the matrix without its offset and its fourth row.

## Main statements

* `Matrix4.determinant_ofReal`, `Matrix4.inverse_ofReal`: the determinant and the inverse of a real
  matrix.
* `Transform.isInvertible_iff`: the test for an inverse is a test of the determinant.
* `Transform.roundTrips_iff`: when the kept inverse undoes the map.
* `Transform.injOn_applyPoint_iff`: when no two points have the same image.
-/

namespace Radiance

open Exact Matrix

variable {z : ZeroSign}

/-! ## Four coordinates -/

namespace Coords

def withLast (v : Fin 3 → ℝ) (w : ℝ) : Fin 4 → ℝ := Fin.snoc v w

theorem withLast_eq (v : Fin 3 → ℝ) (w : ℝ) : withLast v w = ![v 0, v 1, v 2, w] := by
  ext i
  fin_cases i <;> rfl

def dropLast (c : Fin 4 → ℝ) : Fin 3 → ℝ := fun i => c i.castSucc

/-- The image of three coordinates with a fourth one, without the fourth row. -/
def image (M : Matrix (Fin 4) (Fin 4) ℝ) (v : Fin 3 → ℝ) (w : ℝ) : Fin 3 → ℝ :=
  dropLast (M *ᵥ withLast v w)

/-- The matrix without its fourth row and column. -/
def linear (M : Matrix (Fin 4) (Fin 4) ℝ) : Matrix (Fin 3) (Fin 3) ℝ :=
  M.submatrix Fin.castSucc Fin.castSucc

variable {M N : Matrix (Fin 4) (Fin 4) ℝ}

theorem withLast_dropLast (c : Fin 4 → ℝ) (w : ℝ) :
    withLast (dropLast c) w = c + (w - c 3) • withLast 0 1 := by
  ext i
  fin_cases i <;> simp [withLast_eq, dropLast]

theorem withLast_eq_add (v : Fin 3 → ℝ) (w : ℝ) :
    withLast v w = withLast v 0 + w • withLast 0 1 := by
  ext i
  fin_cases i <;> simp [withLast_eq]

theorem image_eq (M : Matrix (Fin 4) (Fin 4) ℝ) (v : Fin 3 → ℝ) (w : ℝ) :
    image M v w = linear M *ᵥ v + w • image M 0 1 := by
  rw [image, withLast_eq_add, mulVec_add, mulVec_smul]
  refine congrArg (· + w • image M 0 1) ?_
  ext i
  simp [linear, mulVec, dotProduct, withLast_eq, Fin.sum_univ_four, Fin.sum_univ_three]

/-- What is left over when the fourth coordinate is kept between a matrix and its inverse. -/
theorem image_image (h : N * M = 1) (v : Fin 3 → ℝ) (w : ℝ) :
    image N (image M v w) w = v + (w - (M *ᵥ withLast v w) 3) • image N 0 1 := by
  have hdrop : dropLast (withLast v w) = v := by
    ext i
    fin_cases i <;> rfl
  rw [image, image, withLast_dropLast, mulVec_add, mulVec_smul, mulVec_mulVec, h, one_mulVec]
  exact congrArg (· + (w - (M *ᵥ withLast v w) 3) • image N 0 1) hdrop

/-- A matrix without an offset has an inverse without one. -/
theorem offset_eq_zero (h : N * M = 1) (hM : image M 0 1 = 0) : image N 0 1 = 0 := by
  have hleft := image_image h 0 1
  rw [hM, zero_add, sub_smul, one_smul, eq_sub_iff_add_eq, add_eq_left, smul_eq_zero] at hleft
  refine hleft.resolve_left fun hlast => ?_
  -- Otherwise the whole fourth column is zero, and the matrix has no inverse.
  have hcolumn : M *ᵥ withLast 0 1 = 0 := by
    have hparts := withLast_dropLast (M *ᵥ withLast 0 1) 0
    have hzero : withLast 0 0 = 0 := by
      ext i
      fin_cases i <;> rfl
    rw [hlast, sub_zero, zero_smul, add_zero] at hparts
    rw [← hparts, ← hzero]
    exact congrArg (withLast · 0) hM
  have hone : N *ᵥ M *ᵥ withLast 0 1 = withLast 0 1 := by rw [mulVec_mulVec, h, one_mulVec]
  rw [hcolumn, mulVec_zero] at hone
  exact zero_ne_one (congrFun hone 3)

/-- A matrix and its inverse undo each other without the fourth row exactly if the row keeps the
fourth coordinate or there is no offset. -/
theorem undoes_iff (h : N * M = 1) :
    (∀ p v : Fin 3 → ℝ, image N (image M p 1) 1 = p ∧ image N (image M v 0) 0 = v) ↔
      (∀ c, (M *ᵥ c) 3 = c 3) ∨ image M 0 1 = 0 := by
  simp only [image_image h, add_eq_left, smul_eq_zero]
  constructor
  · intro hall
    by_cases hN : image N 0 1 = 0
    · exact .inr (offset_eq_zero (mul_eq_one_comm.1 h) hN)
    · left
      have hpoint (p : Fin 3 → ℝ) := sub_eq_zero.1 ((hall p 0).1.resolve_right hN)
      have hvector (v : Fin 3 → ℝ) := sub_eq_zero.1 ((hall 0 v).2.resolve_right hN)
      intro c
      have hparts : c = withLast (dropLast c) 0 + c 3 • withLast 0 1 := by
        rw [← withLast_eq_add, withLast_dropLast, sub_self, zero_smul, add_zero]
      conv_lhs => rw [hparts, mulVec_add, mulVec_smul]
      rw [Pi.add_apply, Pi.smul_apply, ← hvector, ← hpoint, zero_add, smul_eq_mul, mul_one]
  · rintro (hrow | hoffset) p v
    · simp [hrow, withLast_eq]
    · simp [offset_eq_zero h hoffset]

end Coords

/-! ## Real matrices -/

namespace Matrix4

/-- The matrix with given real entries. -/
def ofReal (M : Matrix (Fin 4) (Fin 4) ℝ) : Matrix4 (Exact z) :=
  let column (j : Fin 4) : Vec4 (Exact z) :=
    ⟨number (M 0 j), number (M 1 j), number (M 2 j), number (M 3 j)⟩
  ⟨column 0, column 1, column 2, column 3⟩

theorem exists_ofReal {m : Matrix4 (Exact z)} (h : m.isFinite = true) : ∃ M, m = ofReal M := by
  simp only [isFinite, Bool.and_eq_true] at h
  obtain ⟨a, b, c, d, hx⟩ := Vec4.exists_numbers h.1.1.1
  obtain ⟨e, f, g, i, hy⟩ := Vec4.exists_numbers h.1.1.2
  obtain ⟨j, k, l, n, hz⟩ := Vec4.exists_numbers h.1.2
  obtain ⟨o, p, q, r, hw⟩ := Vec4.exists_numbers h.2
  exact ⟨!![a, e, j, o; b, f, k, p; c, g, l, q; d, i, n, r], Matrix4.ext hx hy hz hw⟩

theorem isFinite_ofReal (M : Matrix (Fin 4) (Fin 4) ℝ) :
    (ofReal M : Matrix4 (Exact z)).isFinite = true := by
  simp [ofReal, isFinite, Vec4.isFinite]

theorem mul_ofReal (M N : Matrix (Fin 4) (Fin 4) ℝ) :
    (ofReal M * ofReal N : Matrix4 (Exact z)) = ofReal (M * N) := by
  change Matrix4.mk (mulVec _ _) (mulVec _ _) (mulVec _ _) (mulVec _ _) = _
  simp [ofReal, mulVec, mul_apply, Fin.sum_univ_four, mul_comm]

theorem determinant_ofReal (M : Matrix (Fin 4) (Fin 4) ℝ) :
    (ofReal M : Matrix4 (Exact z)).determinant = number M.det := by
  rw [det_succ_column_zero, Fin.sum_univ_four]
  simp [det_fin_three, ofReal, determinant, Vec4.dot, Fin.succAbove]
  ring

/-- The cofactors of a real matrix over its determinant are the entries of its inverse. -/
theorem inverse_ofReal {M : Matrix (Fin 4) (Fin 4) ℝ} (h : M.det ≠ 0) :
    (ofReal M : Matrix4 (Exact z)).inverse = ofReal M⁻¹ := by
  have hentry (i j : Fin 4) : M⁻¹ i j =
      1 / M.det * ((-1) ^ (j + i : ℕ) * (M.submatrix j.succAbove i.succAbove).det) := by
    rw [inv_def, Ring.inverse_eq_inv', Matrix.smul_apply, smul_eq_mul,
      adjugate_fin_succ_eq_det_submatrix, one_div]
  simp only [ofReal, inverse, minors, Vec4.dot, one_eq, number_mul, number_sub, number_add,
    number_neg, Vec4.mk_add, Vec4.mk_sub, Vec4.mk_mul, Vec4.smul_mk, hentry]
  -- The expansion of the determinant along the first column, by which every entry is divided.
  generalize hexpand : M 0 0 * _ + M 2 0 * _ + (M 1 0 * _ + M 3 0 * _) = d
  have hd : d = M.det := by
    rw [← hexpand, det_succ_column_zero, Fin.sum_univ_four]
    simp [det_fin_three, Fin.succAbove]
    ring
  rw [hd, number_div _ _ h]
  simp only [number_mul, Matrix4.mk.injEq, Vec4.mk.injEq, number_inj]
  refine ⟨⟨?_, ?_, ?_, ?_⟩, ⟨?_, ?_, ?_, ?_⟩, ⟨?_, ?_, ?_, ?_⟩, ?_, ?_, ?_, ?_⟩
  all_goals
    refine congrArg (1 / M.det * ·) ?_
    simp [det_fin_three, Fin.succAbove]
    ring

theorem point_ofReal (M : Matrix (Fin 4) (Fin 4) ℝ) (p : Fin 3 → ℝ) :
    (ofReal M : Matrix4 (Exact z)).point (.ofCoords p) =
      .ofCoords (Coords.image M p 1) := by
  simp [point, ofReal, Vec3.ofCoords, Vec4.xyz, Coords.image, Coords.dropLast, Coords.withLast_eq,
    Matrix.mulVec, dotProduct, Fin.sum_univ_four, mul_comm]

theorem vector_ofReal (M : Matrix (Fin 4) (Fin 4) ℝ) (v : Fin 3 → ℝ) :
    (ofReal M : Matrix4 (Exact z)).vector (.ofCoords v) =
      .ofCoords (Coords.image M v 0) := by
  simp [vector, ofReal, Vec3.ofCoords, Vec4.xyz, Coords.image, Coords.dropLast, Coords.withLast_eq,
    Matrix.mulVec, dotProduct, Fin.sum_univ_four, mul_comm]

theorem xyz_w_ofReal (M : Matrix (Fin 4) (Fin 4) ℝ) :
    (ofReal M : Matrix4 (Exact z)).w.xyz = .ofCoords (Coords.image M 0 1) := by
  rw [← point_ofReal]
  simp [point, ofReal, Vec3.ofCoords, Vec4.xyz]

/-- A real matrix is affine exactly if its fourth row keeps the fourth coordinate. -/
theorem isAffine_ofReal_iff {M : Matrix (Fin 4) (Fin 4) ℝ} :
    (ofReal M : Matrix4 (Exact z)).IsAffine ↔ ∀ c, (M *ᵥ c) 3 = c 3 := by
  constructor
  · rintro ⟨X, Y, Z, O, hM⟩ c
    simp only [ofReal, ofAxes, zero_eq, one_eq, Matrix4.mk.injEq, Vec4.mk.injEq, number_inj] at hM
    simp [Matrix.mulVec, dotProduct, Fin.sum_univ_four, hM]
  · intro h
    have hrow (j : Fin 4) : M 3 j = if j = 3 then 1 else 0 := by
      have hcolumn := h (Pi.single j 1)
      rw [mulVec_single_one, Pi.single_apply] at hcolumn
      simpa [eq_comm] using hcolumn
    refine ⟨⟨M 0 0, M 1 0, M 2 0⟩, ⟨M 0 1, M 1 1, M 2 1⟩, ⟨M 0 2, M 1 2, M 2 2⟩,
      ⟨M 0 3, M 1 3, M 2 3⟩, ?_⟩
    simp [ofReal, ofAxes, Vec3.ofReal, hrow]

theorem IsAffine.isFinite {m : Matrix4 (Exact z)} (h : m.IsAffine) : m.isFinite = true := by
  obtain ⟨X, Y, Z, O, rfl⟩ := h
  simp [Matrix4.isFinite, ofAxes, Vec4.isFinite, Vec3.ofReal]

/-- The matrix without its offset and its fourth row. -/
def linearPart {α : Type} [Scalar α] (m : Matrix4 α) : Matrix4 α :=
  .ofAxes m.x.xyz m.y.xyz m.z.xyz .zero

theorem determinant_linearPart_ofReal (M : Matrix (Fin 4) (Fin 4) ℝ) :
    (ofReal M : Matrix4 (Exact z)).linearPart.determinant = number (Coords.linear M).det := by
  rw [← Transform.determinant_ofLinear (z := z) (o := 0), Transform.ofLinear, Vec3.ofCoords_zero]
  rfl

end Matrix4

/-! ## Transforms -/

namespace Transform

/-- The kept inverse undoes the map of points and of directions. -/
structure RoundTrips (t : Transform (Exact z)) : Prop where
  point : ∀ p : Vec3 (Exact z), p.IsReal → t.inversePoint (t.applyPoint p) = p
  vector : ∀ v : Vec3 (Exact z), v.IsReal → t.inverseVector (t.applyVector v) = v

variable {m : Matrix4 (Exact z)}

/-- The test for an inverse is a test of the determinant. -/
theorem isInvertible_iff (hm : m.isFinite = true) :
    (ofMatrix m).isInvertible = true ↔ m.determinant ≠ 0 := by
  obtain ⟨M, rfl⟩ := Matrix4.exists_ofReal hm
  rw [isInvertible, ofMatrix, Matrix4.determinant_ofReal]
  by_cases h : M.det = 0
  · simp [h]
  · simp [h, Matrix4.inverse_ofReal h, Matrix4.isFinite_ofReal]

section

variable {M : Matrix (Fin 4) (Fin 4) ℝ}

theorem inversePoint_applyPoint_ofReal (h : M.det ≠ 0) (p : Fin 3 → ℝ) :
    (ofMatrix (.ofReal M) : Transform (Exact z)).inversePoint
        ((ofMatrix (.ofReal M) : Transform (Exact z)).applyPoint (.ofCoords p)) =
      .ofCoords (Coords.image M⁻¹ (Coords.image M p 1) 1) := by
  simp only [inversePoint, applyPoint, ofMatrix, Matrix4.inverse_ofReal h, Matrix4.point_ofReal]

theorem inverseVector_applyVector_ofReal (h : M.det ≠ 0) (v : Fin 3 → ℝ) :
    (ofMatrix (.ofReal M) : Transform (Exact z)).inverseVector
        ((ofMatrix (.ofReal M) : Transform (Exact z)).applyVector (.ofCoords v)) =
      .ofCoords (Coords.image M⁻¹ (Coords.image M v 0) 0) := by
  simp only [inverseVector, applyVector, ofMatrix, Matrix4.inverse_ofReal h, Matrix4.vector_ofReal]

theorem roundTrips_ofReal_iff (h : M.det ≠ 0) :
    (ofMatrix (.ofReal M) : Transform (Exact z)).RoundTrips ↔ ∀ p v : Fin 3 → ℝ,
      Coords.image M⁻¹ (Coords.image M p 1) 1 = p ∧
        Coords.image M⁻¹ (Coords.image M v 0) 0 = v := by
  constructor
  · intro ht p v
    have hp := ht.point _ (Vec3.isReal_ofCoords p)
    have hv := ht.vector _ (Vec3.isReal_ofCoords v)
    rw [inversePoint_applyPoint_ofReal h, Vec3.ofCoords_inj] at hp
    rw [inverseVector_applyVector_ofReal h, Vec3.ofCoords_inj] at hv
    exact ⟨hp, hv⟩
  · intro hall
    refine ⟨fun p hp => ?_, fun v hv => ?_⟩
    · obtain ⟨p, rfl⟩ := hp.exists_coords
      rw [inversePoint_applyPoint_ofReal h, (hall p 0).1]
    · obtain ⟨v, rfl⟩ := hv.exists_coords
      rw [inverseVector_applyVector_ofReal h, (hall 0 v).2]

end

/-- The kept inverse undoes the map exactly if the matrix is affine or has no offset. -/
theorem roundTrips_iff (hm : m.isFinite = true) (h : m.determinant ≠ 0) :
    (ofMatrix m).RoundTrips ↔ m.IsAffine ∨ m.w.xyz = .zero := by
  obtain ⟨M, rfl⟩ := Matrix4.exists_ofReal hm
  have hdet : M.det ≠ 0 := by simpa [Matrix4.determinant_ofReal] using h
  rw [roundTrips_ofReal_iff hdet, Matrix4.isAffine_ofReal_iff, Matrix4.xyz_w_ofReal,
    ← Vec3.ofCoords_zero, Vec3.ofCoords_inj,
    Coords.undoes_iff (nonsing_inv_mul M (isUnit_iff_ne_zero.2 hdet))]

/-- No two points have the same image exactly if the linear part has an inverse. -/
theorem injOn_applyPoint_iff (hm : m.isFinite = true) :
    Set.InjOn (ofMatrix m).applyPoint {p | p.IsReal} ↔ m.linearPart.determinant ≠ 0 := by
  obtain ⟨M, rfl⟩ := Matrix4.exists_ofReal hm
  have hpoint (p : Fin 3 → ℝ) : (ofMatrix (.ofReal M) : Transform (Exact z)).applyPoint
      (.ofCoords p) = .ofCoords (Coords.linear M *ᵥ p + Coords.image M 0 1) := by
    rw [applyPoint, ofMatrix, Matrix4.point_ofReal, Coords.image_eq, one_smul]
  rw [Matrix4.determinant_linearPart_ofReal, zero_eq, ne_eq, number_inj,
    ← exists_mulVec_eq_zero_iff]
  constructor
  · rintro hinj ⟨v, hne, hv⟩
    refine hne (Vec3.ofCoords_inj (z := z).1 (hinj (Vec3.isReal_ofCoords v)
      (Vec3.isReal_ofCoords 0) ?_))
    rw [hpoint, hpoint, hv, mulVec_zero]
  · intro hkernel p hp q hq heq
    obtain ⟨p, rfl⟩ := Vec3.IsReal.exists_coords hp
    obtain ⟨q, rfl⟩ := Vec3.IsReal.exists_coords hq
    rw [hpoint, hpoint, Vec3.ofCoords_inj, add_left_inj, ← sub_eq_zero, ← mulVec_sub] at heq
    rw [sub_eq_zero.1 (by_contra fun hne => hkernel ⟨p - q, hne, heq⟩)]

end Transform

end Radiance
