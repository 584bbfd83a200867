import Radiance.Proofs.Geometry.Linear
import Radiance.Proofs.Scalar.Sign
import Radiance.Scattering.Bsdf

/-!
# Mirror and refracted directions

In exact arithmetic the mirror image of a unit direction and its refracted direction are unit
vectors, and the normal can be told from them: it is the half vector of a direction and its mirror
image, and lies along the sum of a direction and its refracted direction times the index.  From the
far side of an interface refraction leads back.

## Main definitions

* `Coords.reflected`, `Coords.refracted`: the two directions in real coordinates.
* `Coords.farCosine2`: the square of the cosine beyond an interface.

## Main statements

* `Vec3.reflect_ofCoords`, `Vec3.refract_ofCoords`: what is computed is these directions.
* `Coords.reflected_add_self`, `Coords.add_smul_refracted`: the normals they come from.
* `Coords.refracted_dotProduct_self`, `Coords.refracted_dotProduct`: refraction keeps the length and
  follows the law of Snell.
* `Coords.refracted_refracted`: refraction is reversible.
-/

namespace Radiance

open Exact Matrix

variable {z : ZeroSign}

/-! ## Real coordinates -/

namespace Coords

/-- The mirror image of a direction about a normal. -/
def reflected (w n : Fin 3 → ℝ) : Fin 3 → ℝ := (n ⬝ᵥ w + n ⬝ᵥ w) • n - w

/-- The square of the cosine on the far side of an interface, for the cosine on the near side.
Where it is negative, no direction leads to the far side. -/
noncomputable def farCosine2 (eta c : ℝ) : ℝ := 1 - 1 / eta * (1 / eta) * (1 - c * c)

/-- The direction on the far side. -/
noncomputable def refracted (w n : Fin 3 → ℝ) (eta : ℝ) : Fin 3 → ℝ :=
  (1 / eta * (n ⬝ᵥ w) - √(farCosine2 eta (n ⬝ᵥ w))) • n - (1 / eta) • w

variable {w n : Fin 3 → ℝ} {eta : ℝ}

theorem reflected_eq (w n : Fin 3 → ℝ) : reflected w n = (2 * (n ⬝ᵥ w)) • n - w := by
  rw [reflected, two_mul]

theorem reflected_add_self (w n : Fin 3 → ℝ) : reflected w n + w = (2 * (n ⬝ᵥ w)) • n := by
  rw [reflected_eq, sub_add_cancel]

/-- A mirror image about a unit normal has the length of the direction. -/
theorem reflected_dotProduct_self (hn : n ⬝ᵥ n = 1) (w : Fin 3 → ℝ) :
    reflected w n ⬝ᵥ reflected w n = w ⬝ᵥ w := by
  simp only [reflected_eq, sub_dotProduct, dotProduct_sub, smul_dotProduct, dotProduct_smul,
    smul_eq_mul, hn, dotProduct_comm w n]
  ring

theorem reflected_ne_zero (hn : n ⬝ᵥ n = 1) (hw : w ≠ 0) : reflected w n ≠ 0 := by
  intro hzero
  have hself := reflected_dotProduct_self hn w
  rw [hzero, dotProduct_zero] at hself
  exact hw (dotProduct_self_eq_zero.1 hself.symm)

/-- Refraction keeps unit length: the tangential part is divided by the index, and the cosine is
what is left. -/
theorem refracted_dotProduct_self (hw : w ⬝ᵥ w = 1) (hn : n ⬝ᵥ n = 1)
    (hfar : 0 ≤ farCosine2 eta (n ⬝ᵥ w)) : refracted w n eta ⬝ᵥ refracted w n eta = 1 := by
  have hroot := Real.mul_self_sqrt hfar
  simp only [refracted, sub_dotProduct, dotProduct_sub, smul_dotProduct, dotProduct_smul,
    smul_eq_mul, hw, hn, dotProduct_comm w n]
  rw [farCosine2] at hroot ⊢
  linear_combination hroot

theorem refracted_dotProduct (hn : n ⬝ᵥ n = 1) (w : Fin 3 → ℝ) (eta : ℝ) :
    refracted w n eta ⬝ᵥ n = -√(farCosine2 eta (n ⬝ᵥ w)) := by
  rw [refracted, sub_dotProduct, smul_dotProduct, smul_dotProduct, hn, dotProduct_comm w n,
    smul_eq_mul, smul_eq_mul]
  ring

theorem add_smul_refracted (heta : eta ≠ 0) (w n : Fin 3 → ℝ) :
    w + eta • refracted w n eta = (n ⬝ᵥ w - eta * √(farCosine2 eta (n ⬝ᵥ w))) • n := by
  have hindex : eta * (1 / eta) = 1 := mul_one_div_cancel heta
  rw [refracted, smul_sub, smul_smul, smul_smul, hindex, one_smul, mul_sub, ← mul_assoc, hindex,
    one_mul, add_sub_cancel]

/-- Seen from the far side, the cosine beyond the interface is the one on the near side. -/
theorem farCosine2_sqrt (heta : eta ≠ 0) {c : ℝ} (hfar : 0 ≤ farCosine2 eta c) :
    farCosine2 (1 / eta) √(farCosine2 eta c) = c * c := by
  have hroot := Real.mul_self_sqrt hfar
  rw [farCosine2, one_div_one_div, hroot, farCosine2]
  field_simp
  ring

/-- A refracted direction is refracted back from the other side, with the reciprocal index. -/
theorem refracted_refracted (heta : eta ≠ 0) (hn : n ⬝ᵥ n = 1) (hside : 0 ≤ n ⬝ᵥ w)
    (hfar : 0 ≤ farCosine2 eta (n ⬝ᵥ w)) :
    refracted (refracted w n eta) (-n) (1 / eta) = w := by
  have hback : -n ⬝ᵥ refracted w n eta = √(farCosine2 eta (n ⬝ᵥ w)) := by
    rw [neg_dotProduct, dotProduct_comm, refracted_dotProduct hn, neg_neg]
  have hsum := add_smul_refracted heta w n
  rw [refracted, hback, farCosine2_sqrt heta hfar, Real.sqrt_mul_self hside, one_div_one_div]
  calc (eta * √(farCosine2 eta (n ⬝ᵥ w)) - n ⬝ᵥ w) • -n - eta • refracted w n eta
      = (n ⬝ᵥ w - eta * √(farCosine2 eta (n ⬝ᵥ w))) • n - eta • refracted w n eta := by
        rw [smul_neg, ← neg_smul, neg_sub]
    _ = w := by rw [← hsum, add_sub_cancel_right]

/-- Only an index of one makes the two sides equal, so that the sum has no direction. -/
theorem sub_mul_sqrt_farCosine2_ne_zero (heta : 0 < eta) (hone : eta ≠ 1) {c : ℝ}
    (hfar : 0 ≤ farCosine2 eta c) : c - eta * √(farCosine2 eta c) ≠ 0 := by
  intro hzero
  have hroot := Real.mul_self_sqrt hfar
  have hindex : eta * eta * farCosine2 eta c = eta * eta - (1 - c * c) := by
    rw [farCosine2]
    field_simp
  have hself : (eta - 1) * (eta + 1) = 0 := by
    linear_combination -(c + eta * √(farCosine2 eta c)) * hzero - eta * eta * hroot - hindex
  obtain h | h := mul_eq_zero.1 hself
  · exact hone (sub_eq_zero.1 h)
  · linarith

/-! ### Upright normals -/

theorem pole_dotProduct (s : ℝ) (w : Fin 3 → ℝ) : ![0, 0, s] ⬝ᵥ w = s * w 2 := by
  simp [dotProduct, Fin.sum_univ_three]

/-- Upright or upside down, a normal turns the tangential part of a direction over. -/
theorem reflected_pole {s : ℝ} (hs : s * s = 1) (w : Fin 3 → ℝ) :
    reflected w ![0, 0, s] = ![-w 0, -w 1, w 2] := by
  have hheight : 2 * (s * w 2) * s - w 2 = w 2 := by linear_combination 2 * w 2 * hs
  rw [reflected_eq, pole_dotProduct]
  ext k
  fin_cases k <;> simp [hheight]

/-- The law of Snell: the tangential part is turned over and divided by the index. -/
theorem refracted_pole {s : ℝ} (hs : s * s = 1) (w : Fin 3 → ℝ) (eta : ℝ) :
    refracted w ![0, 0, s] eta =
      ![-w 0 / eta, -w 1 / eta, -(s * √(farCosine2 eta (s * w 2)))] := by
  rw [refracted, pole_dotProduct]
  ext k
  fin_cases k
  · simp [div_eq_inv_mul]
  · simp [div_eq_inv_mul]
  · simp only [Fin.reduceFinMk, Pi.sub_apply, Pi.smul_apply, cons_val, smul_eq_mul]
    linear_combination 1 / eta * w 2 * hs

/-- A refracted direction is on the other side of the surface. -/
theorem refracted_pole_beyond {s : ℝ} (hs : s * s = 1) (hside : 0 < ![0, 0, s] ⬝ᵥ w)
    (hfar : 0 < farCosine2 eta (![0, 0, s] ⬝ᵥ w)) :
    refracted w ![0, 0, s] eta 2 * w 2 < 0 := by
  rw [pole_dotProduct] at hside hfar
  have hheight : refracted w ![0, 0, s] eta 2 * w 2 =
      -(s * w 2 * √(farCosine2 eta (s * w 2))) := by
    rw [refracted_pole hs, cons_val_two, tail_cons, head_cons, neg_mul, mul_right_comm]
  rw [hheight, neg_lt_zero]
  exact mul_pos hside (Real.sqrt_pos.2 hfar)

end Coords

/-! ## Vectors -/

namespace Vec3

theorem reflect_ofCoords (w n : Fin 3 → ℝ) :
    (ofCoords w : Vec3 (Exact z)).reflect (ofCoords n) = ofCoords (Coords.reflected w n) := by
  rw [reflect, dot_ofCoords, ofNat_eq, number_mul, smul_ofCoords, sub_ofCoords, Coords.reflected_eq]

theorem refract_ofCoords (w n : Fin 3 → ℝ) {eta : ℝ} (heta : eta ≠ 0) :
    (ofCoords w : Vec3 (Exact z)).refract (ofCoords n) (number eta) =
      if Coords.farCosine2 eta (n ⬝ᵥ w) < 0 then zero else ofCoords (Coords.refracted w n eta) := by
  simp only [refract, dot_ofCoords, one_eq, number_div _ _ heta, Scalar.sqr, number_mul,
    number_sub, zero_eq, number_lt]
  split_ifs with htotal hfar hfar
  · rfl
  · exact absurd htotal hfar
  · exact absurd hfar htotal
  · rw [sqrt_number _ (not_lt.1 htotal), number_sub, smul_ofCoords, smul_ofCoords, sub_ofCoords]
    rfl

theorem exists_coords_refract (w n : Fin 3 → ℝ) {eta : Exact z} (heta : eta.IsPos) :
    ∃ v, (ofCoords w : Vec3 (Exact z)).refract (ofCoords n) eta = ofCoords v := by
  obtain ⟨x, hx, rfl⟩ := heta
  rw [refract_ofCoords _ _ hx.ne']
  split
  · exact ⟨0, ofCoords_zero.symm⟩
  · exact ⟨_, rfl⟩

theorem isZero_ofCoords {v : Fin 3 → ℝ} : (ofCoords v : Vec3 (Exact z)).isZero = true ↔ v = 0 := by
  simp [isZero, ofCoords, funext_iff, Fin.forall_fin_succ, and_assoc]

end Vec3

end Radiance
