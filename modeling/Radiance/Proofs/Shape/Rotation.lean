import Radiance.Proofs.Scattering.Normals
import Radiance.Proofs.Shape.Orientation

/-!
# Frames turn space

The axes of a right-handed frame are the rows of an orthogonal matrix, and the coordinates of a
direction in the frame are its image under that matrix.  So the way to the coordinates of the frame
and the way back undo each other, and neither changes lengths or angles.  The frame around a unit
normal is of this kind for every normal: its divisor is never less than one, since the sign in it is
that of the third component.

## Main definitions

* `Frame.IsRotation`: the two changes of coordinates undo each other and keep products.

## Main statements

* `Frame.Perpendicular.axes_mul_transpose`: the axes form an orthogonal matrix.
* `Frame.IsRightHanded.isRotation`: every right-handed frame turns space.
* `Frame.ofNormal_turns`: so does the frame around a unit normal.
-/

namespace Radiance

open Exact Matrix

variable {z : ZeroSign}

namespace Frame

/-! ## Coordinates in a frame -/

section

variable (t n w : Fin 3 → ℝ)

theorem toLocal_around :
    (around t n : Frame (Exact z)).toLocal (.ofCoords w) = .ofCoords (axes t n *ᵥ w) := by
  simp only [toLocal, around, Vec3.dot_ofCoords, dotProduct_comm w]
  rfl

theorem toWorld_around :
    (around t n : Frame (Exact z)).toWorld (.ofCoords w) = .ofCoords ((axes t n)ᵀ *ᵥ w) := by
  have hsum : (axes t n)ᵀ *ᵥ w = w 0 • t + w 1 • n ⨯₃ t + w 2 • n := by
    ext i
    simp [axes, mulVec, dotProduct, Fin.sum_univ_three, mul_comm]
  rw [hsum, ← Vec3.add_ofCoords, ← Vec3.add_ofCoords, ← Vec3.smul_ofCoords, ← Vec3.smul_ofCoords,
    ← Vec3.smul_ofCoords]
  rfl

end

namespace Perpendicular

variable {t n : Fin 3 → ℝ}

/-- The products of the axes with each other. -/
theorem axes_mul_transpose (h : Perpendicular t n) : axes t n * (axes t n)ᵀ = 1 := by
  have hright : t ⬝ᵥ n ⨯₃ t = 0 := dot_cross_self n t
  have hback : n ⨯₃ t ⬝ᵥ n = 0 := by rw [dotProduct_comm, dot_self_cross]
  have hentry (i j : Fin 3) :
      (axes t n * (axes t n)ᵀ) i j = ![t, n ⨯₃ t, n] i ⬝ᵥ ![t, n ⨯₃ t, n] j := rfl
  ext i j
  rw [hentry]
  fin_cases i <;> fin_cases j <;>
    simp [h.left, h.right, h.dot, h.bitangent_unit, hright, hback, dotProduct_comm n t,
      dotProduct_comm (n ⨯₃ t) t, dotProduct_comm n (n ⨯₃ t)]

theorem transpose_mul_axes (h : Perpendicular t n) : (axes t n)ᵀ * axes t n = 1 :=
  mul_eq_one_comm.1 h.axes_mul_transpose

end Perpendicular

/-! ## Rotations -/

/-- The change to the coordinates of a frame and the change back undo each other and keep
products. -/
structure IsRotation (f : Frame (Exact z)) : Prop where
  toWorld_toLocal : ∀ w : Vec3 (Exact z), w.IsReal → f.toWorld (f.toLocal w) = w
  toLocal_toWorld : ∀ w : Vec3 (Exact z), w.IsReal → f.toLocal (f.toWorld w) = w
  dot_toLocal : ∀ v w : Vec3 (Exact z), v.IsReal → w.IsReal →
    (f.toLocal v).dot (f.toLocal w) = v.dot w
  dot_toWorld : ∀ v w : Vec3 (Exact z), v.IsReal → w.IsReal →
    (f.toWorld v).dot (f.toWorld w) = v.dot w

/-- A matrix keeps products if its transpose undoes it. -/
theorem mulVec_dotProduct_mulVec {M : Matrix (Fin 3) (Fin 3) ℝ} (hM : Mᵀ * M = 1)
    (v w : Fin 3 → ℝ) : M *ᵥ v ⬝ᵥ M *ᵥ w = v ⬝ᵥ w := by
  rw [dotProduct_mulVec, ← mulVec_transpose, mulVec_mulVec, hM, one_mulVec]

/-- Every right-handed frame turns space. -/
theorem IsRightHanded.isRotation {f : Frame (Exact z)} (hf : f.IsRightHanded) : f.IsRotation := by
  obtain ⟨t, n, h, rfl⟩ := hf.exists_around
  refine ⟨fun w hw => ?_, fun w hw => ?_, fun v w hv hw => ?_, fun v w hv hw => ?_⟩
  · obtain ⟨w, rfl⟩ := hw.exists_coords
    rw [toLocal_around, toWorld_around, mulVec_mulVec, h.transpose_mul_axes, one_mulVec]
  · obtain ⟨w, rfl⟩ := hw.exists_coords
    rw [toWorld_around, toLocal_around, mulVec_mulVec, h.axes_mul_transpose, one_mulVec]
  · obtain ⟨v, rfl⟩ := hv.exists_coords
    obtain ⟨w, rfl⟩ := hw.exists_coords
    rw [toLocal_around, toLocal_around, Vec3.dot_ofCoords, Vec3.dot_ofCoords,
      mulVec_dotProduct_mulVec h.transpose_mul_axes]
  · obtain ⟨v, rfl⟩ := hv.exists_coords
    obtain ⟨w, rfl⟩ := hw.exists_coords
    rw [toWorld_around, toWorld_around, Vec3.dot_ofCoords, Vec3.dot_ofCoords,
      mulVec_dotProduct_mulVec (by rw [transpose_transpose, h.axes_mul_transpose])]

/-- The divisor of the frame around a normal has the sign of the third component in both of its
terms. -/
theorem one_le_divisor (x : ℝ) :
    1 ≤ Scalar.abs (Scalar.copySign 1 (number x) + number x : Exact z) := by
  obtain ⟨s, hsign, hs, hside⟩ := exists_copySign (z := z) x
  have hsquare : (s + x) ^ 2 = 1 + 2 * (s * x) + x ^ 2 := by linear_combination hs
  have hone : 1 ≤ |s + x| := by
    rw [← one_le_sq_iff_one_le_abs, hsquare]
    linarith [sq_nonneg x]
  rw [one_eq, hsign, number_add, abs_number, number_le]
  exact hone

/-- The frame around a unit normal is a rotation that carries the third axis to the normal, with the
zeros of the normal read under either sign.  Its divisor is at least one in magnitude. -/
theorem ofNormal_turns {n : Vec3 (Exact z)} (hn : n.length = 1) :
    1 ≤ Scalar.abs (Scalar.copySign 1 n.z + n.z) ∧
      (ofNormal n).IsOrthonormal ∧ (ofNormal n).normal = n ∧ (ofNormal n).IsRotation := by
  obtain ⟨u, hu, rfl⟩ := Vec3.exists_coords_of_length hn
  have hframe := isRightHanded_ofNormal (z := z) hu
  exact ⟨one_le_divisor (u 2), hframe.isOrthonormal, rfl, hframe.isRotation⟩

/-- Straight down, and along the first axis with zeros read as negative ones: in both cases the sign
is the negative one. -/
theorem ofNormal_turns_down :
    let down : Vec3 (Exact .plus) := -.unitZ
    let across : Vec3 (Exact .minus) := .unitX
    (down.length = 1 ∧ Scalar.copySign 1 down.z = -1 ∧ (ofNormal down).IsOrthonormal ∧
      (ofNormal down).normal = down ∧ (ofNormal down).IsRotation) ∧
    across.length = 1 ∧ Scalar.copySign 1 across.z = -1 ∧ (ofNormal across).IsOrthonormal ∧
      (ofNormal across).normal = across ∧ (ofNormal across).IsRotation := by
  intro down across
  have hdown : down.length = 1 := by
    have hcoords : down = .ofCoords ![0, 0, -1] := by simp [down, Vec3.unitZ, Vec3.ofCoords]
    rw [hcoords]
    exact Vec3.length_ofCoords_eq_one (by simp)
  have hacross : across.length = 1 := by
    have hcoords : across = .ofCoords ![1, 0, 0] := by simp [across, Vec3.unitX, Vec3.ofCoords]
    rw [hcoords]
    exact Vec3.length_ofCoords_eq_one (by simp)
  have hdownSign : Scalar.copySign 1 down.z = -1 := by
    simp [down, Vec3.unitZ, Scalar.copySign, isMinus, Exact.abs, Exact.neg]
  have hacrossSign : Scalar.copySign 1 across.z = -1 := by
    simp [across, Vec3.unitX, Scalar.copySign, isMinus, Exact.abs, Exact.neg]
  exact ⟨⟨hdown, hdownSign, (ofNormal_turns hdown).2⟩, hacross, hacrossSign,
    (ofNormal_turns hacross).2⟩

end Frame

end Radiance
