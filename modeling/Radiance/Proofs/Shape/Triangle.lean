import Radiance.Proofs.Geometry.Linear
import Radiance.Shape.Mesh

/-!
# Rays and triangles

The test of a ray against a triangle divides three triple products by a fourth.  In exact arithmetic
this is Cramer's rule for the three equations that a point of the ray and a weighted mean of the
corners have in common, so the test finds the point of the triangle on the ray, and misses none.

## Main definitions

* `Triangle.Meets`: a point of the ray is a weighted mean of the corners.
* `Triangle.IsHit`: the weights are those of a point of the triangle, far enough along the ray.
* `Triangle.IsSteep`: the ray is not nearly parallel to the triangle.

## Main statements

* `Coords.eq_combination_iff`: Cramer's rule.
* `Triangle.intersect?_eq_some_iff`: the answers of the test.
* `Triangle.intersect?_swap`: the other winding has the same hits.
* `Triangle.hit_sound_complete`: the test is sound and complete.
-/

namespace Radiance

open Exact Matrix

variable {z : ZeroSign}

/-! ## Cramer's rule -/

namespace Coords

variable {e₁ e₂ d s : Fin 3 → ℝ} {t u v : ℝ}

/-- A vector by its parts along three others, with the volume they span on both sides. -/
theorem triple_smul (e₁ e₂ d s : Fin 3 → ℝ) :
    (e₁ ⬝ᵥ d ⨯₃ e₂) • s =
      (s ⬝ᵥ d ⨯₃ e₂) • e₁ + (d ⬝ᵥ s ⨯₃ e₁) • e₂ - (e₂ ⬝ᵥ s ⨯₃ e₁) • d := by
  ext i
  fin_cases i <;> simp [cross_apply, dotProduct, Fin.sum_univ_three] <;> ring

theorem triple_left (e₁ e₂ d : Fin 3 → ℝ) (t u v : ℝ) :
    (u • e₁ + v • e₂ - t • d) ⬝ᵥ d ⨯₃ e₂ = u * (e₁ ⬝ᵥ d ⨯₃ e₂) := by
  simp only [sub_dotProduct, add_dotProduct, smul_dotProduct, dot_self_cross, dot_cross_self,
    smul_eq_mul, mul_zero, add_zero, sub_zero]

theorem cross_combination (e₁ e₂ d : Fin 3 → ℝ) (t u v : ℝ) :
    (u • e₁ + v • e₂ - t • d) ⨯₃ e₁ = v • e₂ ⨯₃ e₁ + t • e₁ ⨯₃ d := by
  rw [map_sub, map_add, map_smul, map_smul, map_smul, LinearMap.sub_apply, LinearMap.add_apply,
    LinearMap.smul_apply, LinearMap.smul_apply, LinearMap.smul_apply, cross_self, smul_zero,
    zero_add, sub_eq_add_neg, ← smul_neg, cross_anticomm]

/-- Cramer's rule.  Where the determinant is not zero, the three equations have one solution. -/
theorem eq_combination_iff (hdet : e₁ ⬝ᵥ d ⨯₃ e₂ ≠ 0) :
    s = u • e₁ + v • e₂ - t • d ↔
      t = (e₁ ⬝ᵥ d ⨯₃ e₂)⁻¹ * (e₂ ⬝ᵥ s ⨯₃ e₁) ∧ u = (e₁ ⬝ᵥ d ⨯₃ e₂)⁻¹ * (s ⬝ᵥ d ⨯₃ e₂) ∧
        v = (e₁ ⬝ᵥ d ⨯₃ e₂)⁻¹ * (d ⬝ᵥ s ⨯₃ e₁) := by
  constructor
  · rintro rfl
    have hturn : e₂ ⬝ᵥ e₁ ⨯₃ d = e₁ ⬝ᵥ d ⨯₃ e₂ := triple_product_permutation e₂ e₁ d
    refine ⟨?_, ?_, ?_⟩
    · rw [cross_combination, dotProduct_add, dotProduct_smul, dotProduct_smul, dot_self_cross,
        hturn, smul_zero, zero_add, smul_eq_mul, mul_left_comm, inv_mul_cancel₀ hdet, mul_one]
    · rw [triple_left, mul_left_comm, inv_mul_cancel₀ hdet, mul_one]
    · rw [cross_combination, dotProduct_add, dotProduct_smul, dotProduct_smul, dot_cross_self,
        triple_product_permutation d, hturn, smul_zero, add_zero, smul_eq_mul, mul_left_comm,
        inv_mul_cancel₀ hdet, mul_one]
  · rintro ⟨rfl, rfl, rfl⟩
    rw [mul_smul, mul_smul, mul_smul, ← smul_add, ← smul_sub, ← triple_smul, smul_smul,
      inv_mul_cancel₀ hdet, one_smul]

end Coords

/-! ## Hits -/

namespace Triangle

variable {ray : Ray (Exact z)} {p₀ p₁ p₂ : Vec3 (Exact z)} {t u v : ℝ}

/-- The point of the ray at a distance is the mean of the corners with weights that add up to
one. -/
def Meets (ray : Ray (Exact z)) (p₀ p₁ p₂ : Vec3 (Exact z)) (t u v : ℝ) : Prop :=
  ray.pointAt (number t) =
    (number (1 - u - v) : Exact z) • p₀ + (number u : Exact z) • p₁ + (number v : Exact z) • p₂

/-- A point of the triangle on the ray that is not too close to its origin. -/
structure IsHit (ray : Ray (Exact z)) (p₀ p₁ p₂ : Vec3 (Exact z)) (t u v : ℝ) : Prop where
  meets : Meets ray p₀ p₁ p₂ t u v
  nonneg₁ : 0 ≤ u
  nonneg₂ : 0 ≤ v
  sum_le_one : u + v ≤ 1
  ahead : Scalar.epsilon < (number t : Exact z)

/-- The ray is not nearly parallel to the triangle. -/
def IsSteep (ray : Ray (Exact z)) (p₀ p₁ p₂ : Vec3 (Exact z)) : Prop :=
  Scalar.epsilon * Scalar.epsilon ≤
    Scalar.abs ((p₁ - p₀).dot (ray.direction.cross (p₂ - p₀)))

section

variable {o d a b c : Fin 3 → ℝ} {depth : UInt32}

theorem meets_ofCoords :
    Meets (⟨.ofCoords o, .ofCoords d, depth⟩ : Ray (Exact z)) (.ofCoords a) (.ofCoords b)
      (.ofCoords c) t u v ↔ o - a = u • (b - a) + v • (c - a) - t • d := by
  have hdifference : o + t • d - ((1 - u - v) • a + u • b + v • c) =
      o - a - (u • (b - a) + v • (c - a) - t • d) := by module
  rw [Meets, Ray.pointAt, Vec3.smul_ofCoords, Vec3.smul_ofCoords, Vec3.smul_ofCoords,
    Vec3.smul_ofCoords, Vec3.add_ofCoords, Vec3.add_ofCoords, Vec3.add_ofCoords, Vec3.ofCoords_inj,
    ← sub_eq_zero, hdifference, sub_eq_zero]

theorem isSteep_ofCoords :
    IsSteep (⟨.ofCoords o, .ofCoords d, depth⟩ : Ray (Exact z)) (.ofCoords a) (.ofCoords b)
      (.ofCoords c) ↔ 3e-4 * 3e-4 ≤ |(b - a) ⬝ᵥ d ⨯₃ (c - a)| := by
  simp only [IsSteep, Vec3.sub_ofCoords, Vec3.cross_ofCoords, Vec3.dot_ofCoords, abs_number,
    epsilon_eq, number_mul, number_le]

theorem IsSteep.determinant_ne_zero
    (h : IsSteep (⟨.ofCoords o, .ofCoords d, depth⟩ : Ray (Exact z)) (.ofCoords a) (.ofCoords b)
      (.ofCoords c)) : (b - a) ⬝ᵥ d ⨯₃ (c - a) ≠ 0 := by
  intro hzero
  rw [isSteep_ofCoords, hzero, abs_zero] at h
  norm_num at h

theorem intersect?_of_not_isSteep
    (h : ¬IsSteep (⟨.ofCoords o, .ofCoords d, depth⟩ : Ray (Exact z)) (.ofCoords a) (.ofCoords b)
      (.ofCoords c)) :
    intersect? (⟨.ofCoords o, .ofCoords d, depth⟩ : Ray (Exact z)) (.ofCoords a) (.ofCoords b)
      (.ofCoords c) = none := by
  rw [isSteep_ofCoords, not_le] at h
  simp only [intersect?, Vec3.sub_ofCoords, Vec3.cross_ofCoords, Vec3.dot_ofCoords, abs_number,
    epsilon_eq, number_mul, number_lt]
  exact if_pos h

/-- The test in real coordinates.  That the first weight is at most one follows from the other
bounds. -/
theorem intersect?_ofCoords
    (h : IsSteep (⟨.ofCoords o, .ofCoords d, depth⟩ : Ray (Exact z)) (.ofCoords a) (.ofCoords b)
      (.ofCoords c))
    (ht : t = ((b - a) ⬝ᵥ d ⨯₃ (c - a))⁻¹ * ((c - a) ⬝ᵥ (o - a) ⨯₃ (b - a)))
    (hu : u = ((b - a) ⬝ᵥ d ⨯₃ (c - a))⁻¹ * ((o - a) ⬝ᵥ d ⨯₃ (c - a)))
    (hv : v = ((b - a) ⬝ᵥ d ⨯₃ (c - a))⁻¹ * (d ⬝ᵥ (o - a) ⨯₃ (b - a))) :
    intersect? (⟨.ofCoords o, .ofCoords d, depth⟩ : Ray (Exact z)) (.ofCoords a) (.ofCoords b)
        (.ofCoords c) =
      if 0 ≤ u ∧ 0 ≤ v ∧ u + v ≤ 1 ∧ 3e-4 < t then some (number t, ⟨number u, number v⟩)
      else none := by
  have hdet := h.determinant_ne_zero
  rw [isSteep_ofCoords, ← not_lt] at h
  simp only [intersect?, Vec3.sub_ofCoords, Vec3.cross_ofCoords, Vec3.dot_ofCoords, abs_number,
    epsilon_eq, zero_eq, one_eq, number_mul, number_lt, if_neg h, number_div _ _ hdet, one_div,
    ← ht, ← hu, ← hv, number_add, number_le]
  by_cases hinside : 0 ≤ u ∧ 0 ≤ v ∧ u + v ≤ 1 ∧ 3e-4 < t
  · obtain ⟨hu₀, hv₀, hsum, hahead⟩ := hinside
    rw [if_pos ⟨hu₀, by linarith⟩, if_neg (not_or.2 ⟨not_lt.2 hv₀, not_lt.2 hsum⟩),
      if_neg (not_le.2 hahead), if_pos ⟨hu₀, hv₀, hsum, hahead⟩]
  · rw [if_neg hinside]
    split
    next hu₀ =>
      split
      · rfl
      next hv₀ =>
        rw [not_or, not_lt, not_lt] at hv₀
        exact if_pos (not_lt.1 fun hahead => hinside ⟨hu₀.1, hv₀.1, hv₀.2, hahead⟩)
    · rfl

end

theorem exists_coords (hray : ray.IsReal) (h₀ : p₀.IsReal) (h₁ : p₁.IsReal) (h₂ : p₂.IsReal) :
    ∃ o d a b c depth, ray = ⟨.ofCoords o, .ofCoords d, depth⟩ ∧ p₀ = .ofCoords a ∧
      p₁ = .ofCoords b ∧ p₂ = .ofCoords c := by
  obtain ⟨o, d, depth, hray⟩ := hray.exists_coords
  obtain ⟨a, h₀⟩ := h₀.exists_coords
  obtain ⟨b, h₁⟩ := h₁.exists_coords
  obtain ⟨c, h₂⟩ := h₂.exists_coords
  exact ⟨o, d, a, b, c, depth, hray, h₀, h₁, h₂⟩

/-- The test answers with the hits of rays that are not nearly parallel to the triangle. -/
theorem intersect?_eq_some_iff (hray : ray.IsReal) (h₀ : p₀.IsReal) (h₁ : p₁.IsReal)
    (h₂ : p₂.IsReal) {r : Exact z × Vec2 (Exact z)} :
    intersect? ray p₀ p₁ p₂ = some r ↔
      IsSteep ray p₀ p₁ p₂ ∧
        ∃ t u v, IsHit ray p₀ p₁ p₂ t u v ∧ r = (number t, ⟨number u, number v⟩) := by
  obtain ⟨o, d, a, b, c, depth, rfl, rfl, rfl, rfl⟩ := exists_coords hray h₀ h₁ h₂
  constructor
  · intro hr
    by_cases hsteep : IsSteep (⟨.ofCoords o, .ofCoords d, depth⟩ : Ray (Exact z)) (.ofCoords a)
      (.ofCoords b) (.ofCoords c)
    · rw [intersect?_ofCoords hsteep rfl rfl rfl] at hr
      split at hr
      next hinside =>
        obtain ⟨hu, hv, hsum, hahead⟩ := hinside
        refine ⟨hsteep, _, _, _, ⟨meets_ofCoords.2 ?_, hu, hv, hsum, hahead⟩,
          (Option.some.inj hr).symm⟩
        exact (Coords.eq_combination_iff hsteep.determinant_ne_zero).2 ⟨rfl, rfl, rfl⟩
      · cases hr
    · rw [intersect?_of_not_isSteep hsteep] at hr
      cases hr
  · rintro ⟨hsteep, t, u, v, ⟨hmeets, hu, hv, hsum, hahead⟩, rfl⟩
    obtain ⟨ht, hu', hv'⟩ := (Coords.eq_combination_iff hsteep.determinant_ne_zero).1
      (meets_ofCoords.1 hmeets)
    rw [intersect?_ofCoords hsteep ht hu' hv']
    exact if_pos ⟨hu, hv, hsum, hahead⟩

/-- A ray that is not nearly parallel has one point in the plane of the triangle. -/
theorem Meets.unique (hray : ray.IsReal) (h₀ : p₀.IsReal) (h₁ : p₁.IsReal) (h₂ : p₂.IsReal)
    (hsteep : IsSteep ray p₀ p₁ p₂) (h : Meets ray p₀ p₁ p₂ t u v) {t' u' v' : ℝ}
    (h' : Meets ray p₀ p₁ p₂ t' u' v') : t' = t ∧ u' = u ∧ v' = v := by
  obtain ⟨o, d, a, b, c, depth, rfl, rfl, rfl, rfl⟩ := exists_coords hray h₀ h₁ h₂
  rw [meets_ofCoords, Coords.eq_combination_iff hsteep.determinant_ne_zero] at h h'
  obtain ⟨rfl, rfl, rfl⟩ := h
  exact h'

/-! ## The other winding -/

theorem isSteep_swap (hray : ray.IsReal) (h₀ : p₀.IsReal) (h₁ : p₁.IsReal) (h₂ : p₂.IsReal) :
    IsSteep ray p₀ p₂ p₁ ↔ IsSteep ray p₀ p₁ p₂ := by
  obtain ⟨o, d, a, b, c, depth, rfl, rfl, rfl, rfl⟩ := exists_coords hray h₀ h₁ h₂
  have hturn : (c - a) ⬝ᵥ d ⨯₃ (b - a) = -((b - a) ⬝ᵥ d ⨯₃ (c - a)) := by
    rw [triple_product_permutation, triple_product_permutation, ← cross_anticomm, dotProduct_neg]
  rw [isSteep_ofCoords, isSteep_ofCoords, hturn, abs_neg]

theorem isHit_swap (hray : ray.IsReal) (h₀ : p₀.IsReal) (h₁ : p₁.IsReal) (h₂ : p₂.IsReal) :
    IsHit ray p₀ p₂ p₁ t v u ↔ IsHit ray p₀ p₁ p₂ t u v := by
  have hmeets : Meets ray p₀ p₂ p₁ t v u ↔ Meets ray p₀ p₁ p₂ t u v := by
    obtain ⟨o, d, a, b, c, depth, rfl, rfl, rfl, rfl⟩ := exists_coords hray h₀ h₁ h₂
    rw [meets_ofCoords, meets_ofCoords, add_comm]
  constructor
  · rintro ⟨hpoint, hv, hu, hsum, hahead⟩
    exact ⟨hmeets.1 hpoint, hu, hv, add_comm v u ▸ hsum, hahead⟩
  · rintro ⟨hpoint, hu, hv, hsum, hahead⟩
    exact ⟨hmeets.2 hpoint, hv, hu, add_comm u v ▸ hsum, hahead⟩

theorem intersect?_swap (hray : ray.IsReal) (h₀ : p₀.IsReal) (h₁ : p₁.IsReal) (h₂ : p₂.IsReal) :
    intersect? ray p₀ p₂ p₁ =
      (intersect? ray p₀ p₁ p₂).map fun (t, weights) => (t, ⟨weights.y, weights.x⟩) := by
  ext1 r
  rw [intersect?_eq_some_iff hray h₀ h₂ h₁, isSteep_swap hray h₀ h₁ h₂, Option.map_eq_some_iff]
  constructor
  · rintro ⟨hsteep, t, v, u, hhit, rfl⟩
    have hr := (intersect?_eq_some_iff hray h₀ h₁ h₂).2
      ⟨hsteep, t, u, v, (isHit_swap hray h₀ h₁ h₂).1 hhit, rfl⟩
    exact ⟨_, hr, rfl⟩
  · rintro ⟨_, hr, rfl⟩
    obtain ⟨hsteep, t, u, v, hhit, rfl⟩ := (intersect?_eq_some_iff hray h₀ h₁ h₂).1 hr
    exact ⟨hsteep, t, v, u, (isHit_swap hray h₀ h₁ h₂).2 hhit, rfl⟩

/-! ## The test -/

/-- The test is sound and complete.  A ray that is not nearly parallel to a triangle hits it if and
only if one of its points far enough along is a point of the triangle; the answer is the distance
and the weights of that point, and no other numbers solve the equations.  Seen with the other
winding, the hit is at the same distance and has its weights exchanged. -/
theorem hit_sound_complete (hray : ray.IsReal) (h₀ : p₀.IsReal) (h₁ : p₁.IsReal)
    (h₂ : p₂.IsReal) :
    ((intersect? ray p₀ p₁ p₂).isSome = true ↔
      IsSteep ray p₀ p₁ p₂ ∧ ∃ t u v, IsHit ray p₀ p₁ p₂ t u v) ∧
    (∀ r, intersect? ray p₀ p₁ p₂ = some r →
      ∃ t u v, r = (number t, ⟨number u, number v⟩) ∧ IsHit ray p₀ p₁ p₂ t u v ∧
        ∀ t' u' v', Meets ray p₀ p₁ p₂ t' u' v' → t' = t ∧ u' = u ∧ v' = v) ∧
    intersect? ray p₀ p₂ p₁ =
      (intersect? ray p₀ p₁ p₂).map fun (t, weights) => (t, ⟨weights.y, weights.x⟩) := by
  refine ⟨?_, ?_, intersect?_swap hray h₀ h₁ h₂⟩
  · rw [Option.isSome_iff_exists]
    constructor
    · rintro ⟨r, hr⟩
      obtain ⟨hsteep, t, u, v, hhit, -⟩ := (intersect?_eq_some_iff hray h₀ h₁ h₂).1 hr
      exact ⟨hsteep, t, u, v, hhit⟩
    · rintro ⟨hsteep, t, u, v, hhit⟩
      exact ⟨_, (intersect?_eq_some_iff hray h₀ h₁ h₂).2 ⟨hsteep, t, u, v, hhit, rfl⟩⟩
  · intro r hr
    obtain ⟨hsteep, t, u, v, hhit, rfl⟩ := (intersect?_eq_some_iff hray h₀ h₁ h₂).1 hr
    exact ⟨t, u, v, rfl, hhit, fun t' u' v' => hhit.meets.unique hray h₀ h₁ h₂ hsteep⟩

/-- A triangle across all axes, hit between its middle and the third corner. -/
theorem hit_sound_complete_oblique :
    let ray : Ray (Exact .plus) :=
      ⟨.ofCoords ![1 / 4, 1, 7 / 2], .ofCoords ![1 / 3, 2 / 3, 2 / 3], 0⟩
    let p₀ : Vec3 (Exact .plus) := .ofCoords ![1, 2, 3]
    let p₁ : Vec3 (Exact .plus) := .ofCoords ![4, 0, 5]
    let p₂ : Vec3 (Exact .plus) := .ofCoords ![0, 5, 7]
    ray.IsReal ∧ p₀.IsReal ∧ p₁.IsReal ∧ p₂.IsReal ∧
      intersect? ray p₀ p₁ p₂ = some (number 3, ⟨number (1 / 4), number (1 / 2)⟩) ∧
      intersect? ray p₀ p₂ p₁ = some (number 3, ⟨number (1 / 2), number (1 / 4)⟩) := by
  intro ray p₀ p₁ p₂
  have hray : ray.IsReal := ⟨Vec3.isReal_ofCoords _, Vec3.isReal_ofCoords _⟩
  have h₀ : p₀.IsReal := Vec3.isReal_ofCoords _
  have h₁ : p₁.IsReal := Vec3.isReal_ofCoords _
  have h₂ : p₂.IsReal := Vec3.isReal_ofCoords _
  have hsteep : IsSteep ray p₀ p₁ p₂ := by
    refine isSteep_ofCoords.2 ?_
    simp only [cross_apply, dotProduct, Fin.sum_univ_three, Pi.sub_apply, cons_val]
    norm_num
  have hhit : IsHit ray p₀ p₁ p₂ 3 (1 / 4) (1 / 2) := by
    refine ⟨meets_ofCoords.2 ?_, by norm_num, by norm_num, by norm_num, ?_⟩
    · ext i
      fin_cases i <;> norm_num
    · rw [epsilon_eq, number_lt]
      norm_num
  obtain ⟨hcomplete, hsound, hswap⟩ := hit_sound_complete hray h₀ h₁ h₂
  obtain ⟨r, hr⟩ := Option.isSome_iff_exists.1 (hcomplete.2 ⟨hsteep, _, _, _, hhit⟩)
  obtain ⟨t, u, v, rfl, -, hunique⟩ := hsound r hr
  obtain ⟨rfl, rfl, rfl⟩ := hunique _ _ _ hhit.meets
  rw [hr] at hswap
  exact ⟨hray, h₀, h₁, h₂, hr, hswap⟩

end Triangle

end Radiance
