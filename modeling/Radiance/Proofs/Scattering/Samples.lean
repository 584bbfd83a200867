import Radiance.Proofs.Random.Unit
import Radiance.Proofs.Scattering.Values

/-!
# Sampled directions and their weights

From draws of the unit interval every material samples a real direction that is not zero, with a
weight that is not negative, or says that the sample has failed.  What has to be shown is that no
vector on the way to a unit vector is zero and that no divisor is.

## Main definitions

* `BsdfSample.IsFair`: what a sample is then.

## Main statements

* `Warp.exists_coords_cosineHemisphere`, `Microfacet.exists_coords_sampleVisible`: the directions
  and the normals that are drawn.
* `Bsdf.IsPhysical.ensures_sample`: the samples of all materials.
-/

namespace Radiance

open Exact Matrix

variable {z : ZeroSign}

/-! ## Directions of a hemisphere -/

namespace Warp

/-- Real coordinates give a real point of the disk.  They are divided by the larger of the two,
which is not zero away from the center. -/
theorem isReal_disk (x y : ℝ) : (disk ⟨number x, number y⟩ : Vec2 (Exact z)).IsReal := by
  have hoffset : ((2 : Exact z) • (⟨number x, number y⟩ : Vec2 (Exact z)) - Vec2.splat 1 :
      Vec2 (Exact z)) = ⟨number (2 * x - 1), number (2 * y - 1)⟩ := by
    change (⟨2 * number x - 1, 2 * number y - 1⟩ : Vec2 (Exact z)) = _
    simp
  have hquarter : (Scalar.quarterPi : Exact z) = number (Real.pi / 4) := by
    rw [Scalar.quarterPi, pi_eq, ofNat_eq, number_div _ _ four_ne_zero]
  have hhalf : (Scalar.halfPi : Exact z) = number (Real.pi / 2) := by
    rw [Scalar.halfPi, pi_eq, ofNat_eq, number_div _ _ two_ne_zero]
  simp only [disk, hoffset]
  generalize 2 * x - 1 = a
  generalize 2 * y - 1 = b
  split
  · exact ⟨0, 0, by simp [Vec2.zero, Vec2.splat]⟩
  next hcenter =>
    obtain ⟨r, θ, hpolar⟩ : ∃ r θ : ℝ,
        (if Scalar.abs (number b) < Scalar.abs (number a) then
          (number a, Scalar.quarterPi * (number b / number a))
        else (number b, Scalar.halfPi - Scalar.quarterPi * (number a / number b))) =
          ((number r, number θ) : Exact z × Exact z) := by
      rw [hquarter, hhalf]
      simp only [abs_number, number_lt]
      split_ifs with hwide
      · have ha : a ≠ 0 := by
          rintro rfl
          exact absurd hwide (by simp)
        exact ⟨a, _, by rw [number_div _ _ ha, number_mul]⟩
      · have hb : b ≠ 0 := by
          rintro rfl
          rw [abs_zero, not_lt, abs_nonpos_iff] at hwide
          simp [hwide] at hcenter
        exact ⟨b, _, by rw [number_div _ _ hb, number_mul, number_sub]⟩
    rw [hpolar]
    exact ⟨r * Real.cos θ, r * Real.sin θ, rfl⟩

/-- The height over the center of the disk is one. -/
theorem exists_coords_cosineHemisphere (x y : ℝ) :
    ∃ u, u ≠ 0 ∧ cosineHemisphere ⟨number x, number y⟩ = (.ofCoords u : Vec3 (Exact z)) := by
  obtain ⟨a, b, hdisk⟩ := isReal_disk (z := z) x y
  refine ⟨![a, b, √(max (1 - (a * a + b * b)) 0)], fun hzero => ?_, ?_⟩
  · obtain rfl : a = 0 := congrFun hzero 0
    obtain rfl : b = 0 := congrFun hzero 1
    have hheight : √(max (1 - (0 * 0 + 0 * 0)) 0) = (0 : ℝ) := congrFun hzero 2
    norm_num at hheight
  · rw [cosineHemisphere, hdisk, Vec2.lengthSquared, number_mul, number_mul, number_add, one_eq,
      number_sub, safeSqrt_number]
    rfl

end Warp

theorem Lobe.exists_coords_diffuseDirection (wo : Vec3 (Exact z)) (x y : ℝ) :
    ∃ u, u ≠ 0 ∧ diffuseDirection wo ⟨number x, number y⟩ = .ofCoords u := by
  obtain ⟨u, hu, hwarp⟩ := Warp.exists_coords_cosineHemisphere (z := z) x y
  rw [diffuseDirection, hwarp]
  by_cases hback : wo.z < 0
  · refine ⟨![u 0, u 1, -u 2], fun hzero => hu ?_, by rw [if_pos hback]; rfl⟩
    have h₂ : -u 2 = 0 := congrFun hzero 2
    ext i
    fin_cases i
    · exact congrFun hzero 0
    · exact congrFun hzero 1
    · exact neg_eq_zero.1 h₂
  · exact ⟨u, hu, by rw [if_neg hback]⟩

/-! ## Visible normals -/

namespace Microfacet

section

variable {α : Type} [Scalar α]

/-- A direction of view, stretched so that the normals become those of a hemisphere, and turned
above the surface. -/
def stretched (alpha : α) (wo : Vec3 α) : Vec3 α :=
  Scalar.copySign 1 (Local.cosTheta wo) • (⟨alpha * wo.x, alpha * wo.y, wo.z⟩ : Vec3 α).normalize

/-- A horizontal unit vector across a direction. -/
def across (v : Vec3 α) : Vec3 α :=
  let len2 := v.x * v.x + v.y * v.y
  if 0 < len2 then (⟨-v.y, v.x, 0⟩ : Vec3 α) / Scalar.sqrt len2 else .unitX

/-- The point of the hemisphere around a direction over a point of its projection. -/
def overProjected (v t : Vec3 α) (p q : α) : Vec3 α :=
  p • t + q • v.cross t + Scalar.safeSqrt (1 - Scalar.sqr p - Scalar.sqr q) • v

/-- The second coordinate of a point of the projection, which the part of the hemisphere below the
surface does not reach. -/
def warped (v : Vec3 α) (p w : α) : α :=
  let s := 0.5 * (1 + v.z)
  (1 - s) * Scalar.safeSqrt (1 - Scalar.sqr p) + s * w

/-- A point of the hemisphere back among the normals of the surface. -/
def squeezed (alpha : α) (n : Vec3 α) : Vec3 α :=
  (⟨alpha * n.x, alpha * n.y, Scalar.max n.z 0⟩ : Vec3 α).normalize

/-- A visible normal by its steps. -/
theorem sampleVisible_eq (alpha : α) (wo : Vec3 α) (u : Vec2 α) :
    sampleVisible alpha wo u =
      let v := stretched alpha wo
      let p := Scalar.sqrt u.x * Scalar.cos (2 * Scalar.pi * u.y)
      let w := Scalar.sqrt u.x * Scalar.sin (2 * Scalar.pi * u.y)
      Scalar.copySign 1 (Local.cosTheta wo) •
        squeezed alpha (overProjected v (across v) p (warped v p w)) := rfl

end

variable {a : ℝ} {o v t n : Fin 3 → ℝ}

theorem stretch_ne_zero (ha : 0 < a) (ho : o ≠ 0) : ![a * o 0, a * o 1, o 2] ≠ 0 := by
  intro hzero
  refine ho (funext fun i => ?_)
  fin_cases i
  · exact (mul_eq_zero.1 (congrFun hzero 0)).resolve_left ha.ne'
  · exact (mul_eq_zero.1 (congrFun hzero 1)).resolve_left ha.ne'
  · exact congrFun hzero 2

theorem stretched_ofCoords (ha : 0 < a) (ho : o ≠ 0) {s : ℝ}
    (hsign : (Scalar.copySign (number 1) (number (o 2)) : Exact z) = number s) :
    stretched (number a : Exact z) (.ofCoords o) =
      .ofCoords (s • Coords.unit ![a * o 0, a * o 1, o 2]) := by
  rw [stretched, one_eq, ← Vec3.smul_ofCoords, ← Vec3.normalize_ofCoords (stretch_ne_zero ha ho),
    ← hsign]
  rfl

theorem turned_height (q : Fin 3 → ℝ) (s : ℝ) :
    (s • Coords.unit q) 2 = (Coords.length q)⁻¹ * (s * q 2) := by
  simp only [Coords.unit, Pi.smul_apply, smul_eq_mul]
  ring

theorem turned_unit {q : Fin 3 → ℝ} (hq : q ≠ 0) {s : ℝ} (hs : s * s = 1) :
    s • Coords.unit q ⬝ᵥ s • Coords.unit q = 1 := by
  rw [smul_dotProduct, dotProduct_smul, Coords.unit_dotProduct_unit hq, smul_eq_mul, smul_eq_mul,
    mul_one, hs]

/-- The stretched direction is a unit vector above the surface. -/
theorem stretched_unit_above (ha : 0 < a) (ho : o ≠ 0) {s : ℝ} (hs : s * s = 1)
    (hside : 0 ≤ s * o 2) :
    let v := s • Coords.unit ![a * o 0, a * o 1, o 2]
    v ⬝ᵥ v = 1 ∧ 0 ≤ v 2 := by
  have hq := stretch_ne_zero ha ho
  refine ⟨turned_unit hq hs, ?_⟩
  rw [turned_height]
  exact mul_nonneg (inv_nonneg.2 (Coords.length_pos hq).le) hside

/-- The vector across is horizontal, and the product of the direction with it does not lead down. -/
theorem exists_coords_across (v : Fin 3 → ℝ) :
    ∃ t, across (.ofCoords v : Vec3 (Exact z)) = .ofCoords t ∧ t ⬝ᵥ t = 1 ∧ t ⬝ᵥ v = 0 ∧
      t 2 = 0 ∧ 0 ≤ (v ⨯₃ t) 2 := by
  simp only [across, Vec3.ofCoords, zero_eq, number_mul, number_add, number_lt]
  split_ifs with hslanted
  · have hroot := Real.mul_self_sqrt hslanted.le
    have hpos := Real.sqrt_pos.2 hslanted
    rw [sqrt_number _ hslanted.le]
    generalize √(v 0 * v 0 + v 1 * v 1) = l at hroot hpos
    refine ⟨![-v 1 / l, v 0 / l, 0], by simp [number_div _ _ hpos.ne'], ?_, ?_, rfl, ?_⟩
    · simp only [dotProduct, Fin.sum_univ_three, cons_val]
      field_simp
      linear_combination -hroot
    · simp only [dotProduct, Fin.sum_univ_three, cons_val]
      ring
    · have hheight : (v ⨯₃ ![-v 1 / l, v 0 / l, 0]) 2 = (v 0 * v 0 + v 1 * v 1) / l := by
        simp only [cross_apply, cons_val]
        ring
      rw [hheight]
      exact (div_pos hslanted hpos).le
  · have hx : v 0 = 0 := by nlinarith [mul_self_nonneg (v 0), mul_self_nonneg (v 1)]
    have hy : v 1 = 0 := by nlinarith [mul_self_nonneg (v 0), mul_self_nonneg (v 1)]
    exact ⟨![1, 0, 0], by simp [Vec3.unitX], by simp [dotProduct, Fin.sum_univ_three],
      by simp [dotProduct, Fin.sum_univ_three, hx], rfl, by simp [cross_apply, hy]⟩

/-- `overProjected` of real coordinates, for the three axes of the hemisphere. -/
noncomputable def overReal (v t b : Fin 3 → ℝ) (p q : ℝ) : Fin 3 → ℝ :=
  p • t + q • b + √(max (1 - p * p - q * q) 0) • v

/-- `warped` of real coordinates, for a direction of a height. -/
noncomputable def warpedReal (height p w : ℝ) : ℝ :=
  (1 - 0.5 * (1 + height)) * √(max (1 - p * p) 0) + 0.5 * (1 + height) * w

theorem overProjected_ofCoords (v t : Fin 3 → ℝ) (p q : ℝ) :
    overProjected (.ofCoords v) (.ofCoords t) (number p) (number q) =
      (.ofCoords (overReal v t (v ⨯₃ t) p q) : Vec3 (Exact z)) := by
  simp only [overProjected, overReal, Scalar.sqr, one_eq, number_mul, number_sub, safeSqrt_number,
    Vec3.cross_ofCoords, Vec3.smul_ofCoords, Vec3.add_ofCoords]

theorem warped_ofCoords (v : Fin 3 → ℝ) (p w : ℝ) :
    warped (.ofCoords v) (number p) (number w) = (number (warpedReal (v 2) p w) : Exact z) := by
  simp only [warped, warpedReal, Vec3.ofCoords, Scalar.sqr, one_eq, ofScientific_eq, number_mul,
    number_add, number_sub, safeSqrt_number]

theorem height_le_one (hv : v ⬝ᵥ v = 1) : v 2 ≤ 1 := by
  simp only [dotProduct, Fin.sum_univ_three] at hv
  nlinarith [mul_self_nonneg (v 0), mul_self_nonneg (v 1)]

/-- Over the middle line of the projection the second coordinate is less than one. -/
theorem abs_warpedReal_lt_one {c p w : ℝ} (hup : 0 ≤ c) (hone : c ≤ 1) (hw : |w| < 1) (hp : p = 0) :
    |warpedReal c p w| < 1 := by
  subst hp
  obtain ⟨hlow, hhigh⟩ := abs_lt.1 hw
  norm_num [warpedReal]
  rw [abs_lt]
  constructor <;> nlinarith

theorem overReal_dotProduct_across (ht : t ⬝ᵥ t = 1) (htv : t ⬝ᵥ v = 0) (p q : ℝ) :
    overReal v t (v ⨯₃ t) p q ⬝ᵥ t = p := by
  simp only [overReal, add_dotProduct, smul_dotProduct, ht, dotProduct_comm (v ⨯₃ t),
    dot_cross_self, dotProduct_comm v, htv, smul_eq_mul]
  ring

theorem overReal_dotProduct (hv : v ⬝ᵥ v = 1) (htv : t ⬝ᵥ v = 0) (p q : ℝ) :
    overReal v t (v ⨯₃ t) p q ⬝ᵥ v = √(max (1 - p * p - q * q) 0) := by
  simp only [overReal, add_dotProduct, smul_dotProduct, hv, dotProduct_comm (v ⨯₃ t),
    dot_self_cross, htv, smul_eq_mul]
  ring

/-- A point of the hemisphere around a direction above the surface is not straight below it. -/
theorem not_below (hv : v ⬝ᵥ v = 1) (ht : t ⬝ᵥ t = 1) (htv : t ⬝ᵥ v = 0) (hup : 0 ≤ v 2)
    (hflat : t 2 = 0) {p q : ℝ} (hq : p = 0 → |q| < 1) :
    let n := overReal v t (v ⨯₃ t) p q
    ¬(n 0 = 0 ∧ n 1 = 0 ∧ n 2 ≤ 0) := by
  intro n hbelow
  obtain ⟨hx, hy, hz⟩ := hbelow
  have hdot (w : Fin 3 → ℝ) : n ⬝ᵥ w = n 2 * w 2 := by
    simp [dotProduct, Fin.sum_univ_three, hx, hy]
  have hp : p = 0 := by rw [← overReal_dotProduct_across ht htv p q, hdot, hflat, mul_zero]
  obtain ⟨hlow, hhigh⟩ := abs_lt.1 (hq hp)
  have hheight : 0 < √(max (1 - p * p - q * q) 0) := by
    refine Real.sqrt_pos.2 (lt_max_of_lt_left ?_)
    rw [hp]
    nlinarith
  rw [← overReal_dotProduct hv htv, hdot] at hheight
  exact absurd hheight (not_lt.2 (mul_nonpos_of_nonpos_of_nonneg hz hup))

theorem squeezed_ofCoords (ha : 0 < a) (hn : ¬(n 0 = 0 ∧ n 1 = 0 ∧ n 2 ≤ 0)) :
    squeezed (number a : Exact z) (.ofCoords n) =
      .ofCoords (Coords.unit ![a * n 0, a * n 1, max (n 2) 0]) := by
  have hne : ![a * n 0, a * n 1, max (n 2) 0] ≠ 0 := by
    intro hzero
    refine hn ⟨?_, ?_, max_eq_right_iff.1 (congrFun hzero 2)⟩
    · exact (mul_eq_zero.1 (congrFun hzero 0)).resolve_left ha.ne'
    · exact (mul_eq_zero.1 (congrFun hzero 1)).resolve_left ha.ne'
  rw [← Vec3.normalize_ofCoords hne, squeezed, Vec3.ofCoords, zero_eq, max_number]
  rfl

theorem sqrt_mul_cos {x : ℝ} (hx : 0 ≤ x) (φ : ℝ) :
    (Scalar.sqrt (number x) * Scalar.cos (number φ) : Exact z) = number (√x * Real.cos φ) := by
  rw [sqrt_number _ hx]
  rfl

theorem sqrt_mul_sin {x : ℝ} (hx : 0 ≤ x) (φ : ℝ) :
    (Scalar.sqrt (number x) * Scalar.sin (number φ) : Exact z) = number (√x * Real.sin φ) := by
  rw [sqrt_number _ hx]
  rfl

/-- The point of the hemisphere for two draws, in real coordinates. -/
theorem overProjected_drawn {s x : ℝ} (ha : 0 < a) (ho : o ≠ 0) (hx : 0 ≤ x) (y : ℝ)
    (hsign : (Scalar.copySign (number 1) (number (o 2)) : Exact z) = number s)
    (hv : v = s • Coords.unit ![a * o 0, a * o 1, o 2])
    (hacross : across (.ofCoords v : Vec3 (Exact z)) = .ofCoords t)
    (hn : n = overReal v t (v ⨯₃ t) (√x * Real.cos (2 * Real.pi * y))
      (warpedReal (v 2) (√x * Real.cos (2 * Real.pi * y)) (√x * Real.sin (2 * Real.pi * y)))) :
    let view := stretched (number a : Exact z) (.ofCoords o)
    let p := Scalar.sqrt (number x) * Scalar.cos (2 * Scalar.pi * number y)
    overProjected view (across view) p
        (warped view p (Scalar.sqrt (number x) * Scalar.sin (2 * Scalar.pi * number y))) =
      .ofCoords n := by
  simp only [stretched_ofCoords ha ho hsign, ← hv, hacross, turn_number, sqrt_mul_cos hx,
    sqrt_mul_sin hx, warped_ofCoords, overProjected_ofCoords, ← hn]

/-- A visible normal in real coordinates.  The point over the projection is squeezed back and turned
to the side of the direction of view. -/
theorem sampleVisible_ofCoords {s x : ℝ} (ha : 0 < a) (ho : o ≠ 0) (hx : 0 ≤ x) (y : ℝ)
    (hsign : (Scalar.copySign (number 1) (number (o 2)) : Exact z) = number s)
    (hv : v = s • Coords.unit ![a * o 0, a * o 1, o 2])
    (hacross : across (.ofCoords v : Vec3 (Exact z)) = .ofCoords t)
    (hn : n = overReal v t (v ⨯₃ t) (√x * Real.cos (2 * Real.pi * y))
      (warpedReal (v 2) (√x * Real.cos (2 * Real.pi * y)) (√x * Real.sin (2 * Real.pi * y))))
    (habove : ¬(n 0 = 0 ∧ n 1 = 0 ∧ n 2 ≤ 0)) :
    sampleVisible (number a : Exact z) (.ofCoords o) ⟨number x, number y⟩ =
      .ofCoords (s • Coords.unit ![a * n 0, a * n 1, max (n 2) 0]) := by
  have hpoint := overProjected_drawn ha ho hx y hsign hv hacross hn
  simp only at hpoint
  simp only [sampleVisible_eq, hpoint, squeezed_ofCoords ha habove]
  rw [← Vec3.smul_ofCoords, ← hsign, one_eq]
  rfl

/-- The normal drawn for a direction is real. -/
theorem exists_coords_sampleVisible {alpha : Exact z} (halpha : alpha.IsPos) (ho : o ≠ 0)
    {u : Vec2 (Exact z)} (hx : u.x.IsDraw) (hy : u.y.IsDraw) :
    ∃ h, sampleVisible alpha (.ofCoords o) u = .ofCoords h := by
  obtain ⟨a, ha, rfl⟩ := halpha
  obtain ⟨x, hx, hx', hux⟩ := hx
  obtain ⟨y, -, -, huy⟩ := hy
  obtain ⟨s, hsign, hs, hside⟩ := exists_copySign (z := z) (o 2)
  obtain ⟨hv, hup⟩ := stretched_unit_above ha ho hs hside
  obtain ⟨t, hacross, ht, htv, hflat, -⟩ := exists_coords_across (z := z)
    (s • Coords.unit ![a * o 0, a * o 1, o 2])
  have hcircle : |√x * Real.sin (2 * Real.pi * y)| < 1 := by
    rw [abs_mul, abs_of_nonneg (Real.sqrt_nonneg x)]
    refine lt_of_le_of_lt (mul_le_of_le_one_right (Real.sqrt_nonneg x) (Real.abs_sin_le_one _)) ?_
    exact (Real.sqrt_lt' one_pos).2 (by simpa using hx')
  rw [show u = ⟨number x, number y⟩ from Vec2.ext hux huy]
  exact ⟨_, sampleVisible_ofCoords ha ho hx y hsign rfl hacross rfl
    (not_below hv ht htv hup hflat fun hp =>
      abs_warpedReal_lt_one hup (height_le_one hv) hcircle hp)⟩

end Microfacet

/-! ## Samples -/

/-- A weight that is not negative, and a real direction that is not zero unless the sample
failed. -/
structure BsdfSample.IsFair (s : BsdfSample (Exact z)) : Prop where
  weight : s.weight.IsNonneg
  direction : s.isInvalid = false → ∃ u, u ≠ 0 ∧ s.wi = .ofCoords u

theorem BsdfSample.isInvalid_invalid : (invalid : BsdfSample (Exact z)).isInvalid = true := by
  simp [isInvalid, invalid, Vec3.isZero, Vec3.zero, Vec3.splat]

theorem BsdfSample.isFair_invalid : (invalid : BsdfSample (Exact z)).IsFair :=
  ⟨Vec3.isNonneg_zero, fun h => absurd (isInvalid_invalid.symm.trans h) (by decide)⟩

/-- Dividing the weight by a probability makes no failed sample valid. -/
theorem BsdfSample.IsFair.div {s : BsdfSample (Exact z)} {p : Exact z} (hs : s.IsFair)
    (hp : p.IsPos) : ({ s with weight := s.weight / p } : BsdfSample (Exact z)).IsFair := by
  refine ⟨hs.weight.div hp, fun hvalid => hs.direction ?_⟩
  obtain ⟨x, hx, rfl⟩ := hp
  cases hinvalid : s.isInvalid with
  | false => rfl
  | true =>
    simp only [isInvalid, Vec3.isZero, Bool.and_eq_true, beq_iff] at hinvalid
    obtain ⟨⟨hr, hg⟩, hb⟩ := hinvalid
    have hweight : s.weight = ⟨0, 0, 0⟩ := Vec3.ext hr.1 hg.1 hb.1
    simp [isInvalid, Vec3.isZero, hweight, number_div _ _ hx.ne'] at hvalid

namespace Lobe

variable {color : Color (Exact z)} {alpha : Exact z} {o : Fin 3 → ℝ}

theorem isFair_glossyAbout (hcolor : color.IsNonneg) (halpha : alpha.IsPos) (o h : Fin 3 → ℝ) :
    (glossyAbout color alpha (.ofCoords o) (.ofCoords h)).IsFair := by
  simp only [glossyAbout, Vec3.reflect_ofCoords]
  generalize Coords.reflected o h = i
  split
  next hside =>
    refine ⟨.smul (Microfacet.isNonneg_masking halpha.isNonneg.isReal (Vec3.isReal_ofCoords i)
      (Vec3.isReal_ofCoords h)) hcolor, fun _ => ⟨i, ?_, rfl⟩⟩
    rintro rfl
    exact (Local.ne_zero_of_sameHemisphere hside).2 rfl
  · exact BsdfSample.isFair_invalid

variable {σ : Type} [Sampler σ (Exact z)]

theorem ensures_sampleGlossy (hcolor : color.IsNonneg) (halpha : alpha.IsPos) (ho : o ≠ 0) :
    Ensures Sampler.DrawsUnit BsdfSample.IsFair
      (sampleGlossy color alpha (.ofCoords o) : StateM σ (BsdfSample (Exact z))) := by
  refine Sampler.ensures_next₂.bind fun u hu => .pure ?_
  obtain ⟨h, hvisible⟩ := Microfacet.exists_coords_sampleVisible halpha ho hu.1 hu.2
  rw [hvisible]
  exact isFair_glossyAbout hcolor halpha o h

/-- A matte lobe samples directions of its hemisphere, under any weight. -/
theorem ensures_diffuseDirection {weight : Color (Exact z)} (hweight : weight.IsNonneg)
    (wo : Vec3 (Exact z)) :
    Ensures Sampler.DrawsUnit BsdfSample.IsFair (do
      let u ← Sampler.next₂
      return ⟨diffuseDirection wo u, weight⟩ : StateM σ (BsdfSample (Exact z))) := by
  refine Sampler.ensures_next₂.bind fun u hu => .pure ⟨hweight, fun _ => ?_⟩
  obtain ⟨x, -, -, hx⟩ := hu.1
  obtain ⟨y, -, -, hy⟩ := hu.2
  rw [show u = ⟨number x, number y⟩ from Vec2.ext hx hy]
  exact exists_coords_diffuseDirection wo x y

end Lobe

namespace Bsdf

variable {uv : Vec2 (Exact z)} {o : Fin 3 → ℝ} {ior alpha : Exact z} {r t : Color (Exact z)}

/-- The normal on the side of a direction is the upright, turned by a sign. -/
theorem exists_coords_sideNormal (o : Fin 3 → ℝ) :
    ∃ s : ℝ, s * s = 1 ∧ s * o 2 = |o 2| ∧
      sideNormal (.ofCoords o : Vec3 (Exact z)) = .ofCoords ![0, 0, s] := by
  have hside : 0 < Local.cosTheta (.ofCoords o : Vec3 (Exact z)) ↔ 0 < o 2 := by
    simp [Local.cosTheta, Vec3.ofCoords]
  simp only [sideNormal, hside]
  split_ifs with hup
  · exact ⟨1, one_mul 1, by rw [one_mul, abs_of_pos hup], by simp [Vec3.unitZ, Vec3.ofCoords]⟩
  · exact ⟨-1, by norm_num, by rw [neg_one_mul, abs_of_nonpos (not_lt.1 hup)],
      by simp [Vec3.ofCoords]⟩

theorem isFair_dielectricSample (hior : ior.IsPos) (hr : r.IsNonneg) (ht : t.IsNonneg)
    (ho : o ≠ 0) (u : Exact z) : (dielectricSample ior r t (.ofCoords o) u).IsFair := by
  have heta := isPos_relativeIor hior (.ofCoords o)
  obtain ⟨s, hs, -, hnormal⟩ := exists_coords_sideNormal (z := z) o
  have hn : ![0, 0, s] ⬝ᵥ ![0, 0, s] = 1 := (Coords.pole_dotProduct s _).trans hs
  obtain ⟨v, hrefract⟩ := Vec3.exists_coords_refract o ![0, 0, s] heta
  simp only [dielectricSample, hnormal, Vec3.reflect_ofCoords, hrefract]
  split
  · exact ⟨hr, fun _ => ⟨_, Coords.reflected_ne_zero hn ho, rfl⟩⟩
  · split
    · exact BsdfSample.isFair_invalid
    next hzero =>
      have hv : v ≠ 0 := fun h => hzero (Vec3.isZero_ofCoords.2 h)
      exact ⟨ht.div (heta.mul heta),
        fun _ => ⟨_, Coords.unit_ne_zero hv, Vec3.normalize_ofCoords hv⟩⟩

theorem isFair_roughDielectricSample (hior : ior.IsPos) (halpha : alpha.IsPos) (hr : r.IsNonneg)
    (ht : t.IsNonneg) (o h : Fin 3 → ℝ) (u : Exact z) :
    (roughDielectricSample ior alpha r t (.ofCoords o) u (.ofCoords h)).IsFair := by
  have heta := isPos_relativeIor hior (.ofCoords o)
  obtain ⟨v, hrefract⟩ := Vec3.exists_coords_refract o h heta
  simp only [roughDielectricSample, hrefract]
  split
  · exact Lobe.isFair_glossyAbout hr halpha o h
  · split
    · exact BsdfSample.isFair_invalid
    next hinvalid =>
      have hv : v ≠ 0 := fun h => hinvalid (by rw [Vec3.isZero_ofCoords.2 h, Bool.true_or])
      rw [Vec3.normalize_ofCoords hv]
      exact ⟨.div (.smul (Microfacet.isNonneg_masking halpha.isNonneg.isReal
        (Vec3.isReal_ofCoords _) (Vec3.isReal_ofCoords h)) ht) heta.sqr,
        fun _ => ⟨_, Coords.unit_ne_zero hv, rfl⟩⟩

/-- The weights of a choice between two lobes: a lobe is divided by its probability, which is not
zero if the lobe was chosen. -/
theorem isPos_of_choice {choice p : Exact z} (hchoice : choice.IsDraw) (hp : p.IsFraction) :
    (choice < p → p.IsPos) ∧ (¬choice < p → (1 - p).IsPos) := by
  obtain ⟨x, hx, hx', rfl⟩ := hchoice
  obtain ⟨y, -, -, rfl⟩ := hp
  rw [number_lt, one_eq, number_sub]
  exact ⟨fun h => isPos_number (hx.trans_lt h), fun h => isPos_number (by linarith)⟩

variable {σ : Type} [Sampler σ (Exact z)]

/-- From draws of the unit interval no material samples a negative weight, and what it samples is a
direction. -/
theorem IsPhysical.ensures_sample {bsdf : Bsdf (Texture (Exact z))} (h : bsdf.IsPhysical)
    (huv : uv.IsReal) (ho : o ≠ 0) :
    Ensures Sampler.DrawsUnit BsdfSample.IsFair
      (bsdf.sample uv (.ofCoords o) : StateM σ (BsdfSample (Exact z))) := by
  cases bsdf with
  | diffuse albedo => exact Lobe.ensures_diffuseDirection (Texture.IsNonneg.evaluate h huv) _
  | dielectric ior reflectance transmittance =>
    obtain ⟨hior, hr, ht⟩ := h
    exact Sampler.ensures_next₁.bind fun u _ => .pure
      (isFair_dielectricSample (isPos_ior hior huv) (hr.evaluate huv) (ht.evaluate huv) ho u)
  | roughConductor reflectance roughness =>
    exact Lobe.ensures_sampleGlossy (h.1.evaluate huv) (isPos_alpha h.2 huv) ho
  | roughDielectric ior reflectance transmittance roughness =>
    obtain ⟨hior, hr, ht, hroughness⟩ := h
    have halpha := isPos_alpha hroughness huv
    refine Sampler.ensures_next₁.bind fun choice _ => ?_
    refine Sampler.ensures_next₂.bind fun u hu => .pure ?_
    obtain ⟨n, hvisible⟩ := Microfacet.exists_coords_sampleVisible halpha ho hu.1 hu.2
    rw [hvisible]
    exact isFair_roughDielectricSample (isPos_ior hior huv) halpha (hr.evaluate huv)
      (ht.evaluate huv) o n choice
  | principled baseColor roughness metallic specular =>
    have hlobes := isPhysical_principledLobes h huv o
    refine Sampler.ensures_next₁.bind fun choice hchoice => ?_
    have hpos := isPos_of_choice hchoice hlobes.diffuseProbability
    refine .ite (fun hdiffuse => ?_) fun hglossy => ?_
    · exact Lobe.ensures_diffuseDirection (hlobes.diffuseColor.div (hpos.1 hdiffuse)) _
    · exact (Lobe.ensures_sampleGlossy hlobes.metallicColor hlobes.alpha ho).bind fun s hs =>
        .pure (hs.div (hpos.2 hglossy))

end Bsdf

end Radiance
