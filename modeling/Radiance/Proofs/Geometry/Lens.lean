import Radiance.Camera
import Radiance.Proofs.Geometry.Linear
import Radiance.Proofs.Random.Unit
import Radiance.Proofs.Scattering.Textures

/-!
# The plane of focus

A camera with a lens draws a point of the lens and sends a ray from it through the point that the
image position has in the plane of focus.  In exact arithmetic this point lies on the ray of the
pinhole too, under every affine placement of the camera, so what stands in the plane of focus is
sharp.

## Main statements

* `Warp.exists_disk`: the concentric map leads into the unit disk.
* `Transform.IsAffine.exists_pointAt_towards`: a ray towards an image passes the images of the
  points along its direction.
* `Camera.isReal_extent_iff`: the image plane of a pinhole has a real size unless it is measured by
  a width of zero.
* `Camera.thinLens_meets_pinhole`: the rays of a lens and of the pinhole meet in the plane of focus.
-/

namespace Radiance

open Exact Matrix

variable {z : ZeroSign}

/-! ## Points of the lens -/

namespace Warp

/-- Polar coordinates with a radius of at most one. -/
theorem exists_polar {r : ℝ} (hr : |r| ≤ 1) (φ : ℝ) : ∃ x y : ℝ,
    ((number r : Exact z) • (⟨Scalar.cos (number φ), Scalar.sin (number φ)⟩ : Vec2 (Exact z))) =
      ⟨number x, number y⟩ ∧ x * x + y * y ≤ 1 := by
  refine ⟨r * Real.cos φ, r * Real.sin φ, rfl, ?_⟩
  calc r * Real.cos φ * (r * Real.cos φ) + r * Real.sin φ * (r * Real.sin φ)
      = r ^ 2 * (Real.sin φ ^ 2 + Real.cos φ ^ 2) := by ring
    _ = |r| ^ 2 := by rw [Real.sin_sq_add_cos_sq, mul_one, sq_abs]
    _ ≤ 1 := pow_le_one₀ (abs_nonneg r) hr

/-- The concentric map leads from the unit square into the unit disk. -/
theorem exists_disk {u : Vec2 (Exact z)} (hx : u.x.IsDraw) (hy : u.y.IsDraw) :
    ∃ x y : ℝ, disk u = ⟨number x, number y⟩ ∧ x * x + y * y ≤ 1 := by
  obtain ⟨a, ha, ha', hua⟩ := hx
  obtain ⟨b, hb, hb', hub⟩ := hy
  obtain ⟨x, y⟩ := u
  obtain rfl : x = number a := hua
  obtain rfl : y = number b := hub
  have hoffset : ((2 : Exact z) • (⟨number a, number b⟩ : Vec2 (Exact z)) - Vec2.splat 1 :
      Vec2 (Exact z)) = ⟨number (2 * a - 1), number (2 * b - 1)⟩ := by
    refine Vec2.ext ?_ ?_
    · exact (congrArg _ one_eq).trans (number_sub _ _)
    · exact (congrArg _ one_eq).trans (number_sub _ _)
  have habs (c : ℝ) (hc : 0 ≤ c) (hc' : c < 1) : |2 * c - 1| ≤ 1 := by
    rw [abs_le]
    constructor <;> linarith
  have hpi : (Scalar.pi : Exact z) = number Real.pi := rfl
  have hquarter : (number Real.pi / 4 : Exact z) = number (Real.pi / 4) :=
    number_div _ _ four_ne_zero
  have hhalf : (number Real.pi / 2 : Exact z) = number (Real.pi / 2) :=
    number_div _ _ two_ne_zero
  simp only [disk, hoffset, zero_eq, number_beq, abs_number, number_lt, Scalar.quarterPi,
    Scalar.halfPi, Bool.and_eq_true, decide_eq_true_eq]
  split
  · refine ⟨0, 0, ?_, by norm_num⟩
    simp [Vec2.zero, Vec2.splat]
  next hzero =>
    -- The larger coordinate is the radius, so it is not zero and divides the smaller one.
    split
    next hlt =>
      have hne : 2 * a - 1 ≠ 0 := by
        intro hx
        rw [hx, abs_zero] at hlt
        exact absurd hlt (abs_nonneg _).not_gt
      rw [hpi, number_div _ _ hne, hquarter, number_mul]
      exact exists_polar (habs a ha ha') _
    next hge =>
      have hne : 2 * b - 1 ≠ 0 := by
        intro hy
        rw [hy, abs_zero] at hge
        exact hzero ⟨abs_eq_zero.1 (le_antisymm (not_lt.1 hge) (abs_nonneg _)), hy⟩
      rw [hpi, number_div _ _ hne, hquarter, hhalf, number_mul, number_sub]
      exact exists_polar (habs b hb hb') _

end Warp

/-! ## Rays towards images -/

/-- A ray that starts at the image of a point in the image of a direction has a unit direction, and
passes the images of all points along the direction, as far ahead as they are. -/
theorem Transform.IsAffine.exists_pointAt_towards {t : Transform (Exact z)} (ht : t.IsAffine)
    (p : Fin 3 → ℝ) {d : Fin 3 → ℝ} (hd : d ≠ 0) :
    let ray := Ray.towards (t.applyPoint (.ofCoords p)) (t.applyVector (.ofCoords d))
    ray.IsUnit ∧ ∃ τ : ℝ, 0 < τ ∧
      ∀ s : ℝ, ray.pointAt (number (s * τ)) = t.applyPoint (.ofCoords (p + s • d)) := by
  intro ray
  obtain ⟨M, o, hM, rfl⟩ := ht.exists_ofLinear
  have hne : M *ᵥ d ≠ 0 := Coords.mulVec_ne_zero hM hd
  have hpos := Coords.length_pos hne
  have hray : ray = ⟨.ofCoords (M *ᵥ p + o), .ofCoords (Coords.unit (M *ᵥ d)), 0⟩ := by
    rw [← Vec3.normalize_ofCoords hne, ← applyVector_ofLinear, ← applyPoint_ofLinear]
    rfl
  refine ⟨?_, Coords.length (M *ᵥ d), hpos, fun s => ?_⟩
  · rw [hray]
    refine ⟨⟨Vec3.isReal_ofCoords _, Vec3.isReal_ofCoords _⟩, ?_⟩
    rw [Vec3.length_ofCoords, Coords.length, Coords.unit_dotProduct_unit hne, Real.sqrt_one, one_eq]
  · rw [hray, Ray.pointAt, Vec3.smul_ofCoords, Vec3.add_ofCoords, applyPoint_ofLinear,
      Vec3.ofCoords_inj]
    calc M *ᵥ p + o + (s * Coords.length (M *ᵥ d)) • Coords.unit (M *ᵥ d)
        = M *ᵥ p + o + s • (M *ᵥ d) := by
          rw [Coords.unit, smul_smul, mul_assoc, mul_inv_cancel₀ hpos.ne', mul_one]
      _ = M *ᵥ (p + s • d) + o := by
          rw [mulVec_add, mulVec_smul, add_right_comm]

/-! ## Cameras -/

namespace Camera

variable {width height : UInt32} {axis : FovAxis} {t : Transform (Exact z)} {φ : ℝ}

/-- A number divided by zero is no number. -/
theorem div_zero_ne_number (x y : ℝ) : (number x / number 0 : Exact z) ≠ number y := by
  have hcases : (Exact.inv (number 0) : Exact z) = infinity ∨
      (Exact.inv (number 0) : Exact z) = negInfinity := by
    cases z <;> simp [Exact.inv]
  rw [div_def, mul_def]
  rcases hcases with hinv | hinv
  all_goals
    rw [hinv]
    simp only [Exact.mul, infinityTimes]
    split_ifs <;> simp

/-- The image plane has a real size unless it is measured by a width of zero: then a division by
zero gives the other side. -/
theorem isReal_extent_iff :
    (pinhole width height (number φ) axis t).extent.IsReal ↔ (axis = .x → width ≠ 0) := by
  have htan : (Scalar.tan (0.5 * Scalar.radians (number φ)) : Exact z) =
      number (Real.tan (0.5 * (φ * (Real.pi / 180)))) := by
    have hpi : (Scalar.pi / 180 : Exact z) = number (Real.pi / 180) :=
      number_div _ _ (by norm_num)
    rw [Scalar.radians, hpi]
    rfl
  have hheight : ((Nat.max height.toNat 1 : ℕ) : ℝ) ≠ 0 := by
    have hle : 1 ≤ Nat.max height.toNat 1 := Nat.le_max_right height.toNat 1
    exact Nat.cast_ne_zero.2 (by omega)
  have haspect : (Scalar.ofNat width.toNat / Scalar.ofNat (Nat.max height.toNat 1) : Exact z) =
      number (width.toNat / (Nat.max height.toNat 1 : ℕ)) := number_div _ _ hheight
  cases axis with
  | y =>
    refine ⟨fun _ => nofun, fun _ => ?_⟩
    simp only [pinhole, htan, haspect]
    exact ⟨_, _, rfl⟩
  | x =>
    simp only [pinhole, htan, haspect, true_implies]
    constructor
    · rintro ⟨_, b, hreal⟩ rfl
      have hdiv := congrArg Vec2.y hreal
      simp only [UInt32.toNat_zero, Nat.cast_zero, zero_div] at hdiv
      exact div_zero_ne_number _ b hdiv
    · intro hwidth
      have hne : (width.toNat / (Nat.max height.toNat 1 : ℕ) : ℝ) ≠ 0 := by
        refine div_ne_zero (Nat.cast_ne_zero.2 fun hzero => hwidth ?_) hheight
        exact UInt32.toNat_inj.1 hzero
      rw [number_div _ _ hne]
      exact ⟨_, _, rfl⟩

variable {σ : Type} [Sampler σ (Exact z)]

/-- A camera with a lens draws the point that its ray starts at. -/
theorem sampleNormalized_withThinLens (c : Camera (Exact z)) {ρ : ℝ} (hρ : 0 < ρ) (δ : ℝ)
    (p : Vec2 (Exact z)) {s : σ} (hs : Sampler.DrawsUnit s) : ∃ a b : ℝ, a * a + b * b ≤ ρ * ρ ∧
      ((c.withThinLens (number ρ) (number δ)).sampleNormalized p s).1.ray =
        .towards (c.toWorld.applyPoint ⟨number a, number b, 0⟩)
          (c.toWorld.applyVector
            ((number δ : Exact z) • c.imagePoint p - ⟨number a, number b, 0⟩)) := by
  obtain ⟨⟨hx, hy⟩, -⟩ := Sampler.ensures_next₂ s hs
  obtain ⟨x, y, hdisk, hle⟩ := Warp.exists_disk hx hy
  refine ⟨ρ * x, ρ * y, ?_, ?_⟩
  · calc ρ * x * (ρ * x) + ρ * y * (ρ * y) = ρ * ρ * (x * x + y * y) := by ring
      _ ≤ ρ * ρ := mul_le_of_le_one_right (mul_self_nonneg ρ) hle
  · have hradius : (c.withThinLens (number ρ) (number δ)).apertureRadius = number ρ := by
      rw [withThinLens, zero_eq, max_number, max_eq_left hρ.le]
    have hopen : 0 < (c.withThinLens (number ρ) (number δ)).apertureRadius := by
      rw [hradius, zero_eq, number_lt]
      exact hρ
    have hlens : (number ρ : Exact z) • Warp.disk ((Sampler.next₂ : StateM σ _) s).1 =
        (⟨number (ρ * x), number (ρ * y)⟩ : Vec2 (Exact z)) := by
      rw [hdisk]
      rfl
    rw [sampleNormalized, if_pos hopen, hradius]
    change (let lens := (number ρ : Exact z) • Warp.disk ((Sampler.next₂ : StateM σ _) s).1
      Ray.towards (c.toWorld.applyPoint ⟨lens.x, lens.y, 0⟩)
        (c.toWorld.applyVector
          ((number δ : Exact z) • c.imagePoint p - ⟨lens.x, lens.y, 0⟩))) = _
    rw [hlens]

/-- A pinhole sends its ray from the image of the origin. -/
theorem sampleNormalized_of_aperture_zero (c : Camera (Exact z)) (hzero : c.apertureRadius = 0)
    (p : Vec2 (Exact z)) (s : σ) : (c.sampleNormalized p s).1.ray =
      .towards (c.toWorld.applyPoint .zero) (c.toWorld.applyVector (c.imagePoint p)) := by
  have hclosed : ¬0 < c.apertureRadius := by
    rw [hzero, zero_eq, number_lt]
    exact lt_irrefl 0
  rw [sampleNormalized, if_neg hclosed]
  rfl

/-- Where the image position of a camera is a point at depth one, the ray of a lens starts at the
image of a point of the lens and passes the image of the position at the depth of focus. -/
theorem exists_lensRay {c : Camera (Exact z)} (ht : c.toWorld.IsAffine) {p : Vec2 (Exact z)}
    {w : Fin 3 → ℝ} (himage : c.imagePoint p = .ofCoords w) (hw : w 2 = 1) {ρ δ : ℝ} (hρ : 0 < ρ)
    (hδ : 0 < δ) {s : σ} (hs : Sampler.DrawsUnit s) :
    let ray := ((c.withThinLens (number ρ) (number δ)).sampleNormalized p s).1.ray
    ray.IsUnit ∧
      (∃ a b : ℝ, a * a + b * b ≤ ρ * ρ ∧
        ray.origin = c.toWorld.applyPoint ⟨number a, number b, 0⟩) ∧
      ∃ τ : ℝ, 0 < τ ∧ ray.pointAt (number τ) = c.toWorld.applyPoint (.ofCoords (δ • w)) := by
  obtain ⟨a, b, hab, hray⟩ := sampleNormalized_withThinLens c hρ δ p hs
  have horigin : (⟨number a, number b, 0⟩ : Vec3 (Exact z)) = .ofCoords ![a, b, 0] :=
    congrArg _ zero_eq
  have hdirection : δ • w - ![a, b, 0] ≠ 0 := by
    intro h
    have hlast := congrFun h 2
    simp [hw, hδ.ne'] at hlast
  rw [himage, horigin, Vec3.smul_ofCoords, Vec3.sub_ofCoords] at hray
  obtain ⟨hunit, τ, hτ, hpoint⟩ := ht.exists_pointAt_towards ![a, b, 0] hdirection
  rw [hray]
  refine ⟨hunit, ⟨a, b, hab, by rw [horigin]; rfl⟩, τ, hτ, ?_⟩
  have hone := hpoint 1
  rwa [one_mul, one_smul, add_sub_cancel] at hone

/-- The ray of a pinhole passes the image of the position at every depth. -/
theorem exists_pinholeRay {c : Camera (Exact z)} (hzero : c.apertureRadius = 0)
    (ht : c.toWorld.IsAffine) {p : Vec2 (Exact z)} {w : Fin 3 → ℝ}
    (himage : c.imagePoint p = .ofCoords w) (hw : w 2 = 1) {δ : ℝ} (hδ : 0 < δ) (s : σ) :
    let ray := (c.sampleNormalized p s).1.ray
    ray.IsUnit ∧
      ∃ τ : ℝ, 0 < τ ∧ ray.pointAt (number τ) = c.toWorld.applyPoint (.ofCoords (δ • w)) := by
  have hdirection : w ≠ 0 := fun h => by simp [h] at hw
  have hray := sampleNormalized_of_aperture_zero c hzero p s
  rw [himage, ← Vec3.ofCoords_zero] at hray
  obtain ⟨hunit, τ, hτ, hpoint⟩ := ht.exists_pointAt_towards 0 hdirection
  rw [hray]
  refine ⟨hunit, δ * τ, mul_pos hδ hτ, ?_⟩
  rw [hpoint, zero_add]

/-- The rays of a camera with a lens have unit directions and start at images of points of the lens,
and all rays of an image position pass, in front of the camera, one point of the plane of focus: the
image of the point where the pinhole has the position at this depth, which the ray of the pinhole
passes too.  This holds of every image plane with a real size. -/
theorem thinLens_meets_pinhole (width height : UInt32) (φ : ℝ) (axis : FovAxis)
    {t : Transform (Exact z)} (ht : t.IsAffine) {ρ δ : ℝ} (hρ : 0 < ρ) (hδ : 0 < δ) (x y : ℝ)
    {s : σ} (hs : Sampler.DrawsUnit s) :
    let c := pinhole width height (number φ) axis t
    let p : Vec2 (Exact z) := ⟨number x, number y⟩
    let focus := t.applyPoint ((number δ : Exact z) • c.imagePoint p)
    let lensRay := ((c.withThinLens (number ρ) (number δ)).sampleNormalized p s).1.ray
    let pinholeRay := (c.sampleNormalized p s).1.ray
    (c.extent.IsReal ↔ (axis = .x → width ≠ 0)) ∧
      (c.extent.IsReal →
        lensRay.IsUnit ∧
        (∃ a b : ℝ, a * a + b * b ≤ ρ * ρ ∧
          lensRay.origin = t.applyPoint ⟨number a, number b, 0⟩) ∧
        (∃ τ : ℝ, 0 < τ ∧ lensRay.pointAt (number τ) = focus) ∧
        pinholeRay.IsUnit ∧ ∃ τ : ℝ, 0 < τ ∧ pinholeRay.pointAt (number τ) = focus) := by
  intro c p focus lensRay pinholeRay
  refine ⟨isReal_extent_iff, ?_⟩
  rintro ⟨e, f, hextent⟩
  have himage : c.imagePoint p = .ofCoords ![x * e, y * f, 1] := by
    rw [imagePoint, hextent]
    exact congrArg _ one_eq
  have hfocus : focus = t.applyPoint (.ofCoords (δ • ![x * e, y * f, 1])) := by
    simp only [focus, himage, Vec3.smul_ofCoords]
  obtain ⟨hunit, horigin, hlens⟩ := exists_lensRay (c := c) ht himage rfl hρ hδ hs
  obtain ⟨hunit', hpinhole⟩ := exists_pinholeRay (c := c) rfl ht himage rfl hδ s
  exact ⟨hunit, horigin, hfocus ▸ hlens, hunit', hfocus ▸ hpinhole⟩

/-- A camera at a point away from the origin, with a lens that is sharp at a depth of four: a ray of
the centre of the image passes the point that far in front of it. -/
theorem thinLens_meets_pinhole_center :
    let c : Camera (Exact .plus) := pinhole 16 16 (number 40) .x (.ofLinear 1 ![1, 2, 3])
    let s : Replay (Exact .plus) := ⟨#[number (1 / 4), number (1 / 2)], 1, 0⟩
    let ray := ((c.withThinLens (number 0.5) (number 4)).sampleNormalized
      ⟨number 0, number 0⟩ s).1.ray
    ray.IsUnit ∧ ∃ τ : ℝ, 0 < τ ∧ ray.pointAt (number τ) = .ofCoords ![1, 2, 7] := by
  intro c s ray
  have ht : (Transform.ofLinear 1 ![1, 2, 3] : Transform (Exact .plus)).IsAffine :=
    Transform.isAffine_ofLinear (by simp) _
  obtain ⟨hiff, hmeets⟩ := thinLens_meets_pinhole 16 16 40 .x ht (ρ := 0.5) (δ := 4) (by norm_num)
    (by norm_num) 0 0 (s := s)
    (Sampler.drawsUnit_pair (by norm_num [Set.mem_Ico]) (by norm_num [Set.mem_Ico]) 1 0)
  have hreal := hiff.2 fun _ => by decide
  obtain ⟨hunit, -, ⟨τ, hτ, hfocus⟩, -⟩ := hmeets hreal
  refine ⟨hunit, τ, hτ, hfocus.trans ?_⟩
  obtain ⟨e, f, hextent⟩ := hreal
  have hdepth : (number 4 : Exact .plus) • c.imagePoint ⟨number 0, number 0⟩ =
      (.ofCoords ![0, 0, 4] : Vec3 (Exact .plus)) := by
    rw [imagePoint, hextent]
    simp [Vec3.ofCoords]
  rw [hdepth, Transform.applyPoint_ofLinear, one_mulVec, Vec3.ofCoords_inj]
  norm_num

end Camera

end Radiance
