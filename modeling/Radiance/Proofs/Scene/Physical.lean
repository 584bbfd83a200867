import Radiance.Proofs.Shape.Looks

/-!
# Physical scenes

A scene is physical if its shapes and lights are.  What a ray sees in it, at a hit or in the
background, is then not negative, and neither is what a light sends to a point.

## Main definitions

* `EnvironmentMap.IsPhysical`, `Light.IsPhysical`, `Scene.IsPhysical`: nothing sends negative light.

## Main statements

* `Light.isPhysical_ofPower`, `Light.isPhysical_ofDirection`: lights by their power and their
  direction.
* `Light.IsPhysical.ensures_sampleDirect`: what a light sends.
* `Scene.IsPhysical.isPhysical_intersect`, `Scene.IsPhysical.evaluateBackground`: what a ray sees.
-/

namespace Radiance

open Exact

variable {z : ZeroSign}

/-! ## Light from outside -/

/-- A texture without negative colors under an affine transform. -/
structure EnvironmentMap.IsPhysical (e : EnvironmentMap (Exact z)) : Prop where
  texture : e.texture.IsNonneg
  transform : ∀ t ∈ e.transform, t.IsAffine

namespace EnvironmentMap

variable {e : EnvironmentMap (Exact z)}

theorem isReal_coordinates (he : ∀ t ∈ e.transform, t.IsAffine) {d : Fin 3 → ℝ} (hd : d ≠ 0) :
    (e.coordinates (.ofCoords d)).IsReal := by
  cases ht : e.transform with
  | none =>
    simp only [coordinates, ht]
    exact Vec2.isReal_angles _ _ _
  | some t =>
    obtain ⟨M, o, hM, rfl⟩ := (he t ht).exists_ofLinear
    simp only [coordinates, ht, Transform.inverseVector_ofLinear hM,
      Vec3.normalize_ofCoords (Transform.inv_mulVec_ne_zero hM hd)]
    exact Vec2.isReal_angles _ _ _

theorem IsPhysical.evaluate (he : e.IsPhysical) {d : Fin 3 → ℝ} (hd : d ≠ 0) :
    (e.evaluate (.ofCoords d)).IsNonneg :=
  he.texture.evaluate (isReal_coordinates he.transform hd)

end EnvironmentMap

/-! ## Lights -/

/-- A weight that is not negative, and a real direction unless the sample failed. -/
structure LightSample.IsFair (s : LightSample (Exact z)) : Prop where
  weight : s.weight.IsNonneg
  direction : s.isInvalid = false → ∃ w, s.wi = .ofCoords w

theorem LightSample.isFair_invalid : (invalid : LightSample (Exact z)).IsFair :=
  ⟨Vec3.isNonneg_zero, fun h => absurd h (by simp [isInvalid, invalid, Vec3.isZero, Vec3.zero,
    Vec3.splat])⟩

namespace Light

/-- A light at a real place without a negative intensity. -/
def IsPhysical : Light (Exact z) → Prop
  | point position intensity => position.IsReal ∧ intensity.IsNonneg
  | directional direction intensity => direction.IsReal ∧ intensity.IsNonneg
  | environment map => map.IsPhysical

theorem isPos_invFourPi : (Scalar.invFourPi : Exact z).IsPos :=
  IsPos.mul ⟨0.25, by norm_num, ofScientific_eq _ _ _⟩ isPos_invPi

theorem isPhysical_ofPower {position : Vec3 (Exact z)} {power : Color (Exact z)}
    (hposition : position.IsReal) (hpower : power.IsNonneg) : (ofPower position power).IsPhysical :=
  ⟨hposition, .smul isPos_invFourPi.isNonneg hpower⟩

theorem isPhysical_ofDirection (direction : Vec3 (Exact z)) {intensity : Color (Exact z)}
    (hintensity : intensity.IsNonneg) : (ofDirection direction intensity).IsPhysical := by
  refine ⟨?_, hintensity⟩
  cases hunit : direction.normalize? with
  | none => exact ⟨0, 0, 0, by simp [Vec3.zero, Vec3.splat]⟩
  | some w =>
    obtain ⟨u, -, -, rfl⟩ := Vec3.exists_coords_of_normalize? hunit
    exact Vec3.isReal_ofCoords _

variable {σ : Type} [Sampler σ (Exact z)] {light : Light (Exact z)}

/-- The light from a point that is not the origin itself. -/
theorem isFair_point {p o : Fin 3 → ℝ} {intensity : Color (Exact z)} (hne : p - o ≠ 0)
    (hintensity : intensity.IsNonneg) :
    let offset : Vec3 (Exact z) := .ofCoords (p - o)
    (⟨offset / Scalar.sqrt offset.lengthSquared, intensity / offset.lengthSquared,
      Scalar.sqrt offset.lengthSquared⟩ : LightSample (Exact z)).IsFair := by
  intro offset
  have hlength : Scalar.sqrt offset.lengthSquared = number (Coords.length (p - o)) :=
    Vec3.length_ofCoords (p - o)
  refine ⟨hintensity.div ?_, fun _ => ⟨Coords.unit (p - o), ?_⟩⟩
  · exact ⟨_, Real.sqrt_pos.1 (Coords.length_pos hne), Vec3.dot_ofCoords _ _⟩
  · rw [hlength]
    exact Vec3.ofCoords_div_length hne

/-- No light sends negative light to a real point. -/
theorem IsPhysical.ensures_sampleDirect (h : light.IsPhysical) {origin : Vec3 (Exact z)}
    (horigin : origin.IsReal) :
    Ensures Sampler.DrawsUnit LightSample.IsFair
      (light.sampleDirect origin : StateM σ (LightSample (Exact z))) := by
  cases light with
  | point position intensity =>
    obtain ⟨p, rfl⟩ := h.1.exists_coords
    obtain ⟨o, rfl⟩ := horigin.exists_coords
    refine .ite (fun _ => .pure LightSample.isFair_invalid) fun hne => .pure ?_
    rw [Vec3.sub_ofCoords] at hne ⊢
    refine isFair_point (fun hzero => hne ?_) h.2
    rw [hzero, Vec3.lengthSquared, Vec3.dot_ofCoords]
    simp
  | directional direction intensity =>
    obtain ⟨w, hw⟩ := h.1.exists_coords
    exact .ite (fun _ => .pure LightSample.isFair_invalid) fun _ =>
      .pure ⟨h.2, fun _ => ⟨w, hw⟩⟩
  | environment map =>
    refine Sampler.ensures_next₂.bind fun u hu => .pure ?_
    obtain ⟨x, -, -, hx⟩ := hu.1
    obtain ⟨y, -, -, hy⟩ := hu.2
    obtain ⟨w, hw, hwarp⟩ := Shape.exists_coords_warp (z := z) x y
    rw [show u = ⟨number x, number y⟩ from Vec2.ext hx hy, hwarp]
    exact ⟨(EnvironmentMap.IsPhysical.evaluate h hw).div isPos_invFourPi, fun _ => ⟨w, rfl⟩⟩

end Light

/-! ## Scenes -/

/-- Physical shapes, lights and background. -/
structure Scene.IsPhysical (scene : Scene (Exact z)) : Prop where
  root : scene.root.IsPhysical
  lights : ∀ light ∈ scene.lights, light.IsPhysical
  background : ∀ map ∈ scene.background, map.IsPhysical

namespace Scene.IsPhysical

variable {scene : Scene (Exact z)} {ray : Ray (Exact z)}

theorem isPhysical_intersect (h : scene.IsPhysical) (hray : ray.IsUnit)
    (hhit : (scene.intersect ray).isHit = true) : (scene.intersect ray).IsPhysical := by
  refine h.root.isPhysical_hit hray ?_
  cases hfound : (scene.root.intersect ray (.unbounded (-ray.direction))).1 with
  | true => exact hfound
  | false =>
    -- A miss leaves the record without a binding.
    rw [Hit.isHit, intersect, (Shape.kept_intersect _ _ _).miss hfound] at hhit
    exact absurd hhit (by simp [Hit.unbounded, Hit.within])

theorem evaluateBackground (h : scene.IsPhysical) (hray : ray.IsUnit) :
    (scene.evaluateBackground ray.direction).IsNonneg := by
  obtain ⟨_, d, hd, hcoords⟩ := hray.isProper.exists_coords
  unfold Scene.evaluateBackground
  split
  · exact Vec3.isNonneg_zero
  next map hmap =>
    rw [hcoords]
    exact (h.background map hmap).evaluate hd

variable {σ : Type} [Sampler σ (Exact z)]

/-- A light that is picked is one of the scene, with a positive probability. -/
theorem ensures_sampleLight (h : scene.IsPhysical) :
    Ensures Sampler.DrawsUnit
      (fun choice? => ∀ choice ∈ choice?, choice.light.IsPhysical ∧ choice.probability.IsPos)
      (scene.sampleLight : StateM σ (Option (LightChoice (Exact z)))) := by
  refine .ite (fun _ => .pure (by simp)) fun hsize => ?_
  refine Sampler.ensures_next₁.bind fun u _ => .pure fun choice hchoice => ?_
  obtain ⟨light, hlight, rfl⟩ := Option.map_eq_some_iff.1 hchoice
  refine ⟨h.lights light (Array.mem_of_getElem? hlight), isPos_one.div ?_⟩
  exact ⟨scene.lights.size, Nat.cast_pos.2 (Nat.pos_of_ne_zero hsize), rfl⟩

end Scene.IsPhysical

end Radiance
