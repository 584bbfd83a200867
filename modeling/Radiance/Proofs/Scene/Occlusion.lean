import Radiance.Proofs.Assembly.Sound

/-!
# Shadow rays agree with camera rays

A shadow ray asks for any hit before a distance, a camera ray for the nearest hit of all.  In exact
arithmetic the two agree on every assembled scene: something is in the way exactly if the nearest
hit lies before the distance.

## Main statements

* `Scene.occluded_iff`: occlusion in terms of the nearest hit.
* `limited_query_agrees`: limited and unlimited queries, of shapes and of assembled scenes.
* `Shape.limited_query_shows_other_binding`: the binding may differ where a group mixes shapes alone
  with instances.
-/

namespace Radiance

open Exact

variable {z : ZeroSign}

namespace Scene

variable {scene : Scene (Exact z)} {ray : Ray (Exact z)}

/-- How much of a distance a shadow ray looks at. -/
theorem isNaN_shortened {distance : Exact z} (h : Scalar.isNaN distance = false) :
    Scalar.isNaN (distance * (1 - Scalar.epsilon)) = false := by
  rw [isNaN_eq_false_iff] at h ⊢
  rw [one_eq, epsilon_eq, number_sub]
  exact mul_number_ne_undefined h (by norm_num)

/-- A ray is blocked before a distance exactly if its nearest hit lies before the distance, up to
`Scalar.epsilon`. -/
theorem occluded_iff (hroot : scene.root.IsSound) (hlook : scene.root.HasLook .bound)
    (hray : ray.IsUnit) {distance : Exact z} (hdistance : Scalar.isNaN distance = false) :
    scene.occluded ray distance = true ↔
      (scene.intersect ray).isHit = true ∧
        (scene.intersect ray).t < distance * (1 - Scalar.epsilon) := by
  have hlimit := isNaN_shortened hdistance
  have hagree := (hroot.limited_agrees hray (.within (-ray.direction)
    (distance * (1 - Scalar.epsilon))) hlimit).1
  have hfree : Scalar.isNaN (Hit.unbounded (-ray.direction)).t = false := by
    simp [Hit.unbounded, Hit.within, Scalar.infinity]
  have hhit : (scene.intersect ray).isHit = true ↔
      (scene.root.intersect ray (.unbounded (-ray.direction))).1 = true := by
    constructor
    · intro hsome
      by_contra hmiss
      rw [Bool.not_eq_true] at hmiss
      have hkept := (scene.root.kept_intersect ray _).untouched hmiss
      rw [intersect, Hit.isHit, hkept.binding] at hsome
      cases hsome
    · exact hroot.isSome_binding hlook hray _ hfree
  rw [hhit]
  exact hagree

/-- What is blocked before a distance is blocked before every larger one. -/
theorem occluded_mono (hroot : scene.root.IsSound) (hlook : scene.root.HasLook .bound)
    (hray : ray.IsUnit) {near far : Exact z} (hle : near ≤ far)
    (hnear : scene.occluded ray near = true) : scene.occluded ray far = true := by
  obtain ⟨hneard, hfard, -⟩ := Scalar.IsOrdered.le_iff.1 hle
  rw [occluded_iff hroot hlook hray hneard] at hnear
  rw [occluded_iff hroot hlook hray hfard]
  refine ⟨hnear.1, Scalar.lt_of_lt_of_le hnear.2 ?_⟩
  rw [one_eq, epsilon_eq, number_sub]
  exact mul_number_le_of_pos hle (by norm_num)

end Scene

/-- A limited query of a sound shape finds a hit exactly if the unlimited one finds one before the
limit; then both show the same distance and surface, and the same binding if the shape is uniform.
In every assembled scene, which is uniform, a ray is therefore blocked before a distance exactly if
its nearest hit lies before it, and stays blocked before larger distances. -/
theorem limited_query_agrees :
    (∀ (z : ZeroSign) (s : Shape (Exact z)) (ray : Ray (Exact z)) (hit : Hit (Exact z)),
      s.IsSound → ray.IsUnit → Scalar.isNaN hit.t = false →
      let limited := s.intersect ray hit
      let full := s.intersect ray { hit with t := Scalar.infinity }
      (limited.1 = true ↔ full.1 = true ∧ full.2.t < hit.t) ∧
        (limited.1 = true → limited.2.t = full.2.t ∧ limited.2.surface = full.2.surface ∧
          (s.IsUniform → limited.2.binding = full.2.binding))) ∧
    ∀ (z : ZeroSign) (assets : Assets (Exact z)) (base : String) (d : Description (Exact z))
      (job : Job (Exact z)) (ray : Ray (Exact z)),
      (Job.ofDescription assets base d).1 = .ok job →
      (∀ step ∈ d.steps, step.toMatrix.IsAffine) →
      (∀ name ∈ d.fileNames, ∀ mesh,
        assets.mesh (PathName.join base name) = .ok mesh → mesh.IsReal) → ray.IsUnit →
      job.scene.root.IsSound ∧ job.scene.root.IsUniform ∧
        (∀ distance, Scalar.isNaN distance = false →
          (job.scene.occluded ray distance = true ↔
            (job.scene.intersect ray).isHit = true ∧
              (job.scene.intersect ray).t < distance * (1 - Scalar.epsilon))) ∧
        ∀ near far, near ≤ far → job.scene.occluded ray near = true →
          job.scene.occluded ray far = true := by
  refine ⟨fun z s ray hit hs hray ht => hs.limited_agrees hray hit ht, ?_⟩
  intro z assets base d job ray hjob hsteps hmeshes hray
  obtain ⟨hroot, hlook⟩ := Job.isSound_root hjob hsteps hmeshes
  exact ⟨hroot, ⟨.bound, by decide, hlook⟩,
    fun distance hdistance => Scene.occluded_iff hroot hlook hray hdistance,
    fun near far hle hnear => Scene.occluded_mono hroot hlook hray hle hnear⟩

/-! ### A stretched sphere -/

/-- A sphere that is stretched by a factor, alone in its scene. -/
noncomputable def Description.stretchedSphere (s : ℝ) : Description (Exact z) where
  camera := ⟨1, 1, number 90, .x, [], number 0, number 1⟩
  sampler := .standard
  integrator := .direct
  output := some "image.png"
  shared := []
  instances := [.mk .sphere ⟨none, none, [.scale (.splat (number s))], none⟩]
  lights := []

theorem TransformStep.compose?_scale (s : ℝ) :
    compose? [.scale (.splat (number s : Exact z))] = some (.stretch s) := by
  have hproduct : Matrix4.scaling (.splat (number s : Exact z)) * .identity =
      .scaling (.splat (number s)) := by
    change Matrix4.mk (Matrix4.mulVec _ _) (Matrix4.mulVec _ _) (Matrix4.mulVec _ _)
      (Matrix4.mulVec _ _) = _
    simp [Matrix4.scaling, Matrix4.identity, Matrix4.mulVec, Vec3.splat]
  simp [compose?, toMatrix, Transform.stretch, hproduct]

/-- The scene of the description is made, and its root is the sphere itself. -/
theorem Job.ofDescription_stretchedSphere (assets : Assets (Exact z)) (base : String) {s : ℝ}
    (hs : s ≠ 0) :
    ∃ job, (ofDescription assets base (.stretchedSphere s)).1 = .ok job ∧
      job.scene.root = .placed .sphere { transform := some (.stretch s) } := by
  have hvalid : (Description.stretchedSphere s : Description (Exact z)).validate = .ok () := by
    have hfov : (90 : ℝ) < 180 := by norm_num
    simp [Description.validate, Description.stretchedSphere, Description.checkGroups,
      Description.hasEmptyGroup, Description.backgroundCount, InstanceSpec.shape,
      SamplerSpec.standard, SamplerSpec.defaultCount, hfov]
  have hcamera : TransformStep.compose? ([] : List (TransformStep (Exact z))) = none := rfl
  have hinvertible := (Transform.isAffine_stretch (z := z) hs).isInvertible
  unfold ofDescription assemble
  rw [hvalid]
  simp only [Description.stretchedSphere, Plan.scene, Plan.camera, Plan.transform, Plan.instances,
    Plan.placed, Plan.shape, Plan.binding, Plan.texture?, hcamera, TransformStep.compose?_scale,
    hinvertible]
  exact ⟨_, rfl, rfl⟩

/-- A sphere of radius two, four units in front of the ray, is hit at a distance of two: within a
limit of three as without one, and so the ray is blocked before three but not before two. -/
theorem limited_query_agrees_stretched_sphere :
    let s : Shape (Exact .plus) := .placed .sphere { transform := some (.stretch 2) }
    let ray : Ray (Exact .plus) := .towardsOrigin ⟨0, 0, 1⟩ 4
    (s.intersect ray (.within .zero (number 3))).1 = true ∧
      (s.intersect ray (.within .zero (number 3))).2.t = number 2 ∧
    ∃ job, (Job.ofDescription ⟨fun _ => .error "", fun _ => .error default,
        fun _ => .error default⟩ "." (.stretchedSphere 2)).1 = .ok job ∧
      (job.scene.intersect ray).isHit = true ∧ (job.scene.intersect ray).t = number 2 ∧
      job.scene.occluded ray (number 3) = true ∧ job.scene.occluded ray (number 2) = false := by
  intro s ray
  have hd : (0 : ℝ) * 0 + 0 * 0 + 1 * 1 = 1 := by norm_num
  have hray : ray.IsUnit := Ray.isUnit_towardsOrigin hd 4
  have haffine := Transform.isAffine_stretch (z := .plus) (s := 2) two_ne_zero
  have hs : s.IsSound := .placed (by rintro t ⟨⟩; exact haffine) .sphere
  have hmeets (hit : Hit (Exact .plus)) (ht : number 2 < hit.t) :
      (s.intersect ray hit).1 = true ∧ (s.intersect ray hit).2.t = number 2 := by
    have h := Shape.intersect_stretched_sphere (b := { transform := some (.stretch 2) }) rfl two_pos
      (a := 4) (d := ⟨0, 0, 1⟩) (by norm_num) hd (by norm_num; exact ht)
    norm_num at h
    exact h
  obtain ⟨hiff, hsame⟩ := limited_query_agrees.1 _ s ray (.within .zero (number 3)) hs hray
    (by simp [Hit.within])
  obtain ⟨hfull, hfullt⟩ :=
    hmeets { Hit.within .zero (number 3) with t := Scalar.infinity } (lt_infinity 2)
  have hfound := hiff.2 ⟨hfull, by rw [hfullt]; norm_num [Hit.within]⟩
  refine ⟨hfound, (hsame hfound).1.trans hfullt, ?_⟩
  obtain ⟨job, hjob, hroot⟩ := Job.ofDescription_stretchedSphere (z := .plus)
    ⟨fun _ => .error "", fun _ => .error default, fun _ => .error default⟩ "." (s := 2) two_ne_zero
  have hsteps : ∀ step ∈ (Description.stretchedSphere 2 : Description (Exact .plus)).steps,
      step.toMatrix.IsAffine := by
    intro step hstep
    obtain rfl : step = .scale (.splat (number 2)) := by
      simpa [Description.stretchedSphere, Description.steps, InstanceSpec.allSteps,
        ShapeSpec.steps] using hstep
    exact haffine.matrix
  obtain ⟨-, -, hoccluded, -⟩ := limited_query_agrees.2 _ _ _ _ job ray hjob hsteps (by simp) hray
  have hshort (x : ℝ) :
      number x * (1 - Scalar.epsilon) = (number (x * (1 - 3e-4)) : Exact .plus) := by
    rw [one_eq, epsilon_eq, number_sub, number_mul]
  have hnear : job.scene.occluded ray (number 3) = true := by
    rw [Scene.occluded, hroot]
    exact (hmeets _ (by rw [Hit.within, hshort]; norm_num)).1
  have ht : (job.scene.intersect ray).t = number 2 := by
    rw [Scene.intersect, hroot]
    exact (hmeets _ (lt_infinity 2)).2
  refine ⟨job, hjob, ((hoccluded _ (by simp)).1 hnear).1, ht, hnear, ?_⟩
  rw [← Bool.not_eq_true, hoccluded _ (by simp), ht, hshort]
  norm_num

/-! ### A group that mixes -/

namespace Shape

/-- A group of a rectangle that an instance places and a sphere alone. -/
noncomputable def mixedPair : Shape (Exact z) :=
  .ofChildren .midpoint #[placed .rectangle {}, .sphere]

theorem isSound_mixedPair : (mixedPair : Shape (Exact z)).IsSound := by
  refine .group _ fun c hc => ?_
  obtain rfl | rfl : c = placed .rectangle {} ∨ c = .sphere := by simpa using hc
  · exact .placed (by simp) .rectangle
  · exact .sphere

/-- A ray aimed at the center from a distance of three is asked about the rectangle first. -/
theorem intersect_mixedPair {d : Vec3 ℝ} (hx : d.x ≠ 0) (hy : d.y ≠ 0) (hz : d.z ≠ 0)
    (hd : d.x * d.x + d.y * d.y + d.z * d.z = 1) {hit : Hit (Exact z)} (ht : number 2 < hit.t)
    (hbinding : hit.binding = none) :
    let result := (mixedPair : Shape (Exact z)).intersect (.towardsOrigin d 3) hit
    result.1 = true ∧ result.2.t = number 2 ∧
      result.2.binding = if number 3 < hit.t then some {} else none := by
  intro result
  have hray := Ray.isUnit_towardsOrigin (z := z) hd 3
  have hsphere : Sphere.encounter? (.towardsOrigin d 3 : Ray (Exact z)) =
      some ⟨number 2, Sphere.surfaceAt ((Ray.towardsOrigin d 3).pointAt (number 2))⟩ := by
    have h := Sphere.encounter?_of_center hray rfl (a := 3) (by norm_num)
    rwa [show (3 : ℝ) - 1 = 2 by norm_num] at h
  have hrectangle := Rectangle.encounter?_of_center (z := z) (d := d) (a := 3) hz (by norm_num)
  have hpoint : (mixedPair : Shape (Exact z)).boundingBox.HasPoint
      ((Ray.towardsOrigin d 3).pointAt (number 2)) := by
    obtain ⟨-, hposition, hbox⟩ := Sphere.liesOn hray hsphere
    exact hasPoint_ofChildren (i := 1) (by simp) (hposition ▸ hbox)
  have hentry : ¬hit.t ≤ (mixedPair : Shape (Exact z)).boundingBox.rayEntry (.towardsOrigin d 3)
      (Ray.towardsOrigin d 3 : Ray (Exact z)).direction.recip := by
    intro hle
    refine Scalar.not_lt_of_le (Scalar.le_trans hle ?_) ht
    exact Box.rayEntry_le (Ray.isOblique_towardsOrigin hx hy hz 3) hpoint hpoint (by norm_num)
  have hasked : result = Hierarchy.queryAll _ (List.range 2) hit.countNode :=
    (intersect_ofChildren_of_size_le _ _ (by simp) (by simp [Hierarchy.leafSize]) hit).trans
      (if_neg hentry)
  rw [hasked]
  by_cases hfar : number 3 < hit.t
  · -- The sphere comes after the rectangle and leaves its binding in the record.
    have hreached : ¬hit.t ≤ number 3 := fun hle => Scalar.not_lt_of_le hle hfar
    have hnearer : ¬(3 : ℝ) ≤ 2 := by norm_num
    simp [List.range_succ, Hierarchy.queryAll, Shape.intersect, Binding.intersect_of_none,
      Binding.claim_eq, Rectangle.intersect_eq, Sphere.intersect_eq, Encounter.answer, hrectangle,
      hsphere, hreached, hnearer, hfar, Hit.countNode, Hit.countPrimitive]
  · have hskipped : hit.t ≤ number 3 :=
      Scalar.le_of_not_lt (Scalar.IsOrdered.isNaN_of_lt ht).2 (by simp) hfar
    have hreached : ¬hit.t ≤ number 2 := fun hle => Scalar.not_lt_of_le hle ht
    simp [List.range_succ, Hierarchy.queryAll, Shape.intersect, Binding.intersect_of_none,
      Rectangle.intersect_eq, Sphere.intersect_eq, Encounter.answer, hrectangle, hsphere, hskipped,
      hreached, hfar, hbinding, Hit.countNode, Hit.countPrimitive]

/-- Where a group mixes shapes alone with instances, the limited query may find the same hit as the
unlimited one and yet show another binding. -/
theorem limited_query_shows_other_binding :
    let s : Shape (Exact .plus) := .ofChildren .midpoint #[placed .rectangle {}, .sphere]
    let ray : Ray (Exact .plus) := .towardsOrigin ⟨1 / 3, 2 / 3, 2 / 3⟩ 3
    let limited := s.intersect ray (.within .zero (number (5 / 2)))
    let full := s.intersect ray (.unbounded .zero)
    s.IsSound ∧ ray.IsUnit ∧ limited.1 = true ∧ full.1 = true ∧ full.2.t < number (5 / 2) ∧
      limited.2.t = full.2.t ∧ limited.2.binding = none ∧ full.2.binding = some {} := by
  intro s ray limited full
  have hd : (1 / 3 : ℝ) * (1 / 3) + 2 / 3 * (2 / 3) + 2 / 3 * (2 / 3) = 1 := by norm_num
  have hlimited : limited.1 = true ∧ limited.2.t = number 2 ∧ limited.2.binding = _ :=
    intersect_mixedPair (d := ⟨1 / 3, 2 / 3, 2 / 3⟩) (by norm_num) (by norm_num) (by norm_num) hd
      (by norm_num [Hit.within]) rfl
  have hfull : full.1 = true ∧ full.2.t = number 2 ∧ full.2.binding = _ :=
    intersect_mixedPair (d := ⟨1 / 3, 2 / 3, 2 / 3⟩) (by norm_num) (by norm_num) (by norm_num) hd
      (lt_infinity 2) rfl
  refine ⟨isSound_mixedPair, Ray.isUnit_towardsOrigin hd 3, hlimited.1, hfull.1, ?_,
    hlimited.2.1.trans hfull.2.1.symm, ?_, ?_⟩
  · rw [hfull.2.1]
    norm_num
  · rw [hlimited.2.2, if_neg]
    norm_num [Hit.within]
  · rw [hfull.2.2]
    exact if_pos (lt_infinity 3)

end Shape

end Radiance
