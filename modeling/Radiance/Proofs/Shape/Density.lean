import Radiance.Proofs.Shape.Orientation

/-!
# Densities of random points

A random point of a tree is one of a leaf, picked at every group and carried by every instance.  Its
density per area is that of the leaf, divided by the number of children of each group and by the
factor by which each transform stretches a plane at the point.  By the geometry this is the tangent
plane, whatever normal maps there are.  But an instance looks up its normal map first, and stretches
the plane of the shading frame that this gives.

## Main definitions

* `Shape.TangentPlane`: the directions along the surface at a random point.
* `Shape.Density`: the density of a random point, by a rule for the plane that each instance
  stretches.
* `Shape.ShadingPlane`: the rule that the instances follow.
* `Shape.SameGeometry`: two trees differ in nothing that moves points, such as normal maps.

## Main statements

* `Transform.IsAffine.exists_area`: how a plane is stretched.
* `Shape.IsDrawable.exists_density`: whatever the rule is, there is one density.
* `Shape.IsDrawable.density_sampleArea`: the density follows the shading.
* `Shape.sampleArea_density`: the density that random points have.
-/

namespace Radiance

open Exact Matrix

variable {z : ZeroSign}

/-! ## Planes -/

/-- The real directions perpendicular to one. -/
def Vec3.plane (n : Vec3 (Exact z)) : Set (Vec3 (Exact z)) := {v | v.IsReal ∧ v.dot n = 0}

theorem Vec3.unitZ_eq_ofCoords : (Vec3.unitZ : Vec3 (Exact z)) = .ofCoords ![0, 0, 1] := by
  simp [Vec3.unitZ, Vec3.ofCoords]

/-- Two perpendicular directions of unit length in a plane. -/
structure Vec3.Spans (P : Set (Vec3 (Exact z))) (t u : Vec3 (Exact z)) : Prop where
  left_mem : t ∈ P
  right_mem : u ∈ P
  left_unit : t.dot t = 1
  right_unit : u.dot u = 1
  perpendicular : t.dot u = 0

/-- Tangent and bitangent of a frame span the plane of its normal. -/
theorem Frame.IsRightHanded.spans {f : Frame (Exact z)} (hf : f.IsRightHanded) :
    Vec3.Spans f.normal.plane f.tangent f.bitangent := by
  have h := hf.isOrthonormal
  exact ⟨⟨hf.tangent_real, h.tangent_normal⟩, ⟨hf.bitangent_real, h.bitangent_normal⟩,
    hf.tangent_unit, hf.bitangent_unit, hf.perpendicular⟩

theorem Vec3.exists_spans {n : Fin 3 → ℝ} (hn : n ⬝ᵥ n = 1) :
    ∃ t u, Spans (plane (.ofCoords n : Vec3 (Exact z))) t u :=
  ⟨_, _, (Frame.isRightHanded_ofNormal hn).spans⟩

namespace Coords

variable {n a b : Fin 3 → ℝ} {M : Matrix (Fin 3) (Fin 3) ℝ}

/-- Perpendicular unit directions in a plane have a unit normal of the plane as their product. -/
theorem exists_cross_eq_smul (hn : n ⬝ᵥ n = 1) (h : Frame.Perpendicular a b) (ha : a ⬝ᵥ n = 0)
    (hb : b ⬝ᵥ n = 0) : ∃ c : ℝ, |c| = 1 ∧ a ⨯₃ b = c • n := by
  have hunit : a ⨯₃ b ⬝ᵥ a ⨯₃ b = 1 := by
    rw [cross_dot_cross, h.left, h.right, h.dot, zero_mul, sub_zero, one_mul]
  have hparallel : n ⨯₃ (a ⨯₃ b) = 0 := by
    rw [cross_cross_eq_smul_sub_smul', dotProduct_comm n b, hb, ha, zero_smul, zero_smul, sub_zero]
  let c := n ⬝ᵥ a ⨯₃ b
  -- By the identity of Lagrange, the two unit normals are parallel.
  have hc : c * c = 1 := by
    have h := cross_dot_cross n (a ⨯₃ b) n (a ⨯₃ b)
    rw [hparallel, dotProduct_zero, hn, hunit, dotProduct_comm (a ⨯₃ b) n] at h
    linarith
  refine ⟨c, ?_, ?_⟩
  · exact abs_eq_abs.2 (mul_self_eq_one_iff.1 hc) |>.trans abs_one
  · refine sub_eq_zero.1 (dotProduct_self_eq_zero.1 ?_)
    rw [sub_dotProduct, dotProduct_sub, dotProduct_sub, hunit, smul_dotProduct, smul_dotProduct,
      dotProduct_smul, dotProduct_smul, hn, dotProduct_comm (a ⨯₃ b) n]
    simp only [smul_eq_mul]
    change 1 - c * c - (c * c - c * (c * 1)) = 0
    rw [mul_one, hc]
    ring

theorem length_cross_mulVec (hM : M.det ≠ 0) (hn : n ⬝ᵥ n = 1) (h : Frame.Perpendicular a b)
    (ha : a ⬝ᵥ n = 0) (hb : b ⬝ᵥ n = 0) :
    length ((M *ᵥ a) ⨯₃ (M *ᵥ b)) = |M.det| * length (M⁻¹ᵀ *ᵥ n) := by
  obtain ⟨c, hc, hcross⟩ := exists_cross_eq_smul hn h ha hb
  rw [cross_mulVec hM, hcross, mulVec_smul, length_smul, length_smul, hc, one_mul]

end Coords

namespace Transform

variable {t : Transform (Exact z)}

/-- The area of the image of the square over two directions. -/
noncomputable def area (t : Transform (Exact z)) (u v : Vec3 (Exact z)) : Exact z :=
  ((t.applyVector u).cross (t.applyVector v)).length

theorem area_ofLinear (M : Matrix (Fin 3) (Fin 3) ℝ) (o a b : Fin 3 → ℝ) :
    (ofLinear M o : Transform (Exact z)).area (.ofCoords a) (.ofCoords b) =
      number (Coords.length ((M *ᵥ a) ⨯₃ (M *ᵥ b))) := by
  rw [area, applyVector_ofLinear, applyVector_ofLinear, Vec3.cross_ofCoords, Vec3.length_ofCoords]

/-- A plane is stretched by a positive factor, whatever directions span it. -/
theorem IsAffine.exists_area (ht : t.IsAffine) {n : Fin 3 → ℝ} (hn : n ⬝ᵥ n = 1) :
    ∃ w : ℝ, 0 < w ∧ ∀ u v, Vec3.Spans (Vec3.plane (.ofCoords n)) u v → t.area u v = number w := by
  obtain ⟨M, o, hM, rfl⟩ := ht.exists_ofLinear
  have hnormal := Coords.mulVec_ne_zero (Frame.Perpendicular.det_normal_ne_zero hM)
    (Coords.ne_zero_of_dotProduct_self hn)
  refine ⟨|M.det| * Coords.length (M⁻¹ᵀ *ᵥ n), mul_pos (abs_pos.2 hM) (Coords.length_pos hnormal),
    ?_⟩
  rintro u v ⟨⟨hu, hun⟩, ⟨hv, hvn⟩, huu, hvv, huv⟩
  obtain ⟨a, rfl⟩ := hu.exists_coords
  obtain ⟨b, rfl⟩ := hv.exists_coords
  simp only [Vec3.dot_ofCoords, one_eq, zero_eq, number_inj] at hun hvn huu hvv huv
  rw [area_ofLinear, Coords.length_cross_mulVec hM hn ⟨huu, hvv, huv⟩ hun hvn]

/-- The image of the tangent plane is perpendicular to the carried normal. -/
theorem CarriesNormal.image_plane {before after : Vec3 (Exact z)}
    (h : t.CarriesNormal before after) (hunit : before.length = 1) :
    t.applyVector '' before.plane = after.plane := by
  obtain ⟨M, o, n, hM, rfl, rfl, rfl⟩ := h
  have hn : n ≠ 0 := by
    rintro rfl
    simp [Vec3.length_ofCoords, Coords.length] at hunit
  have hlength := (inv_pos.2 (Coords.length_pos
    (Coords.mulVec_ne_zero (Frame.Perpendicular.det_normal_ne_zero hM) hn))).ne'
  have hzero (a : Fin 3 → ℝ) : (.ofCoords (M *ᵥ a) : Vec3 (Exact z)).dot
      (.ofCoords (Coords.unit (M⁻¹ᵀ *ᵥ n))) = 0 ↔ a ⬝ᵥ n = 0 := by
    rw [Vec3.dot_ofCoords, zero_eq, number_inj, Coords.unit, dotProduct_smul, dotProduct_comm,
      Coords.normal_dotProduct_mulVec hM, dotProduct_comm, smul_eq_zero_iff_right hlength]
  ext v
  constructor
  · rintro ⟨w, ⟨hw, hdot⟩, rfl⟩
    obtain ⟨a, rfl⟩ := hw.exists_coords
    rw [Vec3.dot_ofCoords, zero_eq, number_inj] at hdot
    rw [applyVector_ofLinear]
    exact ⟨Vec3.isReal_ofCoords _, (hzero a).2 hdot⟩
  · rintro ⟨hv, hdot⟩
    obtain ⟨a, rfl⟩ := hv.exists_coords
    have ha : M *ᵥ (M⁻¹ *ᵥ a) = a := by
      rw [mulVec_mulVec, mul_nonsing_inv _ hM.isUnit, one_mulVec]
    refine ⟨.ofCoords (M⁻¹ *ᵥ a), ⟨Vec3.isReal_ofCoords _, ?_⟩, ?_⟩
    · rw [Vec3.dot_ofCoords, zero_eq, number_inj]
      exact (hzero _).1 (by rwa [ha])
    · rw [applyVector_ofLinear, ha]

end Transform

/-! ## Trees with random points -/

namespace Shape

/-- Spheres and rectangles under groups that are not empty and instances with affine transforms,
whose normal maps, if any, have a color everywhere. -/
inductive IsDrawable : Shape (Exact z) → Prop
  | sphere : IsDrawable sphere
  | rectangle : IsDrawable rectangle
  | group {children : Array (Shape (Exact z))} {hierarchy : Hierarchy (Exact z)}
      (hsize : 0 < children.size)
      (h : ∀ (i : Nat) (hi : i < children.size), IsDrawable children[i]) :
      IsDrawable (group children hierarchy)
  | placed {inner : Shape (Exact z)} {b : Binding (Exact z)} (hb : ∀ t ∈ b.transform, t.IsAffine)
      (hmap : ∀ uv, b.mapsAt uv = true) (h : IsDrawable inner) : IsDrawable (placed inner b)

section

variable {σ : Type} [Sampler σ (Exact z)] {st : σ}

/-! ### Rules for densities -/

/-- The directions along the surface at a random point.  Normal maps do not matter. -/
inductive TangentPlane : Shape (Exact z) → σ → Set (Vec3 (Exact z)) → Prop
  | sphere {st : σ} {p : Surface (Exact z)} (hp : (sphere.sampleArea st).1 = .ok p) :
      TangentPlane sphere st p.position.plane
  | rectangle {st : σ} : TangentPlane rectangle st Vec3.unitZ.plane
  | group {children : Array (Shape (Exact z))} {hierarchy : Hierarchy (Exact z)} {st : σ}
      {P : Set (Vec3 (Exact z))} {i : Nat} (hi : i < children.size)
      (hpick : pick (Sampler.draw st).1 children.size = i)
      (h : TangentPlane children[i] (Sampler.draw st).2 P) :
      TangentPlane (group children hierarchy) st P
  | still {inner : Shape (Exact z)} {b : Binding (Exact z)} {st : σ} {P : Set (Vec3 (Exact z))}
      (hb : b.transform = none) (h : TangentPlane inner st P) : TangentPlane (placed inner b) st P
  | moved {inner : Shape (Exact z)} {b : Binding (Exact z)} {t : Transform (Exact z)} {st : σ}
      {P : Set (Vec3 (Exact z))} (hb : b.transform = some t) (h : TangentPlane inner st P) :
      TangentPlane (placed inner b) st (t.applyVector '' P)

/-- The plane that an instance stretches at a random point of the shape inside. -/
abbrev PlaneRule (z : ZeroSign) (σ : Type) :=
  Shape (Exact z) → Binding (Exact z) → σ → Set (Vec3 (Exact z)) → Prop

/-- By the geometry it is the tangent plane. -/
def GeometricPlane : PlaneRule z σ := fun inner _ st P => inner.TangentPlane st P

/-- Instances take the plane of the shading frame that their normal map gives. -/
def ShadingPlane : PlaneRule z σ := fun inner b st P =>
  ∃ p, (inner.sampleArea st).1 = .ok p ∧ P = (b.applyNormalMap p).frame.normal.plane

/-- The density of a random point: that of the leaf, divided by the number of children at each group
and by the factor by which each transform stretches the plane of the rule. -/
inductive Density (rule : PlaneRule z σ) : Shape (Exact z) → σ → Exact z → Prop
  | sphere {st : σ} : Density rule sphere st (number (1 / (4 * Real.pi)))
  | rectangle {st : σ} : Density rule rectangle st (number (1 / 4))
  | group {children : Array (Shape (Exact z))} {hierarchy : Hierarchy (Exact z)} {st : σ}
      {d : Exact z} {i : Nat} (hi : i < children.size)
      (hpick : pick (Sampler.draw st).1 children.size = i)
      (h : Density rule children[i] (Sampler.draw st).2 d) :
      Density rule (group children hierarchy) st (d / Scalar.ofNat children.size)
  | still {inner : Shape (Exact z)} {b : Binding (Exact z)} {st : σ} {d : Exact z}
      (hb : b.transform = none) (h : Density rule inner st d) : Density rule (placed inner b) st d
  | moved {inner : Shape (Exact z)} {b : Binding (Exact z)} {t : Transform (Exact z)} {st : σ}
      {P : Set (Vec3 (Exact z))} {u v : Vec3 (Exact z)} {d : Exact z} (hb : b.transform = some t)
      (hP : rule inner b st P) (huv : Vec3.Spans P u v) (h : Density rule inner st d) :
      Density rule (placed inner b) st (d / t.area u v)

section

variable {children : Array (Shape (Exact z))} {hierarchy : Hierarchy (Exact z)}
  {inner : Shape (Exact z)} {b : Binding (Exact z)} {t : Transform (Exact z)}
  {rule : PlaneRule z σ} {P : Set (Vec3 (Exact z))} {d : Exact z} {i : Nat}

theorem tangentPlane_group (hi : i < children.size)
    (hpick : pick (Sampler.draw st).1 children.size = i) :
    (group children hierarchy).TangentPlane st P ↔
      children[i].TangentPlane (Sampler.draw st).2 P := by
  refine ⟨fun h => ?_, .group hi hpick⟩
  cases h with
  | group _ hpick' h =>
    cases hpick.symm.trans hpick'
    exact h

theorem tangentPlane_still (hb : b.transform = none) :
    (placed inner b).TangentPlane st P ↔ inner.TangentPlane st P := by
  refine ⟨fun h => ?_, .still hb⟩
  cases h with
  | still _ h => exact h
  | moved hb' _ => cases hb.symm.trans hb'

theorem tangentPlane_moved (hb : b.transform = some t) :
    (placed inner b).TangentPlane st P ↔
      ∃ Q, inner.TangentPlane st Q ∧ P = t.applyVector '' Q := by
  refine ⟨fun h => ?_, ?_⟩
  · cases h with
    | still hb' _ => cases hb.symm.trans hb'
    | moved hb' h =>
      cases hb.symm.trans hb'
      exact ⟨_, h, rfl⟩
  · rintro ⟨Q, hQ, rfl⟩
    exact .moved hb hQ

theorem density_group (hi : i < children.size)
    (hpick : pick (Sampler.draw st).1 children.size = i) :
    Density rule (group children hierarchy) st d ↔
      ∃ e, Density rule children[i] (Sampler.draw st).2 e ∧
        d = e / Scalar.ofNat children.size := by
  refine ⟨fun h => ?_, ?_⟩
  · cases h with
    | group _ hpick' h =>
      cases hpick.symm.trans hpick'
      exact ⟨_, h, rfl⟩
  · rintro ⟨e, he, rfl⟩
    exact .group hi hpick he

theorem density_still (hb : b.transform = none) :
    Density rule (placed inner b) st d ↔ Density rule inner st d := by
  refine ⟨fun h => ?_, .still hb⟩
  cases h with
  | still _ h => exact h
  | moved hb' _ _ _ => cases hb.symm.trans hb'

theorem density_moved (hb : b.transform = some t) :
    Density rule (placed inner b) st d ↔ ∃ Q u v e, rule inner b st Q ∧ Vec3.Spans Q u v ∧
      Density rule inner st e ∧ d = e / t.area u v := by
  refine ⟨fun h => ?_, ?_⟩
  · cases h with
    | still hb' _ => cases hb.symm.trans hb'
    | moved hb' hP huv h =>
      cases hb.symm.trans hb'
      exact ⟨_, _, _, _, hP, huv, h, rfl⟩
  · rintro ⟨Q, u, v, e, hQ, huv, he, rfl⟩
    exact .moved hb hQ huv he

end

/-! ### Random points -/

variable {s inner : Shape (Exact z)} {b : Binding (Exact z)} {p : Surface (Exact z)}

/-- A drawable shape has a random point, and it is regular. -/
theorem IsDrawable.exists_sampleArea (hs : s.IsDrawable) (hst : DrawsReal st) :
    ∃ p, (s.sampleArea st).1 = .ok p ∧ p.IsRegular := by
  induction hs generalizing st with
  | sphere =>
    obtain ⟨u, hu, hp⟩ := exists_sampleArea_sphere (z := z) hst
    exact ⟨_, hp, Sphere.isRegular_surfaceAt hu⟩
  | rectangle =>
    obtain ⟨x, y, hp⟩ := exists_sampleArea_rectangle (z := z) hst
    exact ⟨_, hp, isRegular_surfaceAt x y⟩
  | group hsize _ ih =>
    have hi := pick_lt (Sampler.draw st).1 hsize
    obtain ⟨p, hp, hregular⟩ := ih _ hi hst.next
    exact ⟨_, (sampleArea_group_iff hi rfl).2 ⟨p, hp, rfl⟩, hregular.position, hregular.frame⟩
  | placed hb hmap _ ih =>
    obtain ⟨p, hp, hregular⟩ := ih hst
    exact ⟨_, sampleArea_placed_iff.2 ⟨p, hp, hmap p.uv, rfl⟩, isRegular_placeSample hb hregular⟩

/-- There is one tangent plane, and it has a unit normal. -/
theorem IsDrawable.exists_tangentPlane (hs : s.IsDrawable) (hst : DrawsReal st) :
    ∃ n : Fin 3 → ℝ, n ⬝ᵥ n = 1 ∧ ∀ P, s.TangentPlane st P ↔ P = Vec3.plane (.ofCoords n) := by
  induction hs generalizing st with
  | sphere =>
    obtain ⟨u, hu, hp⟩ := exists_sampleArea_sphere (z := z) hst
    have hposition : (Sphere.surfaceAt (.ofCoords u) : Surface (Exact z)).position =
        .ofCoords (Coords.unit u) := Vec3.normalize_ofCoords hu
    refine ⟨Coords.unit u, Coords.unit_dotProduct_unit hu, fun P => ⟨fun h => ?_, ?_⟩⟩
    · cases h with
      | sphere hp' => rw [← Except.ok.inj (hp.symm.trans hp'), hposition]
    · rintro rfl
      rw [← hposition]
      exact .sphere hp
  | rectangle =>
    refine ⟨![0, 0, 1], by simp [dotProduct, Fin.sum_univ_three], fun P => ⟨fun h => ?_, ?_⟩⟩
    · cases h with
      | rectangle => rw [Vec3.unitZ_eq_ofCoords]
    · rintro rfl
      rw [← Vec3.unitZ_eq_ofCoords]
      exact .rectangle
  | group hsize _ ih =>
    have hi := pick_lt (Sampler.draw st).1 hsize
    obtain ⟨n, hn, hplane⟩ := ih _ hi hst.next
    exact ⟨n, hn, fun P => by rw [tangentPlane_group hi rfl, hplane]⟩
  | @placed inner b hb _ _ ih =>
    obtain ⟨n, hn, hplane⟩ := ih hst
    cases hb' : b.transform with
    | none => exact ⟨n, hn, fun P => by rw [tangentPlane_still hb', hplane]⟩
    | some t =>
      obtain ⟨M, o, hM, ht⟩ := (hb t hb').exists_ofLinear
      have himage := Transform.CarriesNormal.image_plane (z := z) (t := t)
        ⟨M, o, n, hM, ht, rfl, rfl⟩
        (by rw [Vec3.length_ofCoords, Coords.length, hn, Real.sqrt_one, one_eq])
      refine ⟨_, Coords.unit_dotProduct_unit (Coords.mulVec_ne_zero
        (Frame.Perpendicular.det_normal_ne_zero hM) (Coords.ne_zero_of_dotProduct_self hn)), ?_⟩
      intro P
      simp only [tangentPlane_moved hb', hplane, exists_eq_left, himage]

/-- A rule that gives every instance one plane, with a unit normal. -/
def PlaneRule.IsDefinite (rule : PlaneRule z σ) : Prop :=
  ∀ (inner : Shape (Exact z)) (b : Binding (Exact z)) (st : σ), inner.IsDrawable → DrawsReal st →
    ∃ n : Fin 3 → ℝ, n ⬝ᵥ n = 1 ∧ ∀ P, rule inner b st P ↔ P = Vec3.plane (.ofCoords n)

theorem isDefinite_geometricPlane : (GeometricPlane : PlaneRule z σ).IsDefinite :=
  fun _ _ _ hinner hst => hinner.exists_tangentPlane hst

theorem isDefinite_shadingPlane : (ShadingPlane : PlaneRule z σ).IsDefinite := by
  intro inner b st hinner hst
  obtain ⟨p, hp, hregular⟩ := hinner.exists_sampleArea hst
  have hmapped := Binding.isRegular_applyNormalMap (b := b) hregular
  obtain ⟨t, n, h, hframe⟩ := hmapped.frame.exists_around
  refine ⟨n, h.right, fun P => ?_⟩
  simp only [ShadingPlane, hp, Except.ok.injEq, exists_eq_left', hframe, Frame.around]

/-- Whatever the definite rule is, a random point has one density. -/
theorem IsDrawable.exists_density {rule : PlaneRule z σ} (hrule : rule.IsDefinite)
    (hs : s.IsDrawable) (hst : DrawsReal st) : ∃ d, ∀ e, Density rule s st e ↔ e = d := by
  induction hs generalizing st with
  | sphere =>
    refine ⟨number (1 / (4 * Real.pi)), fun e => ⟨fun h => ?_, ?_⟩⟩
    · cases h with
      | sphere => rfl
    · rintro rfl
      exact .sphere
  | rectangle =>
    refine ⟨number (1 / 4), fun e => ⟨fun h => ?_, ?_⟩⟩
    · cases h with
      | rectangle => rfl
    · rintro rfl
      exact .rectangle
  | @group children hierarchy hsize _ ih =>
    have hi := pick_lt (Sampler.draw st).1 hsize
    obtain ⟨d, hd⟩ := ih _ hi hst.next
    refine ⟨d / Scalar.ofNat children.size, fun e => ?_⟩
    rw [density_group hi rfl]
    simp only [hd, exists_eq_left]
  | @placed inner b hb _ hinner ih =>
    obtain ⟨d, hd⟩ := ih hst
    cases hb' : b.transform with
    | none => exact ⟨d, fun e => by rw [density_still hb', hd]⟩
    | some t =>
      obtain ⟨n, hn, hplane⟩ := hrule inner b st hinner hst
      obtain ⟨w, -, harea⟩ := (hb t hb').exists_area hn
      obtain ⟨u, v, huv⟩ := Vec3.exists_spans (z := z) hn
      refine ⟨d / number w, fun e => ?_⟩
      rw [density_moved hb']
      constructor
      · rintro ⟨Q, u, v, e, hQ, huv, he, rfl⟩
        rw [(hd e).1 he, harea u v ((hplane Q).1 hQ ▸ huv)]
      · rintro rfl
        exact ⟨_, u, v, d, (hplane _).2 rfl, huv, (hd d).2 rfl, by rw [harea u v huv]⟩

/-! ### Instances -/

theorem applyNormalMap_eq (b : Binding (Exact z)) (p : Surface (Exact z)) :
    b.applyNormalMap p = { p with frame := (b.applyNormalMap p).frame } := by
  unfold Binding.applyNormalMap
  split
  · rfl
  · dsimp only
    split <;> rfl

theorem placeSample_frame (b : Binding (Exact z)) (p : Surface (Exact z)) :
    (placeSample b p).frame = (b.placeSurface p).1.frame := by
  rw [placeSample]
  split <;> rfl

/-- An instance without a transform leaves all but the frame as it is. -/
theorem placeSample_still (hb : b.transform = none) :
    placeSample b p = { p with frame := (b.applyNormalMap p).frame } := by
  have hone : (0 : Exact z) < 1 := by simp
  rw [← applyNormalMap_eq, placeSample, Binding.placeSurface, hb]
  dsimp only
  rw [if_pos hone, Exact.div_one]

/-- An instance with a transform moves the point and divides its density by the area that the axes
of the mapped frame span after the transform. -/
theorem placeSample_moved {t : Transform (Exact z)} (hb : b.transform = some t) (ht : t.IsAffine)
    (hp : p.IsRegular) :
    (placeSample b p).position = t.applyPoint p.position ∧ (placeSample b p).uv = p.uv ∧
      (placeSample b p).pdf = p.pdf /
        t.area (b.applyNormalMap p).frame.tangent (b.applyNormalMap p).frame.bitangent := by
  have hframe := (Binding.isRegular_applyNormalMap (b := b) hp).frame
  have hspans := hframe.spans
  obtain ⟨_, n, h, hn⟩ := hframe.exists_around
  have hnormal : (b.applyNormalMap p).frame.normal = .ofCoords n := by rw [hn, Frame.around]
  rw [hnormal] at hspans
  obtain ⟨w, hw, harea⟩ := ht.exists_area h.right
  have hfactor := harea _ _ hspans
  have hpos : (0 : Exact z) < number w := by rwa [zero_eq, number_lt]
  have hgrown : (b.placeSurface p).2 = number w := by
    rw [← hfactor, Binding.placeSurface, hb]
    rfl
  rw [placeSample, hgrown, if_pos hpos, hfactor, Binding.placeSurface, hb, applyNormalMap_eq]
  exact ⟨rfl, rfl, rfl⟩

/-- The density of a random point follows the shading. -/
theorem IsDrawable.density_sampleArea (hs : s.IsDrawable) (hst : DrawsReal st)
    (hp : (s.sampleArea st).1 = .ok p) : Density ShadingPlane s st p.pdf := by
  induction hs generalizing st p with
  | sphere =>
    obtain ⟨u, hu, hpoint⟩ := exists_sampleArea_sphere (z := z) hst
    have hdensity : (Scalar.invFourPi : Exact z) = number (1 / (4 * Real.pi)) := by
      change (0.25 : Exact z) * (1 / number Real.pi) = _
      rw [ofScientific_eq, one_eq, number_div _ _ Real.pi_ne_zero, number_mul, number_inj]
      ring
    rw [← Except.ok.inj (hpoint.symm.trans hp), Sphere.surfaceAt, hdensity]
    exact .sphere
  | rectangle =>
    obtain ⟨x, y, hpoint⟩ := exists_sampleArea_rectangle (z := z) hst
    have hdensity : (0.25 : Exact z) = number (1 / 4) := by
      norm_num [ofScientific_eq]
    rw [← Except.ok.inj (hpoint.symm.trans hp), Rectangle.surfaceAt, hdensity]
    exact .rectangle
  | group hsize _ ih =>
    have hi := pick_lt (Sampler.draw st).1 hsize
    obtain ⟨q, hq, rfl⟩ := (sampleArea_group_iff hi rfl).1 hp
    exact .group hi rfl (ih _ hi hst.next hq)
  | @placed inner b hb _ hinner ih =>
    obtain ⟨q, hq, -, rfl⟩ := sampleArea_placed_iff.1 hp
    cases hb' : b.transform with
    | none =>
      have hinside := ih hst hq
      rw [placeSample_still hb']
      exact .still hb' hinside
    | some t =>
      obtain ⟨r, hr, hregular⟩ := hinner.exists_sampleArea hst
      cases hq.symm.trans hr
      rw [(placeSample_moved hb' (hb t hb') hregular).2.2]
      exact .moved hb' ⟨q, hq, rfl⟩ (Binding.isRegular_applyNormalMap hregular).frame.spans
        (ih hst hq)

/-! ### Trees without normal maps -/

/-- No instance has a normal map. -/
inductive IsUnmapped : Shape (Exact z) → Prop
  | sphere : IsUnmapped sphere
  | rectangle : IsUnmapped rectangle
  | group {children : Array (Shape (Exact z))} {hierarchy : Hierarchy (Exact z)}
      (h : ∀ (i : Nat) (hi : i < children.size), IsUnmapped children[i]) :
      IsUnmapped (group children hierarchy)
  | placed {inner : Shape (Exact z)} {b : Binding (Exact z)} (hmap : b.normalMap = none)
      (h : IsUnmapped inner) : IsUnmapped (placed inner b)

theorem applyNormalMap_of_unmapped (hmap : b.normalMap = none) (p : Surface (Exact z)) :
    b.applyNormalMap p = p := by
  rw [Binding.applyNormalMap, hmap]

/-- Without normal maps the frame of a random point is that of the tangent plane. -/
theorem IsDrawable.tangentPlane_sampleArea (hs : s.IsDrawable) (hu : s.IsUnmapped)
    (hst : DrawsReal st) (hp : (s.sampleArea st).1 = .ok p) :
    s.TangentPlane st p.frame.normal.plane := by
  induction hs generalizing st p with
  | sphere =>
    have hnormal (u : Vec3 (Exact z)) :
        (Sphere.surfaceAt u).frame.normal = (Sphere.surfaceAt u).position := by
      rw [Sphere.surfaceAt]
      dsimp only
      split <;> rfl
    obtain ⟨u, hu, hpoint⟩ := exists_sampleArea_sphere (z := z) hst
    rw [← Except.ok.inj (hpoint.symm.trans hp), hnormal]
    exact .sphere hpoint
  | rectangle =>
    obtain ⟨x, y, hpoint⟩ := exists_sampleArea_rectangle (z := z) hst
    rw [← Except.ok.inj (hpoint.symm.trans hp)]
    exact .rectangle
  | group hsize _ ih =>
    cases hu with
    | group hu =>
      have hi := pick_lt (Sampler.draw st).1 hsize
      obtain ⟨q, hq, rfl⟩ := (sampleArea_group_iff hi rfl).1 hp
      have hinside := ih _ hi (hu _ hi) hst.next hq
      exact .group hi rfl hinside
  | @placed inner b hb _ hinner ih =>
    cases hu with
    | placed hmap hu =>
      obtain ⟨q, hq, -, rfl⟩ := sampleArea_placed_iff.1 hp
      have hinside := ih hu hst hq
      cases hb' : b.transform with
      | none =>
        rw [placeSample_still hb', applyNormalMap_of_unmapped hmap]
        exact .still hb' hinside
      | some t =>
        obtain ⟨r, hr, hregular⟩ := hinner.exists_sampleArea hst
        cases hq.symm.trans hr
        have hcarried := (Binding.normalCarried_placeSurface hb hmap hregular).carried
        rw [hb', Option.getD_some] at hcarried
        rw [placeSample_frame, ← hcarried.image_plane hregular.frame.isOrthonormal.normal_unit]
        exact .moved hb' hinside

/-- Without normal maps the shading is the geometry. -/
theorem IsDrawable.density_geometric (hs : s.IsDrawable) (hu : s.IsUnmapped) (hst : DrawsReal st)
    {d : Exact z} (hd : Density ShadingPlane s st d) : Density GeometricPlane s st d := by
  induction hs generalizing st d with
  | sphere =>
    cases hd with
    | sphere => exact .sphere
  | rectangle =>
    cases hd with
    | rectangle => exact .rectangle
  | group _ _ ih =>
    cases hu with
    | group hu =>
      cases hd with
      | group hi hpick hd => exact .group hi hpick (ih _ hi (hu _ hi) hst.next hd)
  | placed _ _ hinner ih =>
    cases hu with
    | placed hmap hu =>
      cases hd with
      | still hb hd => exact .still hb (ih hu hst hd)
      | moved hb hP hspans hd =>
        obtain ⟨p, hp, rfl⟩ := hP
        rw [applyNormalMap_of_unmapped hmap] at hspans
        exact .moved hb (hinner.tangentPlane_sampleArea hu hst hp) hspans (ih hu hst hd)

/-! ### Trees with the same geometry -/

/-- Two trees have the same leaves and transforms; normal maps, materials and hierarchies may
differ. -/
inductive SameGeometry : Shape (Exact z) → Shape (Exact z) → Prop
  | sphere : SameGeometry sphere sphere
  | rectangle : SameGeometry rectangle rectangle
  | group {children children' : Array (Shape (Exact z))}
      {hierarchy hierarchy' : Hierarchy (Exact z)}
      (hsize : children.size = children'.size)
      (h : ∀ (i : Nat) (hi : i < children.size) (hi' : i < children'.size),
        SameGeometry children[i] children'[i]) :
      SameGeometry (group children hierarchy) (group children' hierarchy')
  | placed {inner inner' : Shape (Exact z)} {b b' : Binding (Exact z)}
      (hb : b.transform = b'.transform) (h : SameGeometry inner inner') :
      SameGeometry (placed inner b) (placed inner' b')

variable {s' : Shape (Exact z)}

theorem SameGeometry.tangentPlane (h : s.SameGeometry s') {P : Set (Vec3 (Exact z))}
    (hP : s.TangentPlane st P) : s'.TangentPlane st P := by
  induction h generalizing st P with
  | sphere => exact hP
  | rectangle => exact hP
  | group hsize _ ih =>
    cases hP with
    | group hi hpick hP => exact .group (hsize ▸ hi) (hsize ▸ hpick) (ih _ hi _ hP)
  | placed hb _ ih =>
    cases hP with
    | still hb' hP => exact .still (hb ▸ hb') (ih hP)
    | moved hb' hP => exact .moved (hb ▸ hb') (ih hP)

theorem SameGeometry.density (h : s.SameGeometry s') {d : Exact z}
    (hd : Density GeometricPlane s st d) : Density GeometricPlane s' st d := by
  induction h generalizing st d with
  | sphere => exact hd
  | rectangle => exact hd
  | group hsize _ ih =>
    cases hd with
    | group hi hpick hd =>
      rw [hsize]
      exact .group (hsize ▸ hi) (hsize ▸ hpick) (ih _ hi _ hd)
  | placed hb h ih =>
    cases hd with
    | still hb' hd => exact .still (hb ▸ hb') (ih hd)
    | moved hb' hP hspans hd => exact .moved (hb ▸ hb') (h.tangentPlane hP) hspans (ih hd)

/-- Random points of the same geometry are the same. -/
theorem SameGeometry.sampleArea (h : s.SameGeometry s') (hs : s.IsDrawable) (hs' : s'.IsDrawable)
    (hst : DrawsReal st) {p' : Surface (Exact z)} (hp : (s.sampleArea st).1 = .ok p)
    (hp' : (s'.sampleArea st).1 = .ok p') : p'.position = p.position ∧ p'.uv = p.uv := by
  induction h generalizing st p p' with
  | sphere =>
    cases hp.symm.trans hp'
    exact ⟨rfl, rfl⟩
  | rectangle =>
    cases hp.symm.trans hp'
    exact ⟨rfl, rfl⟩
  | group hsize _ ih =>
    cases hs with
    | group hpos hs =>
      cases hs' with
      | group _ hs' =>
        have hi := pick_lt (Sampler.draw st).1 hpos
        obtain ⟨q, hq, rfl⟩ := (sampleArea_group_iff hi rfl).1 hp
        have hpick : pick (Sampler.draw st).1 _ = pick (Sampler.draw st).1 _ :=
          congrArg (pick (Sampler.draw st).1) hsize.symm
        obtain ⟨q', hq', rfl⟩ := (sampleArea_group_iff (hsize ▸ hi) hpick).1 hp'
        have hinside := ih _ hi _ (hs _ hi) (hs' _ _) hst.next hq hq'
        exact hinside
  | @placed inner inner' b b' hb _ ih =>
    cases hs with
    | placed haffine _ hs =>
      cases hs' with
      | placed _ _ hs' =>
        obtain ⟨q, hq, -, rfl⟩ := sampleArea_placed_iff.1 hp
        obtain ⟨q', hq', -, rfl⟩ := sampleArea_placed_iff.1 hp'
        obtain ⟨hposition, huv⟩ := ih hs hs' hst hq hq'
        cases hb' : b.transform with
        | none =>
          rw [placeSample_still hb', placeSample_still (hb ▸ hb')]
          exact ⟨hposition, huv⟩
        | some t =>
          obtain ⟨r, hr, hregular⟩ := hs.exists_sampleArea hst
          cases hq.symm.trans hr
          obtain ⟨r', hr', hregular'⟩ := hs'.exists_sampleArea hst
          cases hq'.symm.trans hr'
          obtain ⟨hx, hy, -⟩ := placeSample_moved hb' (haffine t hb') hregular
          obtain ⟨hx', hy', -⟩ := placeSample_moved (hb ▸ hb') (haffine t hb') hregular'
          rw [hx, hx', hy, hy', hposition, huv]
          exact ⟨rfl, rfl⟩

/-! ### All densities -/

/-- A drawable shape has a random point.  Its density divides that of the leaf by the stretching of
the shading planes, which decide about it alone.  By the geometry there is one density as well, and
the point has it if there are no normal maps.  Another tree of the same geometry has the same point
and the same density by the geometry, whatever its normal maps are. -/
theorem sampleArea_density (hs : s.IsDrawable) (hst : DrawsReal st) :
    ∃ p d, (s.sampleArea st).1 = .ok p ∧
      (∀ e, Density ShadingPlane s st e ↔ e = p.pdf) ∧
      (∀ e, Density GeometricPlane s st e ↔ e = d) ∧
      (s.IsUnmapped → p.pdf = d) ∧
      ∀ s', s.SameGeometry s' → s'.IsDrawable →
        ∃ p', (s'.sampleArea st).1 = .ok p' ∧ p'.position = p.position ∧ p'.uv = p.uv ∧
          (∀ e, Density GeometricPlane s' st e ↔ e = d) ∧ (s'.IsUnmapped → p'.pdf = d) := by
  obtain ⟨p, hp, -⟩ := hs.exists_sampleArea hst
  obtain ⟨d, hd⟩ := hs.exists_density isDefinite_geometricPlane hst
  obtain ⟨c, hc⟩ := hs.exists_density isDefinite_shadingPlane hst
  have hpdf := hs.density_sampleArea hst hp
  rw [← (hc _).1 hpdf] at hc
  refine ⟨p, d, hp, hc, hd, fun hu => (hd _).1 (hs.density_geometric hu hst hpdf), ?_⟩
  intro s' hsame hs'
  obtain ⟨p', hp', -⟩ := hs'.exists_sampleArea hst
  obtain ⟨d', hd'⟩ := hs'.exists_density isDefinite_geometricPlane hst
  have hdensity : d = d' := (hd' d).1 (hsame.density ((hd d).2 rfl))
  obtain ⟨hposition, huv⟩ := hsame.sampleArea hs hs' hst hp hp'
  subst hdensity
  exact ⟨p', hp', hposition, huv, hd',
    fun hu => (hd' _).1 (hs'.density_geometric hu hst (hs'.density_sampleArea hst hp'))⟩

end

/-! ### A stretched rectangle -/

/-- Doubles the first axis and triples the second. -/
def widen : Matrix (Fin 3) (Fin 3) ℝ := diagonal fun i => (![2, 3, 1] i : ℕ)

theorem det_widen_ne_zero : widen.det ≠ 0 := by simp [widen, Fin.prod_univ_three]

theorem widen_mulVec (v : Fin 3 → ℝ) : widen *ᵥ v = ![2 * v 0, 3 * v 1, v 2] := by
  ext i
  fin_cases i <;> simp [widen, mulVec_diagonal]

/-- A rectangle that is stretched, with a normal map or without one. -/
noncomputable def stretchedRectangle (map : Option (Texture (Exact z))) : Shape (Exact z) :=
  placed .rectangle { transform := some (.ofLinear widen 0), normalMap := map }

/-- A map that turns normals to the tangent. -/
noncomputable def tangentMap : Texture (Exact z) :=
  .constant ⟨number 1, number 0.5, number 0.5⟩

theorem isDrawable_stretchedRectangle {map : Option (Texture (Exact z))}
    (hmap : ∀ uv, map.all (·.isDefinedAt uv) = true) : (stretchedRectangle map).IsDrawable := by
  refine .placed ?_ hmap .rectangle
  rintro t ⟨⟩
  exact Transform.isAffine_ofLinear det_widen_ne_zero 0

/-- The map turns the normal of a rectangle. -/
theorem normal_tangentMap {b : Binding (Exact z)} (hb : b.normalMap = some tangentMap) (x y : ℝ) :
    (b.applyNormalMap (Rectangle.surfaceAt (number x) (number y))).frame.normal =
      .ofCoords ![1, 0, 0] := by
  have hunit : (![1, 0, 0] : Fin 3 → ℝ) ⬝ᵥ ![1, 0, 0] = 1 := by
    simp [dotProduct, Fin.sum_univ_three]
  have hmapped := Vec3.normalize?_ofCoords (z := z) (Coords.ne_zero_of_dotProduct_self hunit)
  rw [Coords.unit_eq_self hunit] at hmapped
  have htwo : (2 : Exact z) = number 2 := ofNat_eq 2
  have htangent : (2 : Exact z) • (⟨number 1, number 0.5, number 0.5⟩ : Vec3 (Exact z)) -
      Vec3.one = .ofCoords ![1, 0, 0] := by
    simp [Vec3.one, Vec3.splat, htwo, Vec3.ofCoords]
    norm_num
  have haxis : (.ofCoords ![1, 0, 0] : Vec3 (Exact z)).x • (Vec3.unitX : Vec3 (Exact z)) +
      (.ofCoords ![1, 0, 0] : Vec3 (Exact z)).y • (Vec3.unitY : Vec3 (Exact z)) +
      (.ofCoords ![1, 0, 0] : Vec3 (Exact z)).z • (Vec3.unitZ : Vec3 (Exact z)) =
      .ofCoords ![1, 0, 0] := by
    simp [Vec3.unitX, Vec3.unitY, Vec3.unitZ, Vec3.ofCoords]
  rw [Binding.applyNormalMap, hb]
  simp only [tangentMap, Texture.evaluate, Rectangle.surfaceAt, Frame.standard, htangent, haxis,
    hmapped]
  rfl

/-- A plane is stretched by the length of the product of the stretched directions. -/
theorem area_widen {a b n : Fin 3 → ℝ} {w : ℝ} (hw : 0 ≤ w)
    (h : (widen *ᵥ a) ⨯₃ (widen *ᵥ b) = w • n) (hn : n ⬝ᵥ n = 1) :
    (Transform.ofLinear widen 0 : Transform (Exact z)).area (.ofCoords a) (.ofCoords b) =
      number w := by
  rw [Transform.area_ofLinear, h, Coords.length_smul, abs_of_nonneg hw, Coords.length, hn,
    Real.sqrt_one, mul_one]

theorem spans_ofCoords {n a b : Fin 3 → ℝ} (h : Frame.Perpendicular a b) (ha : a ⬝ᵥ n = 0)
    (hb : b ⬝ᵥ n = 0) :
    Vec3.Spans (Vec3.plane (.ofCoords n : Vec3 (Exact z))) (.ofCoords a) (.ofCoords b) := by
  refine ⟨⟨Vec3.isReal_ofCoords a, ?_⟩, ⟨Vec3.isReal_ofCoords b, ?_⟩, ?_, ?_, ?_⟩ <;>
    simp [Vec3.dot_ofCoords, ha, hb, h.left, h.right, h.dot]

/-- Where the plane of the rectangle is stretched by a factor, the density is divided by it. -/
theorem density_stretchedRectangle [Sampler σ (Exact z)] (rule : PlaneRule z σ)
    (map : Option (Texture (Exact z))) {st : σ} {n a b : Fin 3 → ℝ} {w : ℝ}
    (hplane : rule .rectangle { transform := some (.ofLinear widen 0), normalMap := map } st
      (Vec3.plane (.ofCoords n)))
    (hspans : Vec3.Spans (Vec3.plane (.ofCoords n : Vec3 (Exact z))) (.ofCoords a) (.ofCoords b))
    (hw : 0 < w) (hcross : (widen *ᵥ a) ⨯₃ (widen *ᵥ b) = w • n) (hn : n ⬝ᵥ n = 1) :
    Density rule (stretchedRectangle map) st (number (1 / (4 * w))) := by
  have hdensity : Density rule (stretchedRectangle map) st (number (1 / 4) /
      (Transform.ofLinear widen 0).area (.ofCoords a) (.ofCoords b)) :=
    .moved rfl hplane hspans .rectangle
  rwa [area_widen hw.le hcross hn, number_div _ _ hw.ne', div_div] at hdensity

/-- The random points of two stretched rectangles of which one has a normal map agree, and that of
the other one has the density by the geometry. -/
theorem sampleArea_density_stretchedRectangle :
    let st : Replay (Exact .plus) := ⟨#[number (1 / 4), number (3 / 4)], 1, 0⟩
    ∃ p p', ((stretchedRectangle none).sampleArea st).1 = .ok p ∧
      ((stretchedRectangle (some tangentMap)).sampleArea st).1 = .ok p' ∧
      p'.position = p.position ∧ p'.uv = p.uv ∧
      Density GeometricPlane (stretchedRectangle none) st p.pdf := by
  intro st
  have hst : DrawsReal st := drawsReal_replay (by simp [st])
  have hs : (stretchedRectangle (z := .plus) none).IsDrawable :=
    isDrawable_stretchedRectangle fun _ => rfl
  obtain ⟨p, d, hp, -, hd, hpdf, hsame⟩ := sampleArea_density hs hst
  obtain ⟨p', hp', hposition, huv, -⟩ := hsame (stretchedRectangle (some tangentMap))
    (.placed rfl .rectangle) (isDrawable_stretchedRectangle fun _ => rfl)
  exact ⟨p, p', hp, hp', hposition, huv, (hd _).2 (hpdf (.placed rfl .rectangle))⟩

/-- A normal map changes the density of a random point: the same rectangle, at the same point, is
drawn twice as densely as its geometry asks for. -/
theorem sampleArea_density_mapped :
    let st : Replay (Exact .plus) := ⟨#[number (1 / 4), number (3 / 4)], 1, 0⟩
    let plain : Shape (Exact .plus) := stretchedRectangle none
    let mapped : Shape (Exact .plus) := stretchedRectangle (some tangentMap)
    plain.IsDrawable ∧ mapped.IsDrawable ∧ plain.SameGeometry mapped ∧
      Density GeometricPlane mapped st (number (1 / 24)) ∧
      ∃ p q, (plain.sampleArea st).1 = .ok p ∧ (mapped.sampleArea st).1 = .ok q ∧
        p.pdf = number (1 / 24) ∧ q.pdf = number (1 / 12) := by
  intro st plain mapped
  have hst : DrawsReal st := drawsReal_replay (by simp [st])
  have hplain : plain.IsDrawable := isDrawable_stretchedRectangle fun _ => rfl
  have hmapped : mapped.IsDrawable := isDrawable_stretchedRectangle fun _ => rfl
  have hsame : plain.SameGeometry mapped := .placed rfl .rectangle
  have hgeometric : Density GeometricPlane plain st (number (1 / (4 * 6))) := by
    have hspans : Vec3.Spans (Vec3.plane (.ofCoords ![0, 0, 1] : Vec3 (Exact .plus)))
        (.ofCoords ![1, 0, 0]) (.ofCoords ![0, 1, 0]) := by
      refine spans_ofCoords ⟨?_, ?_, ?_⟩ ?_ ?_ <;> simp [dotProduct, Fin.sum_univ_three]
    have hplane : Shape.TangentPlane .rectangle st
        (Vec3.plane (.ofCoords ![0, 0, 1] : Vec3 (Exact .plus))) :=
      Vec3.unitZ_eq_ofCoords (z := .plus) ▸ .rectangle
    have hcross : (widen *ᵥ ![1, 0, 0]) ⨯₃ (widen *ᵥ ![0, 1, 0]) = (6 : ℝ) • ![0, 0, 1] := by
      simp only [widen_mulVec, cross_apply, cons_val]
      norm_num
    exact density_stretchedRectangle GeometricPlane none hplane hspans (by norm_num) hcross
      (by simp [dotProduct, Fin.sum_univ_three])
  have hshading : Density ShadingPlane mapped st (number (1 / (4 * 3))) := by
    obtain ⟨x, y, hpoint⟩ := exists_sampleArea_rectangle (z := .plus) hst
    have hspans : Vec3.Spans (Vec3.plane (.ofCoords ![1, 0, 0] : Vec3 (Exact .plus)))
        (.ofCoords ![0, 1, 0]) (.ofCoords ![0, 0, 1]) := by
      refine spans_ofCoords ⟨?_, ?_, ?_⟩ ?_ ?_ <;> simp [dotProduct, Fin.sum_univ_three]
    have hcross : (widen *ᵥ ![0, 1, 0]) ⨯₃ (widen *ᵥ ![0, 0, 1]) = (3 : ℝ) • ![1, 0, 0] := by
      simp only [widen_mulVec, cross_apply, cons_val]
      norm_num
    exact density_stretchedRectangle ShadingPlane (some tangentMap)
      ⟨_, hpoint, by rw [normal_tangentMap rfl]⟩ hspans (by norm_num) hcross
      (by simp [dotProduct, Fin.sum_univ_three])
  norm_num at hgeometric hshading
  obtain ⟨p, hp, -⟩ := hplain.exists_sampleArea hst
  obtain ⟨q, hq, -⟩ := hmapped.exists_sampleArea hst
  obtain ⟨d, hd⟩ := hplain.exists_density isDefinite_geometricPlane hst
  obtain ⟨e, he⟩ := hmapped.exists_density isDefinite_shadingPlane hst
  have hpdf := hplain.density_geometric (.placed rfl .rectangle) hst
    (hplain.density_sampleArea hst hp)
  refine ⟨hplain, hmapped, hsame, hsame.density hgeometric, p, q, hp, hq, ?_, ?_⟩
  · rw [(hd _).1 hpdf, (hd _).1 hgeometric]
  · rw [(he _).1 (hmapped.density_sampleArea hst hq), (he _).1 hshading]

end Shape

end Radiance
