import Radiance.Proofs.Random.Unit
import Radiance.Proofs.Scalar.Sign
import Radiance.Proofs.Shape.Nesting
import Radiance.Proofs.Shape.Provenance

/-!
# Shading frames are orthonormal

A frame comes from a normal alone, from a tangent with a normal, from a normal map, or from an inner
shape through a transform.  In exact arithmetic each of these gives orthonormal right-handed axes,
and a transform without a normal map carries the normal by the transposed inverse, so a mirrored
shape keeps its outside.

## Main definitions

* `Frame.IsOrthonormal`: unit axes, perpendicular to each other, the normal being the product of the
  other two.

## Main statements

* `Frame.isRightHanded_ofNormal`: the frame around a unit normal.
* `Binding.isRegular_placeSurface`: an instance keeps frames right-handed, with or without a map.
* `Shape.IsSound.reports_isRegular`, `Shape.IsSound.isRegular_sampleArea`: hits and random points.
* `Shape.frames_orthonormal`: the frames of all hits and random points of a sound shape.
-/

namespace Radiance

open Exact Matrix

variable {z : ZeroSign}

/-! ## Frames -/

namespace Frame

/-- Unit axes, perpendicular to each other, the normal being the product of the other two. -/
structure IsOrthonormal (f : Frame (Exact z)) : Prop where
  tangent_unit : f.tangent.length = 1
  bitangent_unit : f.bitangent.length = 1
  normal_unit : f.normal.length = 1
  tangent_bitangent : f.tangent.dot f.bitangent = 0
  tangent_normal : f.tangent.dot f.normal = 0
  bitangent_normal : f.bitangent.dot f.normal = 0
  normal_eq : f.tangent.cross f.bitangent = f.normal

theorem IsRightHanded.isOrthonormal {f : Frame (Exact z)} (hf : f.IsRightHanded) :
    f.IsOrthonormal := by
  obtain ⟨t, n, h, rfl⟩ := hf.exists_around
  refine ⟨?_, ?_, ?_, hf.perpendicular, ?_, ?_, hf.normal_eq⟩
  · rw [around, Vec3.length_ofCoords, Coords.length, h.left, Real.sqrt_one, one_eq]
  · rw [around, Vec3.length_ofCoords, Coords.length, h.bitangent_unit, Real.sqrt_one, one_eq]
  · rw [around, Vec3.length_ofCoords, Coords.length, h.right, Real.sqrt_one, one_eq]
  · rw [around, Vec3.dot_ofCoords, h.dot, zero_eq]
  · rw [around, Vec3.dot_ofCoords, dotProduct_comm, dot_self_cross, zero_eq]

/-- The frame around a unit normal is right-handed.  The divisor is the sign of the third component
plus that component, so it is never zero. -/
theorem isRightHanded_ofNormal {n : Fin 3 → ℝ} (hn : n ⬝ᵥ n = 1) :
    (ofNormal (.ofCoords n) : Frame (Exact z)).IsRightHanded := by
  obtain ⟨s, hsign, hs, hside⟩ := exists_copySign (z := z) (n 2)
  have hdivisor : s + n 2 ≠ 0 := by
    intro hzero
    have hone : s * s + s * n 2 = 0 := by rw [← mul_add, hzero, mul_zero]
    linarith
  obtain ⟨a, ha, hinv⟩ : ∃ a : ℝ, (number (-1) / number (s + n 2) : Exact z) = number a ∧
      a * (s + n 2) = -1 :=
    ⟨-1 / (s + n 2), number_div _ _ hdivisor, div_mul_cancel₀ _ hdivisor⟩
  have hnorm : n 0 * n 0 + n 1 * n 1 + n 2 * n 2 = 1 := by
    simpa [dotProduct, Fin.sum_univ_three] using hn
  let t : Fin 3 → ℝ := ![1 + s * n 0 * n 0 * a, s * (n 0 * n 1 * a), -s * n 0]
  have hperpendicular : Perpendicular t n := by
    refine ⟨?_, hn, ?_⟩
    · simp only [t, dotProduct, Fin.sum_univ_three, cons_val]
      linear_combination (n 0 * n 0 * (n 0 * n 0 + n 1 * n 1) * a * a + n 0 * n 0) * hs +
        n 0 * n 0 * a * a * hnorm + n 0 * n 0 * ((a * (s - n 2) + 1) * hinv - a * a * hs)
    · simp only [t, dotProduct, Fin.sum_univ_three, cons_val]
      linear_combination s * a * n 0 * hnorm + n 0 * s * ((s - n 2) * hinv - a * hs) - n 0 * hs
  have hframe : (ofNormal (.ofCoords n) : Frame (Exact z)) = around t n := by
    simp only [ofNormal, around, Vec3.ofCoords, hsign, ha, one_eq, number_mul, number_add,
      number_neg, cross_apply, t, Frame.mk.injEq, Vec3.mk.injEq, number_inj, cons_val, true_and,
      and_true]
    refine ⟨?_, ?_, ?_⟩
    · linear_combination n 0 * n 1 * (s * hinv - a * hs)
    · linear_combination a * hnorm + (s - n 2) * hinv - a * hs - n 0 * n 0 * (s * hinv - a * hs)
    · ring
  rw [hframe]
  exact hperpendicular.isRightHanded

end Frame

/-! ## Normals -/

theorem Transform.applyNormal_ofLinear {M : Matrix (Fin 3) (Fin 3) ℝ} {o : Fin 3 → ℝ}
    (hM : M.det ≠ 0) (n : Fin 3 → ℝ) :
    (ofLinear M o : Transform (Exact z)).applyNormal (.ofCoords n) = .ofCoords (M⁻¹ᵀ *ᵥ n) := by
  rw [applyNormal, inverse_ofLinear hM]
  simp [ofLinear, ofMatrix, Matrix4.transpose, Matrix4.vector, Matrix4.ofAxes, Vec3.ofCoords,
    Vec4.xyz, mulVec, dotProduct, Fin.sum_univ_three, mul_comm]

/-! ## Leaves -/

/-- The surface of a sphere in the direction of a point that is not its center. -/
theorem Sphere.isRegular_surfaceAt {u : Fin 3 → ℝ} (hu : u ≠ 0) :
    (surfaceAt (.ofCoords u) : Surface (Exact z)).IsRegular := by
  have hn := Coords.unit_dotProduct_unit hu
  have hunitY : (Vec3.unitY : Vec3 (Exact z)) = .ofCoords ![0, 1, 0] := by
    simp [Vec3.unitY, Vec3.ofCoords]
  simp only [surfaceAt, Vec3.normalize_ofCoords hu, hunitY, Vec3.cross_ofCoords]
  refine ⟨Vec3.isReal_ofCoords _, ?_⟩
  dsimp only
  generalize Coords.unit u = n at hn
  split
  · exact Frame.isRightHanded_ofNormal hn
  next hfar =>
    -- Away from the poles the direction of longitude is not zero.
    have hne : ![0, 1, 0] ⨯₃ n ≠ 0 := by
      intro hzero
      rw [hzero, Vec3.lengthSquared, Vec3.dot_ofCoords, zero_dotProduct, ofScientific_eq,
        number_lt] at hfar
      exact hfar (by norm_num)
    rw [Vec3.normalize_ofCoords hne, Vec3.cross_ofCoords]
    refine Frame.Perpendicular.isRightHanded ⟨Coords.unit_dotProduct_unit hne, hn, ?_⟩
    rw [Coords.unit, smul_dotProduct, dotProduct_comm, dot_cross_self, smul_zero]

theorem Sphere.isRegular_encounter? {ray : Ray (Exact z)} (hray : ray.IsUnit)
    {e : Encounter (Exact z)} (he : encounter? ray = some e) : e.surface.IsRegular := by
  obtain ⟨τ, x, y, w, rfl, -, hone⟩ := encounter?_spec hray he
  refine isRegular_surfaceAt (u := ![x, y, w]) (Coords.ne_zero_of_dotProduct_self ?_)
  simpa [dotProduct, Fin.sum_univ_three] using hone

theorem Rectangle.isRegular_encounter? {ray : Ray (Exact z)} (hray : ray.IsReal)
    {e : Encounter (Exact z)} (he : encounter? ray = some e) : e.surface.IsRegular := by
  obtain ⟨x, -, -, -, -, hsurface⟩ := encounter?_spec hray he
  obtain ⟨a, b, c, hpoint⟩ := hray.pointAt x
  rw [hsurface, hpoint]
  exact Shape.isRegular_surfaceAt a b

/-- A triangle that a ray meets is not degenerate: its edges span the plane. -/
theorem Triangle.cross_ne_zero_of_intersect? {ray : Ray (Exact z)} (hray : ray.IsReal)
    {a b c : Fin 3 → ℝ} {r : Exact z × Vec2 (Exact z)}
    (h : intersect? ray (.ofCoords a) (.ofCoords b) (.ofCoords c) = some r) :
    (b - a) ⨯₃ (c - a) ≠ 0 := by
  obtain ⟨o, d, depth, rfl⟩ := hray.exists_coords
  obtain ⟨hsteep, -⟩ := (intersect?_eq_some_iff hray (Vec3.isReal_ofCoords a)
    (Vec3.isReal_ofCoords b) (Vec3.isReal_ofCoords c)).1 h
  intro hzero
  refine hsteep.determinant_ne_zero ?_
  rw [triple_product_permutation, ← cross_anticomm, hzero, neg_zero, dotProduct_zero]

/-- The frame of a triangle is around the interpolated normal or, where that has no direction,
around the normal of its plane. -/
theorem TriangleMesh.isRegular_encounter? {m : TriangleMesh (Exact z)} {ray : Ray (Exact z)}
    {i : Nat} (hm : m.mesh.IsReal) (hray : ray.IsReal) {e : Encounter (Exact z)}
    (he : m.encounter? ray i = some e) : e.surface.IsRegular := by
  obtain ⟨⟨τ, hτ⟩, hposition, -⟩ := liesOn hm hray he
  have hcoords (v : Nat) : ∃ p, m.mesh.position v = .ofCoords p :=
    (Vec3.isReal_iff.2 (hm.position v)).exists_coords
  obtain ⟨a, ha⟩ := hcoords (m.mesh.triangle i).1
  obtain ⟨b, hb⟩ := hcoords (m.mesh.triangle i).2.1
  obtain ⟨c, hc⟩ := hcoords (m.mesh.triangle i).2.2
  refine ⟨?_, ?_⟩
  · rw [hposition, hτ]
    exact hray.pointAt τ
  have hcorners : m.mesh.corners i = (.ofCoords a, .ofCoords b, .ofCoords c) := by
    rw [← ha, ← hb, ← hc]
    rfl
  rw [encounter?, hcorners] at he
  obtain ⟨⟨t, bary⟩, ht, rfl⟩ := Option.map_eq_some_iff.1 he
  have hplane := Triangle.cross_ne_zero_of_intersect? hray ht
  have hunit := Coords.unit_dotProduct_unit hplane
  simp only [surfaceAt, ha, hb, hc, Vec3.sub_ofCoords, Vec3.cross_ofCoords,
    Vec3.normalize_ofCoords hplane]
  split
  next =>
    generalize hmean : Vec3.normalize? (_ : Vec3 (Exact z)) = mean
    cases mean with
    | none => exact Frame.isRightHanded_ofNormal hunit
    | some n =>
      obtain ⟨u, hu, -, rfl⟩ := Vec3.exists_coords_of_normalize? hmean
      exact Frame.isRightHanded_ofNormal (Coords.unit_dotProduct_unit hu)
  · exact Frame.isRightHanded_ofNormal hunit

/-! ## Instances -/

/-- A normal in the space of an instance is the unit vector of the image of the local normal under
the transposed inverse of the linear part. -/
def Transform.CarriesNormal (t : Transform (Exact z)) (before after : Vec3 (Exact z)) : Prop :=
  ∃ M o n, M.det ≠ 0 ∧ t = ofLinear M o ∧ before = .ofCoords n ∧
    after = .ofCoords (Coords.unit (M⁻¹ᵀ *ᵥ n))

/-- The side of a surface that a direction points to is kept, whether or not space is mirrored. -/
theorem Transform.CarriesNormal.side_iff {t : Transform (Exact z)} {before after v : Vec3 (Exact z)}
    (h : t.CarriesNormal before after) (hunit : before.length = 1) (hv : v.IsReal) :
    0 < after.dot (t.applyVector v) ↔ 0 < before.dot v := by
  obtain ⟨M, o, n, hM, rfl, rfl, rfl⟩ := h
  obtain ⟨u, rfl⟩ := hv.exists_coords
  have hn : n ≠ 0 := by
    rintro rfl
    simp [Vec3.length_ofCoords, Coords.length] at hunit
  have hnormal := Coords.mulVec_ne_zero (Frame.Perpendicular.det_normal_ne_zero hM) hn
  rw [applyVector_ofLinear, Vec3.dot_ofCoords, Vec3.dot_ofCoords, zero_eq, number_lt, number_lt,
    Coords.unit, smul_dotProduct, Coords.normal_dotProduct_mulVec hM, smul_eq_mul,
    mul_pos_iff_of_pos_left (inv_pos.2 (Coords.length_pos hnormal))]

/-- The normal of a surface is carried by a transform, and stays on its side of every direction. -/
structure Surface.NormalCarried (t : Transform (Exact z)) (before after : Surface (Exact z)) :
    Prop where
  carried : t.CarriesNormal before.frame.normal after.frame.normal
  side_iff : ∀ v : Vec3 (Exact z), v.IsReal →
    (0 < after.frame.normal.dot (t.applyVector v) ↔ 0 < before.frame.normal.dot v)

namespace Binding

variable {b : Binding (Exact z)} {s : Surface (Exact z)}

/-- A normal map turns the frame to the unit vector of the mapped normal, if it has one. -/
theorem isRegular_applyNormalMap (hs : s.IsRegular) : (b.applyNormalMap s).IsRegular := by
  unfold applyNormalMap
  split
  · exact hs
  · dsimp only
    split
    · exact hs
    next normal hnormal =>
      obtain ⟨u, hu, -, rfl⟩ := Vec3.exists_coords_of_normalize? hnormal
      exact ⟨hs.position, Frame.isRightHanded_ofNormal (Coords.unit_dotProduct_unit hu)⟩

/-- An instance keeps regular points regular, with or without a normal map. -/
theorem isRegular_placeSurface (hb : ∀ t ∈ b.transform, t.IsAffine) (hs : s.IsRegular) :
    (b.placeSurface s).1.IsRegular := by
  have hmapped := isRegular_applyNormalMap (b := b) hs
  simp only [placeSurface]
  split
  · exact hmapped
  next t ht =>
    obtain ⟨M, o, hM, rfl⟩ := (hb t ht).exists_ofLinear
    obtain ⟨p, hp⟩ := hmapped.position.exists_coords
    obtain ⟨tangent, n, h, hf⟩ := hmapped.frame.exists_around
    refine ⟨?_, ?_⟩
    · simp only [hp, Transform.applyPoint_ofLinear]
      exact Vec3.isReal_ofCoords _
    · simp only [hf, Frame.around, Transform.applyVector_ofLinear]
      split
      · have hnormal := Coords.mulVec_ne_zero (Frame.Perpendicular.det_normal_ne_zero hM)
          h.right_ne_zero
        rw [Transform.applyNormal_ofLinear hM, Vec3.normalize_ofCoords hnormal]
        exact Frame.isRightHanded_ofNormal (Coords.unit_dotProduct_unit hnormal)
      · rw [carryFrame_around h hM]
        exact (h.carry hM).isRightHanded

/-- Without a normal map the normal is carried by the transposed inverse. -/
theorem normalCarried_placeSurface (hb : ∀ t ∈ b.transform, t.IsAffine) (hmap : b.normalMap = none)
    (hs : s.IsRegular) : s.NormalCarried (b.transform.getD .identity) (b.placeSurface s).1 := by
  obtain ⟨p, hp⟩ := hs.position.exists_coords
  obtain ⟨tangent, n, h, hf⟩ := hs.frame.exists_around
  have hcarried : (b.transform.getD .identity).CarriesNormal s.frame.normal
      (b.placeSurface s).1.frame.normal := by
    cases ht : b.transform with
    | none =>
      refine ⟨1, 0, n, by simp, Transform.identity_eq_ofLinear, by rw [hf, Frame.around], ?_⟩
      simp only [placeSurface, applyNormalMap, hmap, ht, hf, Frame.around, inv_one, transpose_one,
        one_mulVec, Coords.unit_eq_self h.right]
    | some t =>
      obtain ⟨M, o, hM, rfl⟩ := (hb t ht).exists_ofLinear
      refine ⟨M, o, n, hM, rfl, by rw [hf, Frame.around], ?_⟩
      rw [placeSurface_around ht hmap h hM hp hf, Frame.around]
  exact ⟨hcarried, fun v hv => hcarried.side_iff hs.frame.isOrthonormal.normal_unit hv⟩

/-- A unit ray stays one in the space of the inner shape. -/
theorem isUnit_localRay (hb : ∀ t ∈ b.transform, t.IsAffine) {ray : Ray (Exact z)}
    (hray : ray.IsUnit) : (b.localRay ray).IsUnit := by
  unfold localRay
  split
  · exact hray
  next t ht => exact (hb t ht).isUnit_localRay hray.isProper

end Binding

/-! ## Shapes -/

namespace Shape

open Hierarchy (Untouched)

variable {s : Shape (Exact z)} {ray : Ray (Exact z)}

/-- The hits of an instance are those of the shape inside, carried to the space of the instance. -/
theorem found_of_placed {inner : Shape (Exact z)} {b : Binding (Exact z)} {hit : Hit (Exact z)}
    (h : ((placed inner b).intersect ray hit).1 = true) :
    let r := inner.intersect (b.localRay ray) (b.innerHit ray hit)
    r.1 = true ∧
      ((placed inner b).intersect ray hit).2.surface = (b.placeSurface r.2.surface).1 := by
  rw [Shape.intersect] at h ⊢
  cases hinside : (inner.intersect (b.localRay ray) (b.innerHit ray hit)).1 with
  | false =>
    rw [(b.intersect_missed inner.intersect ray hit hinside).1] at h
    cases h
  | true => exact ⟨hinside, (b.intersect_found inner.intersect ray hit hinside).2.1⟩

/-- Every hit of a sound shape is regular. -/
theorem IsSound.reports_isRegular (hs : s.IsSound) (hray : ray.IsUnit) (hit : Hit (Exact z)) :
    Reports (fun _ p => p.IsRegular) hit (s.intersect ray hit) := by
  induction hs generalizing ray hit with
  | sphere =>
    rw [Shape.intersect, Sphere.intersect_eq]
    exact Encounter.reports_answer (fun d hd => Sphere.isRegular_encounter? hray hd) hit
  | rectangle =>
    rw [Shape.intersect, Rectangle.intersect_eq]
    exact Encounter.reports_answer (fun d hd => Rectangle.isRegular_encounter? hray.toIsReal hd) hit
  | @mesh mesh smooth method hreal =>
    rw [Shape.intersect]
    refine Reports.sequential.intersect_build method _ ray (fun i _ hit => ?_) hit
    rw [TriangleMesh.queryTriangle_eq]
    exact Encounter.reports_answer
      (fun d hd => TriangleMesh.isRegular_encounter? (m := .ofMesh mesh smooth method) hreal
        hray.toIsReal hd) hit
  | @group method children _ ih =>
    rw [intersect_ofChildren]
    refine Reports.sequential.intersect_build method _ ray (fun i hi hit => ?_) hit
    rw [Array.size_map] at hi
    simp only [dif_pos hi]
    exact ih children[i] (by simp) hray hit
  | placed hb _ ih =>
    refine ⟨(Shape.kept_intersect _ ray hit).untouched, fun hfound => ?_⟩
    obtain ⟨hinside, hsurface⟩ := found_of_placed hfound
    rw [hsurface]
    exact Binding.isRegular_placeSurface hb
      ((ih (Binding.isUnit_localRay hb hray) _).found hinside)

/-! ## Random points -/

section

section

variable {α σ : Type} [Scalar α] [Sampler σ α]

/-- No draw picks past the end, whatever its number. -/
theorem pick_lt {n : Nat} (u : α) (hn : 0 < n) : pick u n < n :=
  (Nat.min_le_right _ _).trans_lt (Nat.sub_lt hn Nat.one_pos)

/-- A group passes the draws that are left on to the child that is picked. -/
theorem sampleArea_group {children : Array (Shape α)} {hierarchy : Hierarchy α} {st : σ} {i : Nat}
    (hi : i < children.size) (hpick : pick (Sampler.draw st).1 children.size = i) :
    (group children hierarchy).sampleArea st =
      ((children[i].sampleArea (Sampler.draw st).2).1.map fun p =>
          { p with pdf := p.pdf / Scalar.ofNat children.size },
        (children[i].sampleArea (Sampler.draw st).2).2) := by
  subst hpick
  have hsize : children.size ≠ 0 := by omega
  rw [sampleArea, if_neg hsize]
  change (if h : pick (Sampler.draw st).1 children.size < children.size then do
      let sample ← children[pick (Sampler.draw st).1 children.size].sampleArea
      return sample.map fun p => { p with pdf := p.pdf / Scalar.ofNat children.size }
      else return .error .pointless : StateM σ (Except AreaError (Surface α)))
      (Sampler.draw st).2 = _
  rw [dif_pos hi]
  rfl

end

variable {σ : Type} [Sampler σ (Exact z)]

/-- All numbers that a sampler draws from a state on are real. -/
def DrawsReal (st : σ) : Prop :=
  ∀ k, ∃ x : ℝ, Sampler.stream st k = number x

theorem DrawsReal.first {st : σ} (h : DrawsReal st) : ∃ x : ℝ, (Sampler.draw st).1 = number x := h 0

theorem DrawsReal.next {st : σ} (h : DrawsReal st) : DrawsReal (Sampler.draw st).2 :=
  fun k => h (k + 1)

end

/-- Two real numbers give a direction. -/
theorem exists_coords_warp (x y : ℝ) :
    ∃ u, u ≠ 0 ∧ Warp.sphere ⟨number x, number y⟩ = (.ofCoords u : Vec3 (Exact z)) := by
  let r : ℝ := √(max (1 - (1 - 2 * y) * (1 - 2 * y)) 0)
  refine ⟨![r * Real.cos (2 * Real.pi * x), r * Real.sin (2 * Real.pi * x), 1 - 2 * y], ?_, ?_⟩
  · intro hzero
    have hheight : 1 - 2 * y = 0 := congrFun hzero 2
    have hr : r = 1 := by simp [r, hheight]
    have hcos : r * Real.cos (2 * Real.pi * x) = 0 := congrFun hzero 0
    have hsin : r * Real.sin (2 * Real.pi * x) = 0 := congrFun hzero 1
    have hcircle := Real.cos_sq_add_sin_sq (2 * Real.pi * x)
    rw [hr, one_mul] at hcos hsin
    rw [hcos, hsin] at hcircle
    norm_num at hcircle
  · simp only [Warp.sphere, turn_number]
    simp only [one_eq, ofNat_eq, number_mul, number_sub, safeSqrt_number]
    rfl

variable {σ : Type} [Sampler σ (Exact z)]

/-- A random point of a group is one of the child that is picked, chosen less densely. -/
theorem sampleArea_group_iff {children : Array (Shape (Exact z))} {hierarchy : Hierarchy (Exact z)}
    {st : σ} {i : Nat} {q : Surface (Exact z)} (hi : i < children.size)
    (hpick : pick (Sampler.draw st).1 children.size = i) :
    ((group children hierarchy).sampleArea st).1 = .ok q ↔
      ∃ p, (children[i].sampleArea (Sampler.draw st).2).1 = .ok p ∧
        { p with pdf := p.pdf / Scalar.ofNat children.size } = q := by
  rw [sampleArea_group hi hpick]
  cases (children[i].sampleArea (Sampler.draw st).2).1 <;> simp [Except.map]

/-- A random point of a group is one of a child. -/
theorem exists_of_sampleArea_group {children : Array (Shape (Exact z))}
    {hierarchy : Hierarchy (Exact z)} {st : σ} {q : Surface (Exact z)}
    (h : ((group children hierarchy).sampleArea st).1 = .ok q) :
    ∃ child ∈ children.toList, ∃ p : Surface (Exact z),
      (child.sampleArea (Sampler.draw st).2).1 = .ok p ∧
        { p with pdf := p.pdf / Scalar.ofNat children.size } = q := by
  rcases Nat.eq_zero_or_pos children.size with hsize | hsize
  · rw [sampleArea, if_pos hsize] at h
    cases h
  · have hi := pick_lt (Sampler.draw st).1 hsize
    exact ⟨_, Array.mem_toList_iff.2 (Array.getElem_mem hi), (sampleArea_group_iff hi rfl).1 h⟩

/-- A random point of an instance is one of the shape inside, carried to the space of the instance,
if its normal map has a color there. -/
theorem sampleArea_placed_iff {inner : Shape (Exact z)} {b : Binding (Exact z)} {st : σ}
    {q : Surface (Exact z)} :
    ((placed inner b).sampleArea st).1 = .ok q ↔
      ∃ p, (inner.sampleArea st).1 = .ok p ∧ b.mapsAt p.uv = true ∧ placeSample b p = q := by
  rw [sampleArea]
  change Except.bind (inner.sampleArea st).1 _ = _ ↔ _
  cases (inner.sampleArea st).1 with
  | error e => simp [Except.bind]
  | ok p =>
    change (if !b.mapsAt p.uv then _ else Except.ok (placeSample b p)) = _ ↔ _
    cases hmaps : b.mapsAt p.uv <;> simp [hmaps]

theorem isRegular_placeSample {b : Binding (Exact z)} (hb : ∀ t ∈ b.transform, t.IsAffine)
    {p : Surface (Exact z)} (hp : p.IsRegular) : (placeSample b p).IsRegular := by
  have hregular := Binding.isRegular_placeSurface hb hp
  rw [placeSample]
  split
  · exact ⟨hregular.position, hregular.frame⟩
  · exact hregular

/-- A random point of a sphere lies in a random direction. -/
theorem exists_sampleArea_sphere {st : σ} (hst : DrawsReal st) : ∃ u, u ≠ 0 ∧
    ((sphere : Shape (Exact z)).sampleArea st).1 = .ok (Sphere.surfaceAt (.ofCoords u)) := by
  obtain ⟨x, hx⟩ := hst.first
  obtain ⟨y, hy⟩ := hst.next.first
  obtain ⟨u, hu, hwarp⟩ := exists_coords_warp (z := z) x y
  refine ⟨u, hu, ?_⟩
  rw [sampleArea, ← hwarp, ← hx, ← hy]
  rfl

theorem exists_sampleArea_rectangle {st : σ} (hst : DrawsReal st) : ∃ x y : ℝ,
    ((rectangle : Shape (Exact z)).sampleArea st).1 =
      .ok (Rectangle.surfaceAt (number x) (number y)) := by
  obtain ⟨x, hx⟩ := hst.first
  obtain ⟨y, hy⟩ := hst.next.first
  refine ⟨2 * x - 1, 2 * y - 1, ?_⟩
  have hcoordinate (x : ℝ) : (number (2 * x - 1) : Exact z) = 2 * number x - 1 := by
    rw [one_eq, ofNat_eq, number_mul, number_sub]
  rw [sampleArea, hcoordinate, hcoordinate, ← hx, ← hy]
  rfl

/-- Every random point of a sound shape is regular. -/
theorem IsSound.isRegular_sampleArea (hs : s.IsSound) {st : σ} (hst : DrawsReal st)
    {p : Surface (Exact z)} (hp : (s.sampleArea st).1 = .ok p) : p.IsRegular := by
  induction hs generalizing st p with
  | sphere =>
    obtain ⟨u, hu, hpoint⟩ := exists_sampleArea_sphere (z := z) hst
    rw [← Except.ok.inj (hpoint.symm.trans hp)]
    exact Sphere.isRegular_surfaceAt hu
  | rectangle =>
    obtain ⟨x, y, hpoint⟩ := exists_sampleArea_rectangle (z := z) hst
    rw [← Except.ok.inj (hpoint.symm.trans hp)]
    exact isRegular_surfaceAt x y
  | mesh smooth method hreal =>
    rw [sampleArea] at hp
    cases hp
  | group method _ ih =>
    obtain ⟨child, hchild, q, hq, rfl⟩ := exists_of_sampleArea_group hp
    have hregular := ih child hchild hst.next hq
    exact ⟨hregular.position, hregular.frame⟩
  | placed hb _ ih =>
    obtain ⟨q, hq, -, rfl⟩ := sampleArea_placed_iff.1 hp
    exact isRegular_placeSample hb (ih hst hq)

/-! ## All frames -/

/-- Every hit of a sound shape along a unit ray and every random point of it has an orthonormal
right-handed frame, whatever normal maps its instances have.  An instance without a normal map shows
the unit vector of the local normal carried by the transposed inverse, on the same side of every
direction. -/
theorem frames_orthonormal :
    (∀ s : Shape (Exact z), s.IsSound →
      (∀ ray hit, ray.IsUnit → (s.intersect ray hit).1 = true →
        (s.intersect ray hit).2.surface.frame.IsOrthonormal) ∧
      ∀ (τ : Type) [Sampler τ (Exact z)] (st : τ) (p : Surface (Exact z)), DrawsReal st →
        (s.sampleArea st).1 = .ok p → p.frame.IsOrthonormal) ∧
    ∀ (inner : Shape (Exact z)) (b : Binding (Exact z)), inner.IsSound →
      (∀ t ∈ b.transform, t.IsAffine) → b.normalMap = none →
      let t := b.transform.getD .identity
      (∀ ray hit, ray.IsUnit → ((placed inner b).intersect ray hit).1 = true →
        let r := inner.intersect (b.localRay ray) (b.innerHit ray hit)
        r.1 = true ∧
          r.2.surface.NormalCarried t ((placed inner b).intersect ray hit).2.surface) ∧
      ∀ (τ : Type) [Sampler τ (Exact z)] (st : τ) (q : Surface (Exact z)), DrawsReal st →
        ((placed inner b).sampleArea st).1 = .ok q →
        ∃ p, (inner.sampleArea st).1 = .ok p ∧ p.NormalCarried t q := by
  refine ⟨fun s hs => ⟨fun ray hit hray hfound => ?_, fun τ _ st p hst hp => ?_⟩,
    fun inner b hs hb hmap => ⟨fun ray hit hray hfound => ?_, fun τ _ st q hst hq => ?_⟩⟩
  · exact ((hs.reports_isRegular hray hit).found hfound).frame.isOrthonormal
  · exact (hs.isRegular_sampleArea hst hp).frame.isOrthonormal
  · obtain ⟨hinside, hsurface⟩ := found_of_placed hfound
    have hregular := (hs.reports_isRegular (Binding.isUnit_localRay hb hray) _).found hinside
    rw [hsurface]
    exact ⟨hinside, Binding.normalCarried_placeSurface hb hmap hregular⟩
  · obtain ⟨p, hp, -, rfl⟩ := sampleArea_placed_iff.1 hq
    have hcarried := Binding.normalCarried_placeSurface hb hmap (hs.isRegular_sampleArea hst hp)
    refine ⟨p, hp, ?_⟩
    rw [placeSample]
    split
    · exact ⟨hcarried.carried, hcarried.side_iff⟩
    · exact hcarried

/-! ### A mapped rectangle in a mirror -/

/-- A shape that is met through its center stays so under a matrix that only stretches that axis. -/
theorem found_of_stretched {M : Matrix (Fin 3) (Fin 3) ℝ} {c a : ℝ} {b : Binding (Exact z)}
    (hM : M.det ≠ 0) (hc : 0 < c) (haxis : M *ᵥ ![0, 0, 1] = c • ![0, 0, 1])
    (hb : b.transform = some (.ofLinear M 0))
    (hs : ∀ hit : Hit (Exact z), hit.t = Scalar.infinity →
      (s.intersect (.towardsOrigin ⟨0, 0, 1⟩ (a / c)) hit).1 = true)
    (hit : Hit (Exact z)) (ht : hit.t = Scalar.infinity) :
    ((placed s b).intersect (.towardsOrigin ⟨0, 0, 1⟩ a) hit).1 = true := by
  have hray := Ray.isUnit_towardsOrigin (z := z) (d := ⟨0, 0, 1⟩) (by norm_num) a
  obtain ⟨w, hw, hscale⟩ := (Transform.isAffine_ofLinear hM 0).exists_rayScale hray.isProper
  have hfar : hit.t * number w = Scalar.infinity := by
    rw [ht]
    exact if_pos hw
  rw [Shape.intersect, Binding.intersect_of_some _ _ _ hb, localRay_of_stretched hM hc haxis,
    hscale, hfar]
  have hfound := hs { hit with binding := none, t := Scalar.infinity } rfl
  simp [hfound]

/-- A list of real numbers is drawn as such. -/
theorem drawsReal_replay {st : Replay (Exact z)} (h : ∀ v ∈ st.values, ∃ x : ℝ, v = number x) :
    DrawsReal st := Sampler.stream_replay h ⟨0, zero_eq⟩

/-- A slanted rectangle with a normal map. -/
noncomputable def mappedRectangle : Shape (Exact z) :=
  placed .rectangle { transform := some (.ofLinear slant 0), normalMap := some (.constant
    ⟨number 1, number 0.5, number 1⟩) }

/-- An instance that mirrors space. -/
noncomputable def mirrored : Binding (Exact z) := { transform := some (.ofLinear mirror 0) }

theorem frames_orthonormal_mirrored :
    let s : Shape (Exact .plus) := placed mappedRectangle mirrored
    let ray : Ray (Exact .plus) := .towardsOrigin ⟨0, 0, 1⟩ 4
    let hit : Hit (Exact .plus) := .unbounded .zero
    let r := mappedRectangle.intersect (mirrored.localRay ray) (mirrored.innerHit ray hit)
    let st : Replay (Exact .plus) := ⟨#[number (1 / 4), number (1 / 2)], 1, 0⟩
    (s.intersect ray hit).1 = true ∧ (s.intersect ray hit).2.surface.frame.IsOrthonormal ∧
      r.2.surface.NormalCarried (.ofLinear mirror 0) (s.intersect ray hit).2.surface ∧
      ∃ p, (s.sampleArea st).1 = .ok p ∧ p.frame.IsOrthonormal := by
  intro s ray hit r st
  have hmirror : ∀ t ∈ (mirrored (z := .plus)).transform, t.IsAffine := by
    rintro t ⟨⟩
    exact Transform.isAffine_ofLinear mirror_spec.1 0
  have hinner : (mappedRectangle (z := .plus)).IsSound := by
    refine .placed ?_ .rectangle
    rintro t ⟨⟩
    exact Transform.isAffine_ofLinear slant_spec.1 0
  have hs : s.IsSound := .placed hmirror hinner
  have hray : ray.IsUnit := Ray.isUnit_towardsOrigin (by norm_num) 4
  have hfound : (s.intersect ray hit).1 = true := by
    refine found_of_stretched mirror_spec.1 one_pos mirror_spec.2 rfl ?_ hit rfl
    refine found_of_stretched slant_spec.1 two_pos slant_spec.2 rfl fun hit ht => ?_
    have hmeets := Rectangle.encounter?_of_center (z := .plus) (d := ⟨0, 0, 1⟩) (a := 4 / 1 / 2)
      one_ne_zero (by norm_num)
    have hnear : ¬hit.t ≤ number (4 / 1 / 2) := by
      rw [ht]
      exact fun h => Scalar.not_lt_of_le h (lt_infinity _)
    rw [Shape.intersect, Rectangle.intersect_eq, hmeets, Encounter.answer, if_neg hnear]
  have hst : DrawsReal st := drawsReal_replay (by simp [st])
  obtain ⟨p, hp⟩ : ∃ p, (s.sampleArea st).1 = .ok p := by
    have hrectangle : ∃ p, ((rectangle : Shape (Exact .plus)).sampleArea st).1 = .ok p := by
      rw [sampleArea]
      exact ⟨_, rfl⟩
    obtain ⟨p, hp⟩ := hrectangle
    exact ⟨_, sampleArea_placed_iff.2 ⟨_, sampleArea_placed_iff.2 ⟨p, hp, rfl, rfl⟩, rfl, rfl⟩⟩
  exact ⟨hfound, (frames_orthonormal.1 s hs).1 ray hit hray hfound,
    ((frames_orthonormal.2 mappedRectangle mirrored hinner hmirror rfl).1 ray hit hray hfound).2,
    p, hp, (frames_orthonormal.1 s hs).2 _ st p hst hp⟩

end Shape

end Radiance
