import Radiance.Proofs.Geometry.Linear
import Radiance.Proofs.Shape.Record

/-!
# Nested instances

An instance inside an instance is one instance under the product of the transforms.  At each level
the ray is brought to unit length, the distance is rescaled and the frame of the surface is made
orthonormal again; in exact arithmetic all of this cancels, also where a transform mirrors space.

## Main definitions

* `Frame.IsRightHanded`: orthonormal axes, the normal being the product of the other two.
* `Surface.IsRegular`: a real position and such a frame.
* `Shape.ReportsFrames`: every hit of a shape along a unit ray is regular.

## Main statements

* `Binding.carryFrame_around`: a frame is carried by the image of its tangent and of its normal.
* `Binding.placeSurface_nested`: a surface carried twice is carried once, by the product.
* `Shape.nested_agrees_product`: nested instances against one instance.
-/

namespace Radiance

open Exact Matrix

variable {z : ZeroSign}

/-! ## Frames -/

namespace Frame

/-- Orthonormal axes, the normal being the product of tangent and bitangent. -/
structure IsRightHanded (f : Frame (Exact z)) : Prop where
  tangent_real : f.tangent.IsReal
  bitangent_real : f.bitangent.IsReal
  tangent_unit : f.tangent.dot f.tangent = 1
  bitangent_unit : f.bitangent.dot f.bitangent = 1
  perpendicular : f.tangent.dot f.bitangent = 0
  normal_eq : f.tangent.cross f.bitangent = f.normal

/-- The frame with a tangent and a normal. -/
def around (t n : Fin 3 → ℝ) : Frame (Exact z) := ⟨.ofCoords t, .ofCoords (n ⨯₃ t), .ofCoords n⟩

/-- The axes of a frame as the rows of a matrix. -/
def axes (t n : Fin 3 → ℝ) : Matrix (Fin 3) (Fin 3) ℝ := .of ![t, n ⨯₃ t, n]

/-- Two perpendicular directions of unit length. -/
structure Perpendicular (t n : Fin 3 → ℝ) : Prop where
  left : t ⬝ᵥ t = 1
  right : n ⬝ᵥ n = 1
  dot : t ⬝ᵥ n = 0

variable {t n : Fin 3 → ℝ}

/-- The tangent with the bitangent gives back the normal. -/
theorem Perpendicular.cross_cross (h : Perpendicular t n) : t ⨯₃ (n ⨯₃ t) = n := by
  rw [cross_cross_eq_smul_sub_smul', h.left, dotProduct_comm n t, h.dot, one_smul, zero_smul,
    sub_zero]

theorem Perpendicular.bitangent_unit (h : Perpendicular t n) : n ⨯₃ t ⬝ᵥ n ⨯₃ t = 1 := by
  rw [cross_dot_cross, h.left, h.right, h.dot, mul_zero, sub_zero, one_mul]

theorem IsRightHanded.exists_around {f : Frame (Exact z)} (hf : f.IsRightHanded) :
    ∃ t n, Perpendicular t n ∧ f = around t n := by
  obtain ⟨tangent, bitangent, normal⟩ := f
  obtain ⟨ht, hb, htt, hbb, htb, hn⟩ := hf
  obtain ⟨t, rfl⟩ : ∃ t, tangent = .ofCoords t := ht.exists_coords
  obtain ⟨b, rfl⟩ : ∃ b, bitangent = .ofCoords b := hb.exists_coords
  simp only [Vec3.dot_ofCoords, Vec3.cross_ofCoords, one_eq, zero_eq, number_inj] at htt hbb htb hn
  refine ⟨t, t ⨯₃ b, ⟨htt, ?_, dot_self_cross t b⟩, ?_⟩
  · rw [cross_dot_cross, htt, hbb, htb, zero_mul, sub_zero, one_mul]
  · have hbitangent : t ⨯₃ b ⨯₃ t = b := by
      rw [cross_cross_eq_smul_sub_smul, htt, dotProduct_comm b t, htb, one_smul, zero_smul,
        sub_zero]
    rw [around, hbitangent, hn]

theorem Perpendicular.isRightHanded (h : Perpendicular t n) :
    (around t n : Frame (Exact z)).IsRightHanded := by
  refine ⟨Vec3.isReal_ofCoords t, Vec3.isReal_ofCoords _, ?_, ?_, ?_, ?_⟩
  · rw [around, Vec3.dot_ofCoords, h.left, one_eq]
  · rw [around, Vec3.dot_ofCoords, h.bitangent_unit, one_eq]
  · rw [around, Vec3.dot_ofCoords, dot_cross_self, zero_eq]
  · rw [around, Vec3.cross_ofCoords, h.cross_cross]

end Frame

/-! ## Carried frames -/

namespace Frame.Perpendicular

variable {t n : Fin 3 → ℝ} {M : Matrix (Fin 3) (Fin 3) ℝ}

theorem left_ne_zero (h : Perpendicular t n) : t ≠ 0 := Coords.ne_zero_of_dotProduct_self h.left

theorem right_ne_zero (h : Perpendicular t n) : n ≠ 0 := Coords.ne_zero_of_dotProduct_self h.right

theorem det_normal_ne_zero (hM : M.det ≠ 0) : (M⁻¹ᵀ).det ≠ 0 := by
  simpa [det_nonsing_inv] using hM

/-- The image of the tangent stays perpendicular to the image of the normal. -/
theorem carry (h : Perpendicular t n) (hM : M.det ≠ 0) :
    Perpendicular (Coords.unit (M *ᵥ t)) (Coords.unit (M⁻¹ᵀ *ᵥ n)) := by
  refine ⟨?_, ?_, ?_⟩
  · exact Coords.unit_dotProduct_unit (Coords.mulVec_ne_zero hM h.left_ne_zero)
  · exact Coords.unit_dotProduct_unit
      (Coords.mulVec_ne_zero (det_normal_ne_zero hM) h.right_ne_zero)
  · have hdot : M *ᵥ t ⬝ᵥ M⁻¹ᵀ *ᵥ n = 0 := by
      rw [dotProduct_comm, Coords.normal_dotProduct_mulVec hM, dotProduct_comm, h.dot]
    rw [Coords.unit, Coords.unit, smul_dotProduct, dotProduct_smul, hdot, smul_zero, smul_zero]

end Frame.Perpendicular

/-- A real position and a right-handed frame. -/
structure Surface.IsRegular (s : Surface (Exact z)) : Prop where
  position : s.position.IsReal
  frame : s.frame.IsRightHanded

namespace Binding

open Radiance.Frame (Perpendicular around)

variable {t n p o q : Fin 3 → ℝ} {M N : Matrix (Fin 3) (Fin 3) ℝ}

/-- The image of the bitangent, turned if space is mirrored, with the unit tangent: the determinant
leaves only its magnitude. -/
theorem cross_turned (h : Perpendicular t n) (hM : M.det ≠ 0) :
    Coords.unit (M *ᵥ t) ⨯₃ (if M.det < 0 then -(M *ᵥ (n ⨯₃ t)) else M *ᵥ (n ⨯₃ t)) =
      ((Coords.length (M *ᵥ t))⁻¹ * |M.det|) • (M⁻¹ᵀ *ᵥ n) := by
  have hcross : Coords.unit (M *ᵥ t) ⨯₃ (M *ᵥ (n ⨯₃ t)) =
      ((Coords.length (M *ᵥ t))⁻¹ * M.det) • (M⁻¹ᵀ *ᵥ n) := by
    rw [Coords.unit, LinearMap.map_smul₂, Coords.cross_mulVec hM, h.cross_cross, smul_smul]
  split
  next hneg => rw [map_neg, hcross, abs_of_neg hneg, mul_neg, neg_smul]
  next hpos => rw [hcross, abs_of_nonneg (not_lt.1 hpos)]

/-- A frame is carried by the images of its tangent and of its normal. -/
theorem carryFrame_around (h : Perpendicular t n) (hM : M.det ≠ 0) :
    carryFrame (.ofLinear M o) (.ofCoords (M *ᵥ t)) (.ofCoords (M *ᵥ (n ⨯₃ t))) =
      (around (Coords.unit (M *ᵥ t)) (Coords.unit (M⁻¹ᵀ *ᵥ n)) : Frame (Exact z)) := by
  have htangent := Coords.mulVec_ne_zero hM h.left_ne_zero
  have hnormal := Coords.mulVec_ne_zero (Perpendicular.det_normal_ne_zero hM) h.right_ne_zero
  have hfactor : 0 < (Coords.length (M *ᵥ t))⁻¹ * |M.det| :=
    mul_pos (inv_pos.2 (Coords.length_pos htangent)) (abs_pos.2 hM)
  have hturned : (if (Transform.ofLinear M o : Transform (Exact z)).determinant < 0
      then -(.ofCoords (M *ᵥ (n ⨯₃ t)) : Vec3 (Exact z)) else .ofCoords (M *ᵥ (n ⨯₃ t))) =
      .ofCoords (if M.det < 0 then -(M *ᵥ (n ⨯₃ t)) else M *ᵥ (n ⨯₃ t)) := by
    simp only [Transform.determinant_ofLinear, zero_eq, number_lt, Vec3.neg_ofCoords]
    split <;> rfl
  simp only [carryFrame, hturned, Vec3.normalize_ofCoords htangent, Vec3.cross_ofCoords,
    cross_turned h hM]
  rw [Vec3.normalize_ofCoords (smul_ne_zero hfactor.ne' hnormal), Coords.unit_smul hfactor,
    Vec3.cross_ofCoords]
  rfl

/-- The factor by which area grows. -/
theorem area_around (h : Perpendicular t n) (hM : M.det ≠ 0) :
    ((.ofCoords (M *ᵥ t) : Vec3 (Exact z)).cross (.ofCoords (M *ᵥ (n ⨯₃ t)))).length =
      number (|M.det| * Coords.length (M⁻¹ᵀ *ᵥ n)) := by
  rw [Vec3.cross_ofCoords, Coords.cross_mulVec hM, h.cross_cross, Vec3.length_ofCoords,
    Coords.length_smul]

variable {b : Binding (Exact z)} {s : Surface (Exact z)}

/-- What an affine transform without a normal map does to a regular point. -/
theorem placeSurface_around (hb : b.transform = some (.ofLinear M o)) (hmap : b.normalMap = none)
    (h : Perpendicular t n) (hM : M.det ≠ 0) (hp : s.position = .ofCoords p)
    (hf : s.frame = around t n) :
    b.placeSurface s =
      ({ s with
          position := .ofCoords (M *ᵥ p + o)
          frame := around (Coords.unit (M *ᵥ t)) (Coords.unit (M⁻¹ᵀ *ᵥ n)) },
        number (|M.det| * Coords.length (M⁻¹ᵀ *ᵥ n))) := by
  simp only [placeSurface, applyNormalMap, hb, hmap, hf, hp, around, Transform.applyVector_ofLinear,
    Transform.applyPoint_ofLinear, area_around h hM, carryFrame_around h hM]
  rfl

/-- The instance with the same look under another transform, without a normal map. -/
def placedBy {α : Type} (b : Binding α) (t : Option (Transform α)) : Binding α :=
  { b with transform := t, normalMap := none }

/-- A surface point that two affine transforms carry in turn is carried by their product, and area
grows by the product of the factors, which are both positive. -/
theorem placeSurface_nested {A B : Transform (Exact z)} (hA : A.IsAffine) (hB : B.IsAffine)
    (inner outer joint : Binding (Exact z)) (hs : s.IsRegular) :
    let once := (inner.placedBy (some B)).placeSurface s
    let twice := (outer.placedBy (some A)).placeSurface once.1
    let single := (joint.placedBy (some (.ofMatrix (A.matrix * B.matrix)))).placeSurface s
    twice.1 = single.1 ∧ ∃ x y : ℝ, 0 < x ∧ 0 < y ∧ once.2 = number x ∧ twice.2 = number y ∧
      single.2 = number (x * y) := by
  obtain ⟨M, o, hM, rfl⟩ := hA.exists_ofLinear
  obtain ⟨N, q, hN, rfl⟩ := hB.exists_ofLinear
  obtain ⟨p, hp⟩ := hs.position.exists_coords
  obtain ⟨t, n, h, hf⟩ := hs.frame.exists_around
  have htangent := Coords.mulVec_ne_zero hN h.left_ne_zero
  have hnormal := Coords.mulVec_ne_zero (Perpendicular.det_normal_ne_zero hN) h.right_ne_zero
  have hproduct : (M * N)⁻¹ᵀ = M⁻¹ᵀ * N⁻¹ᵀ := by rw [Matrix.mul_inv_rev, transpose_mul]
  dsimp only
  rw [Transform.mul_ofLinear,
    placeSurface_around (b := inner.placedBy _) rfl rfl h hN hp hf,
    placeSurface_around (b := outer.placedBy _) rfl rfl (h.carry hN) hM rfl rfl,
    placeSurface_around (b := joint.placedBy _) rfl rfl h (Transform.det_mul_ne_zero hM hN) hp hf]
  refine ⟨?_, _, _, ?_, ?_, rfl, rfl, ?_⟩
  · have hposition : M *ᵥ (N *ᵥ p + q) + o = (M * N) *ᵥ p + (M *ᵥ q + o) := by
      rw [mulVec_add, mulVec_mulVec, add_assoc]
    dsimp only
    rw [hposition, Coords.unit_mulVec_unit htangent, Coords.unit_mulVec_unit hnormal, hproduct,
      mulVec_mulVec, mulVec_mulVec]
  · exact mul_pos (abs_pos.2 hN) (Coords.length_pos hnormal)
  · exact mul_pos (abs_pos.2 hM) (Coords.length_pos
      (Coords.mulVec_ne_zero (Perpendicular.det_normal_ne_zero hM) (Coords.unit_ne_zero hnormal)))
  · rw [number_inj, det_mul, abs_mul, hproduct, ← mulVec_mulVec,
      ← Coords.length_mul_length_mulVec_unit hnormal]
    ring

end Binding

/-! ## Queries -/

namespace Shape

/-- Every hit of the shape along a ray of unit length is regular. -/
def ReportsFrames (s : Shape (Exact z)) : Prop :=
  ∀ ray hit, ray.IsUnit → (s.intersect ray hit).1 = true →
    (s.intersect ray hit).2.surface.IsRegular

variable {s : Shape (Exact z)} {A B : Transform (Exact z)} {ray : Ray (Exact z)}

theorem intersect_nested (hs : s.ReportsFrames) (hA : A.IsAffine) (hB : B.IsAffine)
    (inner outer joint : Binding (Exact z)) (hray : ray.IsProper) (hit : Hit (Exact z)) :
    let x := (placed (placed s (inner.placedBy (some B))) (outer.placedBy (some A))).intersect
      ray hit
    let y := (placed s (joint.placedBy (some (.ofMatrix (A.matrix * B.matrix))))).intersect ray hit
    x.1 = y.1 ∧ x.2.t = y.2.t ∧ x.2.surface = y.2.surface := by
  have hlocal := hA.localRay_mul hB hray
  have hscale := hA.rayScale_mul hB hray
  obtain ⟨a, ha, hAscale⟩ := hA.exists_rayScale hray
  obtain ⟨b, hb, hBscale⟩ := hB.exists_rayScale (hA.isUnit_localRay hray).isProper
  have hunit := hB.isUnit_localRay (hA.isUnit_localRay hray).isProper
  rw [hAscale, hBscale, number_mul] at hscale
  simp only [Shape.intersect]
  rw [Binding.intersect_of_some _ _ _ rfl, Binding.intersect_of_some _ _ _ rfl,
    Binding.intersect_of_some _ _ _ rfl, hlocal, hscale, hAscale, hBscale, mul_number_mul_number]
  have hregular := hs (B.localRay (A.localRay ray))
    { hit with binding := none, t := hit.t * number (a * b) } hunit
  generalize s.intersect (B.localRay (A.localRay ray))
    { hit with binding := none, t := hit.t * number (a * b) } = r at hregular
  obtain ⟨found, after⟩ := r
  cases found with
  | false => exact ⟨rfl, rfl, rfl⟩
  | true =>
    have hsurface := (Binding.placeSurface_nested hA hB inner outer joint (hregular rfl)).1
    have hdistance : after.t / number b / number a = after.t / number (a * b) := by
      rw [div_number_div_number _ hb.ne' ha.ne', mul_comm]
    simp [Binding.claim_eq, hsurface, hdistance]

/-- The identity leaves a regular point as it is. -/
theorem placeSurface_identity {b : Binding (Exact z)} {p : Surface (Exact z)} (hp : p.IsRegular)
    (hb : b.transform = some .identity) (hmap : b.normalMap = none) :
    b.placeSurface p = (p, 1) := by
  obtain ⟨x, hx⟩ := hp.position.exists_coords
  obtain ⟨t, n, h, hf⟩ := hp.frame.exists_around
  rw [Transform.identity_eq_ofLinear] at hb
  rw [Binding.placeSurface_around hb hmap h (by simp) hx hf]
  simp [Coords.unit_eq_self h.left, Coords.unit_eq_self h.right, Coords.length, h.right, ← hf, ← hx]

/-- The identity gives the same record as no transform, except that each shows its own instance. -/
theorem intersect_identity (hs : s.ReportsFrames) (b : Binding (Exact z)) (hray : ray.IsUnit)
    (hit : Hit (Exact z)) :
    let x := (placed s (b.placedBy (some .identity))).intersect ray hit
    let y := (placed s (b.placedBy none)).intersect ray hit
    x.1 = y.1 ∧ x.2 = { y.2 with binding := x.2.binding } ∧
      (x.2.binding = y.2.binding ∨ x.2.binding = some (b.placedBy (some .identity)) ∧
        y.2.binding = some (b.placedBy none)) := by
  obtain ⟨hlocal, hscale⟩ := Transform.localRay_identity hray
  simp only [Shape.intersect]
  rw [Binding.intersect_of_some _ _ _ rfl, Binding.intersect_of_none _ _ _ rfl, hlocal, hscale,
    Exact.mul_comm, Exact.one_mul]
  have hregular := hs ray { hit with binding := none } hray
  have hkept := s.kept_intersect ray { hit with binding := none }
  generalize s.intersect ray { hit with binding := none } = r at hregular hkept
  obtain ⟨found, after⟩ := r
  cases found with
  | false =>
    have hafter : after = _ := hkept.miss rfl
    refine ⟨rfl, ?_, .inl rfl⟩
    rw [hafter]
    rfl
  | true =>
    have hplaced := placeSurface_identity (b := b.placedBy (some .identity)) (hregular rfl) rfl rfl
    have hlook : (b.placedBy (some .identity)).hasMaterial = (b.placedBy none).hasMaterial := rfl
    simp only [if_true]
    rw [hplaced, Exact.div_one, Binding.claim_eq, Binding.claim_eq, hlook]
    refine ⟨trivial, rfl, ?_⟩
    dsimp only
    split
    · exact .inr ⟨rfl, rfl⟩
    · exact .inl rfl

/-! ## Random points -/

/-- A random point in the space of an instance, with its density there. -/
noncomputable def placeSample (b : Binding (Exact z)) (p : Surface (Exact z)) : Surface (Exact z) :=
  let q := b.placeSurface p
  if 0 < q.2 then { q.1 with pdf := q.1.pdf / q.2 } else q.1

variable {σ : Type} [Sampler σ (Exact z)]

theorem sampleArea_placed {b : Binding (Exact z)} (hmap : b.normalMap = none) (st : σ) :
    (placed s b).sampleArea st =
      ((s.sampleArea st).1.map (placeSample b), (s.sampleArea st).2) := by
  have hmaps (uv : Vec2 (Exact z)) : b.mapsAt uv = true := by simp [Binding.mapsAt, hmap]
  rw [sampleArea]
  change (Except.bind (s.sampleArea st).1 _, (s.sampleArea st).2) = _
  congr 1
  cases (s.sampleArea st).1 with
  | error e => rfl
  | ok p =>
    change (if !b.mapsAt p.uv then _ else _) = _
    rw [hmaps]
    rfl

theorem placeSurface_pdf {b : Binding (Exact z)} (hmap : b.normalMap = none)
    (p : Surface (Exact z)) (d : Exact z) :
    b.placeSurface { p with pdf := d } =
      ({ (b.placeSurface p).1 with pdf := d }, (b.placeSurface p).2) := by
  simp only [Binding.placeSurface, Binding.applyNormalMap, hmap]
  split <;> rfl

theorem placeSample_eq {b : Binding (Exact z)} {p : Surface (Exact z)} {w : ℝ}
    (hmap : b.normalMap = none) (hw : 0 < w) (harea : (b.placeSurface p).2 = number w) :
    placeSample b p = { (b.placeSurface p).1 with pdf := p.pdf / number w } := by
  have hpdf : (b.placeSurface p).1.pdf = p.pdf :=
    congrArg (fun r => r.1.pdf) (placeSurface_pdf hmap p p.pdf)
  have hpos : (0 : Exact z) < number w := by simpa using hw
  rw [placeSample, harea, if_pos hpos, hpdf]

theorem sampleArea_nested {st : σ} (hs : ∀ p, (s.sampleArea st).1 = .ok p → p.IsRegular)
    (hA : A.IsAffine) (hB : B.IsAffine) (inner outer joint : Binding (Exact z)) :
    (placed (placed s (inner.placedBy (some B))) (outer.placedBy (some A))).sampleArea st =
      (placed s (joint.placedBy (some (.ofMatrix (A.matrix * B.matrix))))).sampleArea st := by
  rw [sampleArea_placed rfl, sampleArea_placed rfl, sampleArea_placed rfl]
  dsimp only
  congr 1
  cases hp : (s.sampleArea st).1 with
  | error e => rfl
  | ok p =>
    obtain ⟨hsurface, x, y, hx, hy, hinner, houter, hjoint⟩ :=
      Binding.placeSurface_nested hA hB inner outer joint (hs p hp)
    refine congrArg Except.ok ?_
    rw [placeSample_eq rfl hx hinner, placeSample_eq rfl (mul_pos hx hy) hjoint,
      placeSample_eq rfl hy (by rw [placeSurface_pdf rfl]; exact houter), placeSurface_pdf rfl,
      hsurface, div_number_div_number _ hx.ne' hy.ne']

theorem sampleArea_identity {st : σ} (hs : ∀ p, (s.sampleArea st).1 = .ok p → p.IsRegular)
    (b : Binding (Exact z)) :
    (placed s (b.placedBy (some .identity))).sampleArea st =
      (placed s (b.placedBy none)).sampleArea st := by
  rw [sampleArea_placed rfl, sampleArea_placed rfl]
  congr 1
  cases hp : (s.sampleArea st).1 with
  | error e => rfl
  | ok p =>
    refine congrArg Except.ok ?_
    rw [placeSample, placeSample, placeSurface_identity (hs p hp) rfl rfl]
    rfl

/-! ## Nested instances -/

/-- Instances without normal maps compose: of a shape with right-handed orthonormal frames, an
instance in an instance shows the hits of one instance under the product of the transforms, for
every record, and has the same random points.  The identity is as good as no transform. -/
theorem nested_agrees_product (hs : s.ReportsFrames) (hA : A.IsAffine) (hB : B.IsAffine)
    (inner outer joint : Binding (Exact z)) :
    let nested := placed (placed s (inner.placedBy (some B))) (outer.placedBy (some A))
    let single := placed s (joint.placedBy (some (.ofMatrix (A.matrix * B.matrix))))
    let unmoved := placed s (joint.placedBy (some .identity))
    let bare := placed s (joint.placedBy none)
    (∀ ray hit, ray.IsProper →
      (nested.intersect ray hit).1 = (single.intersect ray hit).1 ∧
        (nested.intersect ray hit).2.t = (single.intersect ray hit).2.t ∧
        (nested.intersect ray hit).2.surface = (single.intersect ray hit).2.surface) ∧
    (∀ ray hit, ray.IsUnit →
      let x := unmoved.intersect ray hit
      let y := bare.intersect ray hit
      x.1 = y.1 ∧ x.2 = { y.2 with binding := x.2.binding } ∧
        (x.2.binding = y.2.binding ∨ x.2.binding = some (joint.placedBy (some .identity)) ∧
          y.2.binding = some (joint.placedBy none))) ∧
    ∀ (τ : Type) [Sampler τ (Exact z)] (st : τ),
      (∀ p, (s.sampleArea st).1 = .ok p → p.IsRegular) →
      nested.sampleArea st = single.sampleArea st ∧ unmoved.sampleArea st = bare.sampleArea st := by
  refine ⟨fun ray hit hray => ?_, fun ray hit hray => ?_, fun τ _ st hst => ⟨?_, ?_⟩⟩
  · exact intersect_nested hs hA hB inner outer joint hray hit
  · exact intersect_identity hs joint hray hit
  · exact sampleArea_nested hst hA hB inner outer joint
  · exact sampleArea_identity hst joint

/-! ### A mirrored and sheared rectangle -/

theorem isRegular_surfaceAt (x y : ℝ) :
    (Rectangle.surfaceAt (number x) (number y) : Surface (Exact z)).IsRegular := by
  refine ⟨⟨x, y, 0, by simp [Rectangle.surfaceAt]⟩, ?_⟩
  have hstandard : (Frame.standard : Frame (Exact z)) = .around ![1, 0, 0] ![0, 0, 1] := by
    simp [Frame.standard, Frame.around, Vec3.ofCoords, Vec3.unitX, Vec3.unitY, Vec3.unitZ,
      cross_apply]
  have hperpendicular : Frame.Perpendicular ![1, 0, 0] ![0, 0, 1] := by
    constructor <;> simp [dotProduct, Fin.sum_univ_three]
  change Frame.IsRightHanded Frame.standard
  rw [hstandard]
  exact hperpendicular.isRightHanded

theorem reportsFrames_rectangle : (rectangle : Shape (Exact z)).ReportsFrames := by
  intro ray hit hray
  rw [Shape.intersect, Rectangle.intersect_eq]
  unfold Encounter.answer
  split
  · intro h
    cases h
  next e he =>
    obtain ⟨x, -, -, -, -, hsurface⟩ := Rectangle.encounter?_spec hray.toIsReal he
    obtain ⟨a, b, c, hpoint⟩ := hray.toIsReal.pointAt x
    rw [hpoint] at hsurface
    split
    · intro h
      cases h
    · intro _
      rw [hsurface]
      exact isRegular_surfaceAt a b

/-- A ray aimed at the origin along an axis that a matrix only stretches. -/
theorem localRay_of_stretched {M : Matrix (Fin 3) (Fin 3) ℝ} {c : ℝ} (hM : M.det ≠ 0) (hc : 0 < c)
    (haxis : M *ᵥ ![0, 0, 1] = c • ![0, 0, 1]) (a : ℝ) :
    (Transform.ofLinear M 0 : Transform (Exact z)).localRay (.towardsOrigin ⟨0, 0, 1⟩ a) =
      .towardsOrigin ⟨0, 0, 1⟩ (a / c) := by
  have hcoords (a : ℝ) : (.towardsOrigin ⟨0, 0, 1⟩ a : Ray (Exact z)) =
      ⟨.ofCoords ((-a) • ![0, 0, 1]), .ofCoords ![0, 0, 1], 0⟩ := by
    simp [Ray.towardsOrigin, Vec3.ofReal, Vec3.ofCoords]
  have hinverse : M⁻¹ *ᵥ ![0, 0, 1] = c⁻¹ • ![0, 0, 1] := by
    have himage : M *ᵥ (c⁻¹ • ![0, 0, 1]) = ![0, 0, 1] := by
      rw [mulVec_smul, haxis, smul_smul, inv_mul_cancel₀ hc.ne', one_smul]
    rw [← himage, mulVec_mulVec, nonsing_inv_mul _ hM.isUnit, one_mulVec, himage]
  have hunit : Coords.unit ![0, 0, 1] = ![0, 0, 1] :=
    Coords.unit_eq_self (by simp [dotProduct, Fin.sum_univ_three])
  rw [hcoords, hcoords, Transform.localRay_ofLinear hM (by simp), sub_zero, mulVec_smul, hinverse,
    Coords.unit_smul (inv_pos.2 hc), hunit, smul_smul, neg_mul, div_eq_mul_inv]

/-- Turns the first axis around. -/
def mirror : Matrix (Fin 3) (Fin 3) ℝ := !![-1, 0, 0; 0, 1, 0; 0, 0, 1]

/-- Slants the second axis and stretches the third. -/
def slant : Matrix (Fin 3) (Fin 3) ℝ := !![1, 1, 0; 0, 1, 0; 0, 0, 2]

theorem mirror_spec : mirror.det ≠ 0 ∧ mirror *ᵥ ![0, 0, 1] = (1 : ℝ) • ![0, 0, 1] := by
  refine ⟨by simp [mirror, det_fin_three], ?_⟩
  ext i
  fin_cases i <;> simp [mirror, mulVec, dotProduct, Fin.sum_univ_three]

theorem slant_spec : slant.det ≠ 0 ∧ slant *ᵥ ![0, 0, 1] = (2 : ℝ) • ![0, 0, 1] := by
  refine ⟨by simp [slant, det_fin_three], ?_⟩
  ext i
  fin_cases i <;> simp [slant, mulVec, dotProduct, Fin.sum_univ_three]

/-- A slanted rectangle is mirrored, hit by a ray and sampled. -/
theorem nested_agrees_product_rectangle :
    let A : Transform (Exact .plus) := .ofLinear mirror 0
    let B : Transform (Exact .plus) := .ofLinear slant 0
    let nested := placed (placed .rectangle (Binding.placedBy {} (some B)))
      (Binding.placedBy {} (some A))
    let single := placed .rectangle (Binding.placedBy {} (some (.ofMatrix (A.matrix * B.matrix))))
    let ray : Ray (Exact .plus) := .towardsOrigin ⟨0, 0, 1⟩ 4
    let st : Replay (Exact .plus) := ⟨#[number (1 / 4), number (1 / 2)], 1, 0⟩
    (single.intersect ray (.unbounded .zero)).1 = true ∧
      (nested.intersect ray (.unbounded .zero)).2.surface =
        (single.intersect ray (.unbounded .zero)).2.surface ∧
      nested.sampleArea st = single.sampleArea st := by
  intro A B nested single ray st
  have hA : A.IsAffine := Transform.isAffine_ofLinear mirror_spec.1 0
  have hB : B.IsAffine := Transform.isAffine_ofLinear slant_spec.1 0
  have hray : ray.IsUnit := Ray.isUnit_towardsOrigin (by norm_num) 4
  have hproduct := nested_agrees_product reportsFrames_rectangle hA hB {} {} {}
  refine ⟨?_, (hproduct.1 ray _ hray.isProper).2.2, (hproduct.2.2 _ st fun p hp => ?_).1⟩
  · have hmeets := Rectangle.encounter?_of_center (z := .plus) (d := ⟨0, 0, 1⟩) (a := 4 / 1 / 2)
      one_ne_zero (by norm_num)
    have hlocal : (Transform.ofMatrix (A.matrix * B.matrix)).localRay ray =
        .towardsOrigin ⟨0, 0, 1⟩ (4 / 1 / 2) := by
      rw [hA.localRay_mul hB hray.isProper,
        localRay_of_stretched mirror_spec.1 one_pos mirror_spec.2,
        localRay_of_stretched slant_spec.1 two_pos slant_spec.2]
    obtain ⟨w, hw, hscale⟩ : ∃ w : ℝ, 0 < w ∧
        (Transform.ofMatrix (A.matrix * B.matrix)).rayScale ray = number w := by
      obtain ⟨a, ha, hAscale⟩ := hA.exists_rayScale hray.isProper
      obtain ⟨b, hb, hBscale⟩ := hB.exists_rayScale (hA.isUnit_localRay hray.isProper).isProper
      rw [hA.rayScale_mul hB hray.isProper, hAscale, hBscale]
      exact ⟨a * b, mul_pos ha hb, rfl⟩
    have hnear : ¬(Hit.unbounded .zero : Hit (Exact .plus)).t * number w ≤ number (4 / 1 / 2) := by
      change ¬infinityTimes w ≤ _
      rw [infinityTimes, if_pos hw]
      exact fun h => Scalar.not_lt_of_le h (lt_infinity _)
    rw [Shape.intersect, Binding.intersect_of_some _ _ _ rfl, hlocal, hscale]
    simp only [Shape.intersect, Rectangle.intersect_eq, hmeets, Encounter.answer, hnear, if_false,
      if_true]
  · rw [sampleArea] at hp
    obtain rfl : Rectangle.surfaceAt (2 * number (1 / 4) - 1) (2 * number (1 / 2) - 1) = p :=
      Except.ok.inj hp
    rw [one_eq, ofNat_eq, number_mul, number_mul, number_sub, number_sub]
    exact isRegular_surfaceAt _ _

end Shape

end Radiance
