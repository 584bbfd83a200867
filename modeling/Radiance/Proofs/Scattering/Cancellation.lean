import Radiance.Proofs.Scattering.Normals

/-!
# Weights of rough surfaces

A rough surface draws a visible normal and takes the direction that a mirror or an interface with
this normal leads to.  The weight of the sample is the value for the direction over its density,
which is that of the normal times the change from normals to directions.  In exact arithmetic all of
it cancels but one masking term, on both sides of the surface.

## Main statements

* `Lobe.mirror_eq_pdf_smul`: the terms of a rough mirror as a density times a weight.
* `Vec3.normalize?_reflect_add`, `Bsdf.halfVector?_refracted`: the normal is found again from the
  two directions.
* `Bsdf.roughConductor_weight_eq_value_div_pdf`: rough metal, for all normals and for what is
  sampled.
* `Bsdf.roughDielectric_value_eq_pdf_smul_weight`: frosted glass, reflected and refracted.
-/

namespace Radiance

open Exact Matrix

variable {z : ZeroSign}

/-! ## Real factors of colors -/

namespace Vec3

variable (c : Color (Exact z))

theorem number_smul_smul (a b : ℝ) :
    ((number a : Exact z) • ((number b : Exact z) • c : Color (Exact z)) : Color (Exact z)) =
      (number (a * b) : Exact z) • c :=
  Vec3.ext (number_mul_number_mul a b c.x).symm (number_mul_number_mul a b c.y).symm
    (number_mul_number_mul a b c.z).symm

theorem number_smul_div (a : ℝ) {b : ℝ} (hb : b ≠ 0) :
    (((number a : Exact z) • c : Color (Exact z)) / (number b : Exact z) : Color (Exact z)) =
      (number (a / b) : Exact z) • c := by
  have hchannel (x : Exact z) : number a * x / number b = number (a / b) * x := by
    rw [div_def, inv_number b hb, Exact.mul_comm, ← number_mul_number_mul, div_eq_inv_mul]
  exact Vec3.ext (hchannel c.x) (hchannel c.y) (hchannel c.z)

theorem number_one_smul : ((number 1 : Exact z) • c : Color (Exact z)) = c := by
  rw [← one_eq]
  exact Vec3.ext (Exact.one_mul _) (Exact.one_mul _) (Exact.one_mul _)

variable {c}

/-- Dividing by a real factor that is not zero takes it off. -/
theorem eq_div_of_eq_smul {d : Color (Exact z)} {p : Exact z} (hp : p.IsPos) (h : d = p • c) :
    c = d / p := by
  obtain ⟨x, hx, rfl⟩ := hp
  rw [h, number_smul_div _ _ hx.ne', div_self hx.ne', number_one_smul]

/-! ## Half vectors -/

/-- The unit vector of a positive multiple. -/
theorem normalize?_smul {n : Fin 3 → ℝ} (hn : n ⬝ᵥ n = 1) {s : ℝ} (hs : 0 < s) :
    (ofCoords (s • n) : Vec3 (Exact z)).normalize? = some (ofCoords n) := by
  rw [normalize?_ofCoords (smul_ne_zero hs.ne' (Coords.ne_zero_of_dotProduct_self hn)),
    Coords.unit_smul hs, Coords.unit_eq_self hn]

/-- The half vector of a direction and its mirror image is the normal of the mirror. -/
theorem normalize?_reflect_add {o h : Fin 3 → ℝ} (hh : h ⬝ᵥ h = 1) (hfacing : 0 < h ⬝ᵥ o) :
    ((ofCoords o).reflect (ofCoords h) + ofCoords o : Vec3 (Exact z)).normalize? =
      some (ofCoords h) := by
  rw [reflect_ofCoords, add_ofCoords, Coords.reflected_add_self]
  exact normalize?_smul hh (by linarith)

end Vec3

/-! ## Densities -/

namespace Microfacet

variable {alpha : Exact z} {o h : Fin 3 → ℝ}

/-- From its own side a mirror is seen. -/
theorem isPos_masking (halpha : alpha.IsReal) {w : Fin 3 → ℝ} (hseen : 0 < w ⬝ᵥ h * w 2 * h 2) :
    (masking alpha (.ofCoords h) (.ofCoords w)).IsPos := by
  have hhidden : ¬(Vec3.ofCoords w : Vec3 (Exact z)).dot (.ofCoords h) *
      Local.cosTheta (.ofCoords w) * Local.cosTheta (.ofCoords h) ≤ 0 := by
    rw [Vec3.dot_ofCoords]
    simpa [Local.cosTheta, Vec3.ofCoords] using hseen
  have hw : w 2 ≠ 0 := by
    intro hzero
    rw [hzero, mul_zero, zero_mul] at hseen
    exact lt_irrefl 0 hseen
  rw [masking, if_neg hhidden]
  split
  · exact isPos_one
  · have htan : (Local.tanTheta2 (Vec3.ofCoords w : Vec3 (Exact z))).IsNonneg :=
      (isNonneg_sinTheta2 ⟨w 2, rfl⟩).div ⟨w 2 * w 2, mul_self_pos.2 hw, number_mul _ _⟩
    have hroot := (isPos_one.add (halpha.sqr.mul htan)).isNonneg.sqrt
    exact IsPos.div ⟨2, two_pos, ofNat_eq 2⟩ (isPos_one.add hroot)

/-- Nothing is seen from within the surface. -/
theorem masking_of_grazing {w : Fin 3 → ℝ} (hw : w 2 = 0) :
    masking alpha (.ofCoords h) (.ofCoords w) = 0 := by
  refine if_pos ?_
  rw [Vec3.dot_ofCoords]
  simp [Local.cosTheta, Vec3.ofCoords, hw]

theorem visiblePdf_eq {d g : ℝ} (ho : o 2 ≠ 0)
    (hdensity : density alpha (.ofCoords h) = number d)
    (hmasking : masking alpha (.ofCoords h) (.ofCoords o) = number g) :
    visiblePdf alpha (.ofCoords h) (.ofCoords o) =
      (number (d * g * |h ⬝ᵥ o| / |o 2|) : Exact z) := by
  rw [visiblePdf, hdensity, hmasking, Vec3.dot_ofCoords, abs_number, number_mul, number_mul]
  exact number_div _ _ (abs_ne_zero.2 ho)

theorem exists_masking (halpha : alpha.IsPos) (h w : Fin 3 → ℝ) :
    ∃ g : ℝ, masking alpha (.ofCoords h) (.ofCoords w) = number g := by
  obtain ⟨g, -, hg⟩ := isNonneg_masking halpha.isNonneg.isReal (Vec3.isReal_ofCoords w)
    (Vec3.isReal_ofCoords h)
  exact ⟨g, hg⟩

/-- The terms of the density of a normal. -/
theorem exists_visiblePdf (halpha : alpha.IsPos) (ho : o 2 ≠ 0) (hh : h ⬝ᵥ h = 1) :
    ∃ d g : ℝ, density alpha (.ofCoords h) = number d ∧
      masking alpha (.ofCoords h) (.ofCoords o) = number g ∧
      visiblePdf alpha (.ofCoords h) (.ofCoords o) = number (d * g * |h ⬝ᵥ o| / |o 2|) := by
  obtain ⟨d, -, hd⟩ := isPos_density halpha (Coords.ne_zero_of_dotProduct_self hh)
  obtain ⟨g, hg⟩ := exists_masking halpha h o
  exact ⟨d, g, hd, hg, visiblePdf_eq ho hd hg⟩

theorem reflectionJacobian_eq (hfacing : h ⬝ᵥ o ≠ 0) :
    reflectionJacobian (.ofCoords h) (.ofCoords o) = (number (1 / |4 * (h ⬝ᵥ o)|) : Exact z) := by
  rw [reflectionJacobian, Vec3.dot_ofCoords, ofNat_eq 4, number_mul, abs_number, one_eq,
    number_div _ _ (abs_ne_zero.2 (mul_ne_zero four_ne_zero hfacing))]

/-- The density of the direction that a visible normal reflects to. -/
theorem isPos_visiblePdf_mul (halpha : alpha.IsPos)
    (hvisible : IsVisible (.ofCoords o : Vec3 (Exact z)) (.ofCoords h)) :
    (visiblePdf alpha (.ofCoords h) (.ofCoords o) *
      reflectionJacobian (.ofCoords h) (.ofCoords o)).IsPos := by
  obtain ⟨hunit, hside, hfacing⟩ := isVisible_ofCoords.1 hvisible
  have ho : o 2 ≠ 0 := left_ne_zero_of_mul hside.ne'
  obtain ⟨d, hd, hdensity⟩ := isPos_density halpha (Coords.ne_zero_of_dotProduct_self hunit)
  obtain ⟨g, hg, hmasking⟩ := isPos_masking (z := z) (h := h) (w := o) halpha.isNonneg.isReal (by
    rw [mul_assoc, dotProduct_comm]
    exact mul_pos hfacing hside)
  rw [visiblePdf_eq ho hdensity hmasking, reflectionJacobian_eq hfacing.ne', number_mul]
  refine isPos_number ?_
  have hdot := abs_pos.2 hfacing.ne'
  have hcos := abs_pos.2 ho
  have hjacobian := abs_pos.2 (mul_ne_zero four_ne_zero hfacing.ne')
  positivity

end Microfacet

/-! ## Rough mirrors -/

namespace Lobe

open Microfacet

variable {alpha : Exact z} {o h : Fin 3 → ℝ}

/-- The terms of a rough mirror are the density of the mirrored direction, times the masking term
that is left to the weight. -/
theorem mirror_eq_pdf_smul (halpha : alpha.IsPos) (ho : o 2 ≠ 0) (hh : h ⬝ᵥ h = 1)
    (hfacing : h ⬝ᵥ o ≠ 0) (i : Fin 3 → ℝ) (color : Color (Exact z)) :
    (masking alpha (.ofCoords h) (.ofCoords o) • masking alpha (.ofCoords h) (.ofCoords i) •
      density alpha (.ofCoords h) • color) / (4 * Local.absCosTheta (.ofCoords o) : Exact z) =
      (visiblePdf alpha (.ofCoords h) (.ofCoords o) *
        reflectionJacobian (.ofCoords h) (.ofCoords o)) •
        masking alpha (.ofCoords h) (.ofCoords i) • color := by
  obtain ⟨d, g, hd, hg, hpdf⟩ := exists_visiblePdf halpha ho hh
  obtain ⟨k, hk⟩ := exists_masking halpha h i
  have hcos : (4 * Local.absCosTheta (.ofCoords o) : Exact z) = number (4 * |o 2|) := by
    rw [ofNat_eq]
    rfl
  have hpos := abs_ne_zero.2 ho
  have hdot := abs_ne_zero.2 hfacing
  rw [hpdf, reflectionJacobian_eq hfacing, hd, hg, hk, hcos, number_mul, Vec3.number_smul_smul,
    Vec3.number_smul_smul, Vec3.number_smul_smul,
    Vec3.number_smul_div _ _ (mul_ne_zero four_ne_zero hpos)]
  congr 2
  rw [abs_mul, abs_of_pos (by norm_num : (0 : ℝ) < 4)]
  field_simp

/-- The value for a mirrored direction is its density times the weight. -/
theorem evaluateGlossy_reflect (halpha : alpha.IsPos) (hh : h ⬝ᵥ h = 1) (hfacing : 0 < h ⬝ᵥ o)
    (hside : Local.sameHemisphere (.ofCoords o : Vec3 (Exact z))
      ((Vec3.ofCoords o).reflect (.ofCoords h)) = true) (color : Color (Exact z)) :
    evaluateGlossy color alpha (.ofCoords o) ((Vec3.ofCoords o).reflect (.ofCoords h)) =
      (visiblePdf alpha (.ofCoords h) (.ofCoords o) *
        reflectionJacobian (.ofCoords h) (.ofCoords o)) •
        masking alpha (.ofCoords h) ((Vec3.ofCoords o).reflect (.ofCoords h)) • color := by
  rw [evaluateGlossy, if_pos hside, Vec3.normalize?_reflect_add hh hfacing]
  rw [Vec3.reflect_ofCoords] at hside ⊢
  exact mirror_eq_pdf_smul halpha (Local.ne_zero_of_sameHemisphere hside).1 hh hfacing.ne' _ color

/-- About a visible normal the weight is the value over the density. -/
theorem weight_glossyAbout (halpha : alpha.IsPos)
    (hvisible : IsVisible (.ofCoords o : Vec3 (Exact z)) (.ofCoords h)) (color : Color (Exact z)) :
    let sample := glossyAbout color alpha (.ofCoords o) (.ofCoords h)
    sample = .invalid ∨ sample.weight = evaluateGlossy color alpha (.ofCoords o) sample.wi /
      (visiblePdf alpha (.ofCoords h) (.ofCoords o) *
        reflectionJacobian (.ofCoords h) (.ofCoords o)) := by
  obtain ⟨hh, -, hfacing⟩ := isVisible_ofCoords.1 hvisible
  simp only [glossyAbout]
  split
  next hside =>
    exact .inr (Vec3.eq_div_of_eq_smul (isPos_visiblePdf_mul halpha hvisible)
      (evaluateGlossy_reflect halpha hh hfacing hside color))
  next => exact .inl rfl

end Lobe

/-! ## Rough metal -/

namespace Bsdf

open Microfacet

variable {σ : Type} [Sampler σ (Exact z)]

/-- A rough mirror lobe gives the direction that a unit normal facing `wo` reflects to the weight
that its value is the density times, or fails where that direction is on the other side, where the
value is zero.  So rough metal weighs what it samples by the value over the density. -/
theorem roughConductor_weight_eq_value_div_pdf {wo : Vec3 (Exact z)} (hwo : wo.length = 1)
    (hcos : Local.cosTheta wo ≠ 0) :
    (∀ (color : Color (Exact z)) (alpha : Exact z) (wh : Vec3 (Exact z)), alpha.IsPos →
      wh.length = 1 → 0 < wh.dot wo →
      let wi := wo.reflect wh
      let weight := masking alpha wh wi • color
      if Local.sameHemisphere wo wi then
        Lobe.glossyAbout color alpha wo wh = ⟨wi, weight⟩ ∧
          Lobe.evaluateGlossy color alpha wo wi =
            (visiblePdf alpha wh wo * reflectionJacobian wh wo) • weight
      else
        (Lobe.glossyAbout color alpha wo wh).isInvalid = true ∧
          Lobe.evaluateGlossy color alpha wo wi = .zero) ∧
    ∀ (reflectance roughness : Texture (Exact z)) (uv : Vec2 (Exact z)) (s : σ),
      (roughness.scalar uv).IsReal → Sampler.DrawsUnit s →
      let metal : Bsdf (Texture (Exact z)) := .roughConductor reflectance roughness
      let alpha := alphaOfRoughness (roughness.scalar uv)
      let wh := sampleVisible alpha wo (Sampler.next₂ s).1
      let pdf := visiblePdf alpha wh wo * reflectionJacobian wh wo
      let sample := (metal.sample uv wo s).1
      IsVisible wo wh ∧ sample = Lobe.glossyAbout (reflectance.evaluate uv) alpha wo wh ∧
        pdf.IsPos ∧ (sample = .invalid ∨ sample.weight = metal.evaluate uv wo sample.wi / pdf) := by
  obtain ⟨o, -, rfl⟩ := Vec3.exists_coords_of_length hwo
  have ho := Local.cosTheta_ne_zero.1 hcos
  constructor
  · intro color alpha wh halpha hlength hfacing wi weight
    obtain ⟨h, hh, rfl⟩ := Vec3.exists_coords_of_length hlength
    rw [Vec3.dot_ofCoords, zero_eq, number_lt] at hfacing
    split
    next hside =>
      exact ⟨if_pos hside, Lobe.evaluateGlossy_reflect halpha hh hfacing hside color⟩
    next hside =>
      refine ⟨?_, if_neg hside⟩
      rw [Lobe.glossyAbout, if_neg hside]
      exact BsdfSample.isInvalid_invalid
  · intro reflectance roughness uv s hroughness hs metal alpha wh pdf sample
    have halpha : alpha.IsPos := isPos_alphaOfRoughness hroughness
    obtain ⟨hx, hy⟩ := (Sampler.ensures_next₂ s hs).1
    have hvisible : IsVisible (.ofCoords o) wh := isVisible_sampleVisible halpha ho hx hy
    have hsample : sample = Lobe.glossyAbout (reflectance.evaluate uv) alpha (.ofCoords o) wh := rfl
    clear_value wh sample
    obtain ⟨h, -, rfl⟩ := Vec3.exists_coords_of_length hvisible.length_eq
    subst hsample
    exact ⟨hvisible, rfl, isPos_visiblePdf_mul halpha hvisible,
      Lobe.weight_glossyAbout halpha hvisible (reflectance.evaluate uv)⟩

/-- From below, about a normal that reflects to the same side. -/
theorem roughConductor_weight_eq_value_div_pdf_below :
    let wo : Vec3 (Exact .plus) := .ofCoords ![3 / 5, 0, -4 / 5]
    let wh : Vec3 (Exact .plus) := .ofCoords ![0, 3 / 5, -4 / 5]
    let wi : Vec3 (Exact .plus) := .ofCoords ![-3 / 5, 96 / 125, -28 / 125]
    let alpha : Exact .plus := number (1 / 4)
    let s : Replay (Exact .plus) := ⟨#[number (1 / 4), number (1 / 2)], 1, 0⟩
    wo.length = 1 ∧ Local.cosTheta wo ≠ 0 ∧ alpha.IsPos ∧ wh.length = 1 ∧ 0 < wh.dot wo ∧
      Local.sameHemisphere wo wi = true ∧
      Lobe.glossyAbout .one alpha wo wh = ⟨wi, masking alpha wh wi • .one⟩ ∧
      Lobe.evaluateGlossy .one alpha wo wi =
        (visiblePdf alpha wh wo * reflectionJacobian wh wo) •
          (masking alpha wh wi • .one : Color (Exact .plus)) ∧
      Sampler.DrawsUnit s ∧ IsVisible wo (sampleVisible (alphaOfRoughness 1) wo
        (Sampler.next₂ s).1) := by
  intro wo wh wi alpha s
  have hwo : wo.length = 1 := Vec3.length_ofCoords_eq_one (by rw [vec3_dotProduct']; norm_num)
  have hwh : wh.length = 1 := Vec3.length_ofCoords_eq_one (by rw [vec3_dotProduct']; norm_num)
  have hcos : Local.cosTheta wo ≠ 0 := by simp [Local.cosTheta, wo, Vec3.ofCoords]
  have halpha : alpha.IsPos := isPos_number (by norm_num)
  have hdot : ![0, 3 / 5, -4 / 5] ⬝ᵥ ![3 / 5, 0, -4 / 5] = (16 / 25 : ℝ) := by
    rw [vec3_dotProduct']
    norm_num
  have hfacing : 0 < wh.dot wo := by
    rw [Vec3.dot_ofCoords, hdot, zero_eq, number_lt]
    norm_num
  have hwi : wo.reflect wh = wi := by
    rw [Vec3.reflect_ofCoords, Coords.reflected_eq, hdot]
    congr 1
    ext k
    fin_cases k <;> norm_num
  have hside : Local.sameHemisphere wo wi = true := by
    rw [Local.sameHemisphere_ofCoords, decide_eq_true_iff]
    simp only [cons_val]
    norm_num
  have hs : Sampler.DrawsUnit s := Sampler.drawsUnit_pair (by norm_num) (by norm_num) 1 0
  obtain ⟨hlobe, hmetal⟩ :=
    roughConductor_weight_eq_value_div_pdf (σ := Replay (Exact .plus)) hwo hcos
  have habout := hlobe .one alpha wh halpha hwh hfacing
  rw [hwi, if_pos hside] at habout
  have hsampled := hmetal (.constant .one) (.constant .one) .zero s ⟨1, one_eq⟩ hs
  exact ⟨hwo, hcos, halpha, hwh, hfacing, hside, habout.1, habout.2, hs, hsampled.1⟩

/-! ## Frosted glass -/

section Glass

variable {o h : Fin 3 → ℝ} {eta : ℝ}

/-- The normal is found again from a direction and its refracted direction: their sum lies along it,
forwards or backwards, and is turned to the side of the first. -/
theorem halfVector?_refracted (heta : 0 < eta) (hone : eta ≠ 1)
    (hvisible : IsVisible (.ofCoords o : Vec3 (Exact z)) (.ofCoords h))
    (hfar : 0 < Coords.farCosine2 eta (h ⬝ᵥ o))
    (hside : ¬Local.sameHemisphere (.ofCoords o : Vec3 (Exact z))
      (.ofCoords (Coords.refracted o h eta)) = true) :
    halfVector? (number eta) (.ofCoords o) (.ofCoords (Coords.refracted o h eta)) =
      some (.ofCoords h : Vec3 (Exact z)) := by
  obtain ⟨hh, hside', hfacing⟩ := isVisible_ofCoords.1 hvisible
  have hdot : ¬(0 : Exact z) ≤ (Vec3.ofCoords o : Vec3 (Exact z)).dot (.ofCoords h) *
      (Vec3.ofCoords (Coords.refracted o h eta) : Vec3 (Exact z)).dot (.ofCoords h) := by
    rw [Vec3.dot_ofCoords, Vec3.dot_ofCoords, Coords.refracted_dotProduct hh, dotProduct_comm o,
      number_mul, zero_eq, number_le, not_le, mul_neg, neg_lt_zero]
    exact mul_pos hfacing (Real.sqrt_pos.2 hfar)
  rw [halfVector?, if_neg hside, Vec3.smul_ofCoords, Vec3.add_ofCoords,
    Coords.add_smul_refracted heta.ne']
  have hne := Coords.sub_mul_sqrt_farCosine2_ne_zero heta hone hfar.le
  generalize h ⬝ᵥ o - eta * √(Coords.farCosine2 eta (h ⬝ᵥ o)) = s at hne
  obtain hs | hs := lt_or_gt_of_ne hne
  · have hback : (-h) ⬝ᵥ (-h) = 1 := by rw [neg_dotProduct_neg, hh]
    have hturned : (Vec3.ofCoords (-h) : Vec3 (Exact z)).z * Local.cosTheta (.ofCoords o) < 0 := by
      simpa [Vec3.ofCoords, Local.cosTheta, mul_comm] using hside'
    rw [← neg_smul_neg, Vec3.normalize?_smul hback (neg_pos.2 hs)]
    simp only [if_pos hturned, Vec3.neg_ofCoords, neg_neg, if_neg hdot]
  · have hkept : ¬(Vec3.ofCoords h : Vec3 (Exact z)).z * Local.cosTheta (.ofCoords o) < 0 := by
      simpa [Vec3.ofCoords, Local.cosTheta, mul_comm] using hside'.le
    rw [Vec3.normalize?_smul hh hs]
    simp only [if_neg hkept, if_neg hdot]

variable {ior alpha : Exact z} {r t : Color (Exact z)}

theorem not_isGrazing_ofCoords {i : Fin 3 → ℝ} (ho : o 2 ≠ 0) (hi : i 2 ≠ 0) :
    ¬isGrazing (.ofCoords o : Vec3 (Exact z)) (.ofCoords i) = true := by
  simp [isGrazing, Local.cosTheta, Vec3.ofCoords, ho, hi]

/-- The value for a mirrored direction: the density is that of the rough mirror, times the
probability of a reflection. -/
theorem evaluateRoughDielectric_reflect (hior : ior.IsPos) (halpha : alpha.IsPos)
    (hh : h ⬝ᵥ h = 1) (hfacing : 0 < h ⬝ᵥ o)
    (hside : Local.sameHemisphere (.ofCoords o : Vec3 (Exact z))
      ((Vec3.ofCoords o).reflect (.ofCoords h)) = true) :
    evaluateRoughDielectric ior alpha r t (.ofCoords o)
        ((Vec3.ofCoords o).reflect (.ofCoords h)) =
      (Fresnel.dielectric (Local.absCosTheta (.ofCoords o)) (relativeIor ior (.ofCoords o)) *
          visiblePdf alpha (.ofCoords h) (.ofCoords o) *
          reflectionJacobian (.ofCoords h) (.ofCoords o)) •
        masking alpha (.ofCoords h) ((Vec3.ofCoords o).reflect (.ofCoords h)) • r := by
  have hhalf : halfVector? (relativeIor ior (.ofCoords o)) (.ofCoords o)
      ((Vec3.ofCoords o).reflect (.ofCoords h)) = some (.ofCoords h : Vec3 (Exact z)) := by
    rw [halfVector?, if_pos hside]
    exact Vec3.normalize?_reflect_add hh hfacing
  rw [Vec3.reflect_ofCoords] at hside hhalf ⊢
  obtain ⟨ho, hi⟩ := Local.ne_zero_of_sameHemisphere hside
  rw [evaluateRoughDielectric, if_neg (not_isGrazing_ofCoords ho hi)]
  simp only [hhalf, if_pos hside]
  rw [Lobe.mirror_eq_pdf_smul halpha ho hh hfacing.ne']
  obtain ⟨f, -, -, hf⟩ := isFraction_fresnel (isPos_relativeIor hior (.ofCoords o)) o
  obtain ⟨d, g, -, -, hpdf⟩ := exists_visiblePdf halpha ho hh
  obtain ⟨k, hk⟩ := exists_masking halpha h (Coords.reflected o h)
  rw [hf, hk, hpdf, reflectionJacobian_eq hfacing.ne']
  simp only [number_mul, Vec3.number_smul_smul]
  congr 2
  ring

/-- The value for a refracted direction: the density of the normal, times the probability of a
refraction and the change from normals to refracted directions. -/
theorem evaluateRoughDielectric_refract (hior : ior.IsPos) (halpha : alpha.IsPos) (ht : t.IsReal)
    (heta : relativeIor ior (.ofCoords o) = number eta) (hone : eta ≠ 1)
    (hvisible : IsVisible (.ofCoords o : Vec3 (Exact z)) (.ofCoords h))
    (hfar : 0 < Coords.farCosine2 eta (h ⬝ᵥ o))
    (hside : ¬Local.sameHemisphere (.ofCoords o : Vec3 (Exact z))
      (.ofCoords (Coords.refracted o h eta)) = true) :
    let wi : Vec3 (Exact z) := .ofCoords (Coords.refracted o h eta)
    evaluateRoughDielectric ior alpha r t (.ofCoords o) wi =
      ((1 - Fresnel.dielectric (Local.absCosTheta (.ofCoords o)) (number eta)) *
          visiblePdf alpha (.ofCoords h) (.ofCoords o) *
          (Scalar.sqr (number eta) * Scalar.abs (wi.dot (.ofCoords h))) /
            Scalar.sqr ((Vec3.ofCoords o).dot (.ofCoords h) + number eta * wi.dot (.ofCoords h))) •
        ((masking alpha (.ofCoords h) wi • t) / (Scalar.sqr (number eta) : Exact z)) := by
  intro wi
  have hpos := isPos_relativeIor hior (.ofCoords o)
  have hfraction := isFraction_fresnel hpos o
  rw [heta] at hpos hfraction
  obtain ⟨e, he, hnumber⟩ := hpos
  obtain rfl : eta = e := (number_inj _ _).1 hnumber
  obtain ⟨f, -, -, hf⟩ := hfraction
  obtain ⟨hh, hside', hfacing⟩ := isVisible_ofCoords.1 hvisible
  have ho : o 2 ≠ 0 := left_ne_zero_of_mul hside'.ne'
  have hcos : Local.absCosTheta (.ofCoords o : Vec3 (Exact z)) = number |o 2| := rfl
  have hcos' := abs_ne_zero.2 ho
  obtain ⟨d, g, hd, hg, hpdf⟩ := exists_visiblePdf halpha ho hh
  obtain ⟨k, hk⟩ := exists_masking halpha h (Coords.refracted o h eta)
  have hsum : o ⬝ᵥ h + eta * (Coords.refracted o h eta ⬝ᵥ h) ≠ 0 := by
    rw [Coords.refracted_dotProduct hh, dotProduct_comm o, mul_neg, ← sub_eq_add_neg]
    exact Coords.sub_mul_sqrt_farCosine2_ne_zero he hone hfar.le
  by_cases hi : Coords.refracted o h eta 2 = 0
  · -- A direction in the surface has no value, and its masking term is zero.
    have hgrazing : isGrazing (.ofCoords o) wi = true := by
      simp [isGrazing, wi, Local.cosTheta, Vec3.ofCoords, hi]
    obtain ⟨x, y, w, rfl⟩ := ht
    rw [evaluateRoughDielectric, if_pos hgrazing, masking_of_grazing hi, hf, hpdf]
    simp only [wi, Vec3.dot_ofCoords, Scalar.sqr, one_eq, zero_eq, number_mul, number_add,
      number_sub, abs_number, Vec3.zero, Vec3.splat, Vec3.smul_mk, zero_mul,
      Vec3.mk_div_number _ _ _ (mul_self_ne_zero.2 he.ne'),
      number_div _ _ (mul_self_ne_zero.2 hsum), zero_div, mul_zero]
  · rw [evaluateRoughDielectric, if_neg (not_isGrazing_ofCoords ho hi)]
    simp only [heta, wi, halfVector?_refracted he hone hvisible hfar hside, if_neg hside]
    rw [hf, hd, hg, hk, hpdf, hcos]
    simp only [Vec3.dot_ofCoords, Scalar.sqr, one_eq, number_mul, number_add, number_sub,
      abs_number, Vec3.number_smul_smul, number_div _ _ (mul_self_ne_zero.2 hsum),
      Vec3.number_smul_div _ _ (mul_self_ne_zero.2 he.ne'),
      Vec3.number_smul_div _ _ (mul_ne_zero hcos' (mul_self_ne_zero.2 hsum))]
    congr 2
    rw [abs_mul, dotProduct_comm h]
    field_simp

/-- A sample that is reflected and has not failed. -/
theorem roughDielectricSample_of_reflects {u : Exact z} {wo wh : Vec3 (Exact z)}
    (hreflects : reflects ior wo u = true)
    (hvalid : roughDielectricSample ior alpha r t wo u wh ≠ .invalid) :
    Local.sameHemisphere wo (wo.reflect wh) = true ∧
      roughDielectricSample ior alpha r t wo u wh =
        ⟨wo.reflect wh, masking alpha wh (wo.reflect wh) • r⟩ := by
  have hglossy : roughDielectricSample ior alpha r t wo u wh = Lobe.glossyAbout r alpha wo wh :=
    if_pos hreflects
  rw [hglossy, Lobe.glossyAbout] at hvalid ⊢
  split at hvalid
  next hside => exact ⟨hside, if_pos hside⟩
  · exact absurd rfl hvalid

/-- A sample that is refracted and has not failed: the refracted direction is a unit vector as it is
found. -/
theorem roughDielectricSample_of_refracts {u : Exact z}
    (heta : relativeIor ior (.ofCoords o) = number eta) (hpos : 0 < eta) (ho : o ⬝ᵥ o = 1)
    (hh : h ⬝ᵥ h = 1) (hrefracts : ¬reflects ior (.ofCoords o) u = true)
    (hvalid : roughDielectricSample ior alpha r t (.ofCoords o) u (.ofCoords h) ≠ .invalid) :
    let wi : Vec3 (Exact z) := .ofCoords (Coords.refracted o h eta)
    0 ≤ Coords.farCosine2 eta (h ⬝ᵥ o) ∧
      (Vec3.ofCoords o).refract (.ofCoords h) (number eta) = wi ∧
      ¬Local.sameHemisphere (.ofCoords o) wi = true ∧
      roughDielectricSample ior alpha r t (.ofCoords o) u (.ofCoords h) =
        ⟨wi, (masking alpha (.ofCoords h) wi • t) / (Scalar.sqr (number eta) : Exact z)⟩ := by
  intro wi
  simp only [roughDielectricSample, if_neg hrefracts, heta,
    Vec3.refract_ofCoords _ _ hpos.ne'] at hvalid ⊢
  by_cases htotal : Coords.farCosine2 eta (h ⬝ᵥ o) < 0
  · exact absurd (by simp [htotal, Vec3.isZero, Vec3.zero, Vec3.splat]) hvalid
  have hfar := not_lt.1 htotal
  have hunit := Coords.refracted_dotProduct_self ho hh hfar
  simp only [if_neg htotal] at hvalid ⊢
  split at hvalid
  · exact absurd rfl hvalid
  next hrefused =>
    refine ⟨hfar, rfl, fun hside => hrefused (by simp [wi, hside]), ?_⟩
    rw [if_neg hrefused, Vec3.normalize_ofCoords (Coords.ne_zero_of_dotProduct_self hunit),
      Coords.unit_eq_self hunit]

end Glass

/-- Frosted glass weighs the direction that it reflects or refracts to about a visible normal so
that the value for this direction is the weight times its density: the probability of the branch,
the density of the normal, and the change from normals to directions.  The normals that it samples
with are visible. -/
theorem roughDielectric_value_eq_pdf_smul_weight
    {ior reflectance transmittance roughness : Texture (Exact z)} {uv : Vec2 (Exact z)}
    {wo : Vec3 (Exact z)} (hior : (ior.scalar uv).IsPos)
    (hone : relativeIor (ior.scalar uv) wo ≠ 1)
    (ht : (transmittance.evaluate uv).IsReal) (hroughness : (roughness.scalar uv).IsReal)
    (hwo : wo.length = 1) (hcos : Local.cosTheta wo ≠ 0) :
    let glass : Bsdf (Texture (Exact z)) :=
      .roughDielectric ior reflectance transmittance roughness
    let alpha := alphaOfRoughness (roughness.scalar uv)
    let eta := relativeIor (ior.scalar uv) wo
    let F := Fresnel.dielectric (Local.absCosTheta wo) eta
    let about := roughDielectricSample (ior.scalar uv) alpha (reflectance.evaluate uv)
      (transmittance.evaluate uv) wo
    (∀ (choice : Exact z) (wh : Vec3 (Exact z)), IsVisible wo wh → about choice wh ≠ .invalid →
      let sample := about choice wh
      let p := visiblePdf alpha wh wo
      (choice ≤ F → sample.wi = wo.reflect wh ∧
        glass.evaluate uv wo sample.wi = (F * p * reflectionJacobian wh wo) • sample.weight) ∧
      (¬choice ≤ F → sample.wi = wo.refract wh eta ∧ (sample.wi.dot wh ≠ 0 →
        glass.evaluate uv wo sample.wi =
          ((1 - F) * p * (Scalar.sqr eta * Scalar.abs (sample.wi.dot wh)) /
            Scalar.sqr (wo.dot wh + eta * sample.wi.dot wh)) • sample.weight))) ∧
    ∀ s : σ, Sampler.DrawsUnit s →
      let choice := (Sampler.next₁ s).1
      let wh := sampleVisible alpha wo (Sampler.next₂ (Sampler.next₁ s).2).1
      choice.IsDraw ∧ IsVisible wo wh ∧ (glass.sample uv wo s).1 = about choice wh := by
  obtain ⟨o, hunit, rfl⟩ := Vec3.exists_coords_of_length hwo
  have ho := Local.cosTheta_ne_zero.1 hcos
  intro glass alpha eta F about
  have halpha : alpha.IsPos := isPos_alphaOfRoughness hroughness
  constructor
  · intro choice wh hvisible hvalid sample p
    obtain ⟨h, hh, rfl⟩ := Vec3.exists_coords_of_length hvisible.length_eq
    have hfacing := (isVisible_ofCoords.1 hvisible).2.2
    refine ⟨fun hchoice => ?_, fun hchoice => ?_⟩
    · obtain ⟨hside, hsample⟩ := roughDielectricSample_of_reflects
        (decide_eq_true hchoice : reflects _ _ choice = true) hvalid
      simp only [sample, about, hsample, true_and]
      exact evaluateRoughDielectric_reflect hior halpha hh hfacing hside
    · obtain ⟨e, he, heta⟩ := isPos_relativeIor hior (.ofCoords o)
      obtain ⟨hfar, hrefract, hside, hsample⟩ := roughDielectricSample_of_refracts heta he hunit hh
        (fun hreflects => hchoice (of_decide_eq_true hreflects)) hvalid
      simp only [sample, about, F, p, eta, hsample, heta, hrefract, true_and]
      intro hdot
      have hfar : 0 < Coords.farCosine2 e (h ⬝ᵥ o) := by
        refine lt_of_le_of_ne hfar fun hzero => hdot ?_
        rw [Vec3.dot_ofCoords, Coords.refracted_dotProduct hh, ← hzero, Real.sqrt_zero, neg_zero,
          zero_eq]
      have hindex : e ≠ 1 := by
        rintro rfl
        exact hone (heta.trans one_eq.symm)
      exact evaluateRoughDielectric_refract hior halpha ht heta hindex hvisible hfar hside
  · intro s hs choice wh
    obtain ⟨hchoice, hs'⟩ := Sampler.ensures_next₁ s hs
    obtain ⟨hx, hy⟩ := (Sampler.ensures_next₂ _ hs').1
    exact ⟨hchoice, isVisible_sampleVisible halpha ho hx hy, rfl⟩

/-- Under a normal that is tilted against the view, one draw is reflected and one refracted. -/
theorem roughDielectric_value_eq_pdf_smul_weight_tilted :
    let wo : Vec3 (Exact .plus) := .ofCoords ![0, 0, 1]
    let wh : Vec3 (Exact .plus) := .ofCoords ![3 / 5, 0, 4 / 5]
    let ior : Exact .plus := number (39 / 25)
    let alpha : Exact .plus := alphaOfRoughness 1
    let white : Color (Exact .plus) := .one
    let about := roughDielectricSample ior alpha white white wo
    let glass : Bsdf (Texture (Exact .plus)) := .roughDielectric
      (.constant (.splat ior)) (.constant white) (.constant white) (.constant .one)
    let F := Fresnel.dielectric (Local.absCosTheta wo) ior
    let p := visiblePdf alpha wh wo
    let mirrored : BsdfSample (Exact .plus) :=
      ⟨.ofCoords ![24 / 25, 0, 7 / 25], masking alpha wh (.ofCoords ![24 / 25, 0, 7 / 25]) • white⟩
    let passed : BsdfSample (Exact .plus) :=
      ⟨.ofCoords ![-16 / 65, 0, -63 / 65],
        (masking alpha wh (.ofCoords ![-16 / 65, 0, -63 / 65]) • white) / Scalar.sqr ior⟩
    let s : Replay (Exact .plus) := ⟨#[number (1 / 4), number (1 / 2)], 1, 0⟩
    wo.length = 1 ∧ Local.cosTheta wo ≠ 0 ∧ ior.IsPos ∧ relativeIor ior wo ≠ 1 ∧ IsVisible wo wh ∧
      about 0 wh = mirrored ∧ about (number (1 / 2)) wh = passed ∧ passed.wi.dot wh ≠ 0 ∧
      glass.evaluate .zero wo mirrored.wi = (F * p * reflectionJacobian wh wo) • mirrored.weight ∧
      glass.evaluate .zero wo passed.wi =
        ((1 - F) * p * (Scalar.sqr ior * Scalar.abs (passed.wi.dot wh)) /
          Scalar.sqr (wo.dot wh + ior * passed.wi.dot wh)) • passed.weight ∧
      Sampler.DrawsUnit s ∧ IsVisible wo (sampleVisible alpha wo
        (Sampler.next₂ (Sampler.next₁ s).2).1) := by
  intro wo wh ior alpha white about glass F p mirrored passed s
  have ho : ![0, 0, 1] ⬝ᵥ ![0, 0, 1] = (1 : ℝ) := by
    rw [vec3_dotProduct']
    norm_num
  have hh : ![3 / 5, 0, 4 / 5] ⬝ᵥ ![3 / 5, 0, 4 / 5] = (1 : ℝ) := by
    rw [vec3_dotProduct']
    norm_num
  have hdot : ![3 / 5, 0, 4 / 5] ⬝ᵥ ![0, 0, 1] = (4 / 5 : ℝ) := by
    rw [vec3_dotProduct']
    norm_num
  have hwo : wo.length = 1 := Vec3.length_ofCoords_eq_one ho
  have hcos : Local.cosTheta wo ≠ 0 := by simp [Local.cosTheta, wo, Vec3.ofCoords]
  have hior : ior.IsPos := isPos_number (by norm_num)
  have heta : relativeIor ior wo = ior := if_pos (by simp [wo, Local.cosTheta, Vec3.ofCoords])
  have hone : relativeIor ior wo ≠ 1 := by
    rw [heta, one_eq, Ne, number_inj]
    norm_num
  have hvisible : IsVisible wo wh := isVisible_ofCoords.2 ⟨hh, by simp, by rw [hdot]; norm_num⟩
  have hF : F = number (49 / 1024) := by
    have hcosine : Local.absCosTheta wo = 1 := by
      simp [wo, Local.absCosTheta, Vec3.ofCoords]
    simp only [F, hcosine, ior, Fresnel.dielectric_one (show (0 : ℝ) < 39 / 25 by norm_num)]
    norm_num
  have hreflects : (0 : Exact .plus) ≤ F := by
    rw [hF, zero_eq, number_le]
    norm_num
  have hrefracts : ¬number (1 / 2) ≤ F := by
    rw [hF, number_le]
    norm_num
  have hreflected : Coords.reflected ![0, 0, 1] ![3 / 5, 0, 4 / 5] = ![24 / 25, 0, 7 / 25] := by
    rw [Coords.reflected_eq, hdot]
    ext k
    fin_cases k <;> norm_num
  have hfar : Coords.farCosine2 (39 / 25) (4 / 5) = 12 / 13 * (12 / 13) := by
    norm_num [Coords.farCosine2]
  have hrefracted : Coords.refracted ![0, 0, 1] ![3 / 5, 0, 4 / 5] (39 / 25) =
      ![-16 / 65, 0, -63 / 65] := by
    rw [Coords.refracted, hdot, hfar, Real.sqrt_mul_self (by norm_num)]
    ext k
    fin_cases k <;> norm_num
  have hreflect : wo.reflect wh = mirrored.wi := by rw [Vec3.reflect_ofCoords, hreflected]
  have hsame : Local.sameHemisphere wo mirrored.wi = true := by
    rw [Local.sameHemisphere_ofCoords, decide_eq_true_iff]
    simp
  have hmirrored : about 0 wh = mirrored := by
    simp only [about, roughDielectricSample, reflects, heta]
    rw [if_pos (decide_eq_true hreflects), Lobe.glossyAbout, hreflect]
    exact if_pos hsame
  have hunit : ![-16 / 65, 0, -63 / 65] ⬝ᵥ ![-16 / 65, 0, -63 / 65] = (1 : ℝ) := by
    rw [vec3_dotProduct']
    norm_num
  have hrefract : wo.refract wh ior = passed.wi := by
    rw [Vec3.refract_ofCoords _ _ (by norm_num), hdot, hfar, if_neg (by norm_num), hrefracted]
  have hother : (passed.wi.isZero || Local.sameHemisphere wo passed.wi) = false := by
    rw [Local.sameHemisphere_ofCoords, Vec3.isZero]
    simp [passed, Vec3.ofCoords]
  have hpassed : about (number (1 / 2)) wh = passed := by
    simp only [about, roughDielectricSample, reflects, heta]
    rw [if_neg (fun h => hrefracts (of_decide_eq_true h)), hrefract, hother,
      if_neg Bool.false_ne_true, Vec3.normalize_ofCoords (Coords.ne_zero_of_dotProduct_self hunit),
      Coords.unit_eq_self hunit]
  have hthrough : passed.wi.dot wh ≠ 0 := by
    rw [Vec3.dot_ofCoords, vec3_dotProduct', zero_eq, Ne, number_inj]
    norm_num
  have hs : Sampler.DrawsUnit s := Sampler.drawsUnit_pair (by norm_num) (by norm_num) 1 0
  have hvalid {sample : BsdfSample (Exact .plus)} (h : sample.wi.z ≠ 0) : sample ≠ .invalid := by
    rintro rfl
    exact h rfl
  have hkept : about 0 wh ≠ .invalid := by
    rw [hmirrored]
    exact hvalid (by simp [mirrored, Vec3.ofCoords])
  have hkept' : about (number (1 / 2)) wh ≠ .invalid := by
    rw [hpassed]
    exact hvalid (by simp [passed, Vec3.ofCoords])
  obtain ⟨habout, hsampled⟩ := @roughDielectric_value_eq_pdf_smul_weight .plus
    (Replay (Exact .plus)) _ (.constant (.splat ior)) (.constant white) (.constant white)
    (.constant .one) .zero wo hior hone Vec3.isReal_one ⟨1, one_eq⟩ hwo hcos
  -- The textures are constant, so that their values are these numbers by definition.
  have hmirror : glass.evaluate .zero wo (about 0 wh).wi =
      (Fresnel.dielectric (Local.absCosTheta wo) (relativeIor ior wo) * p *
        reflectionJacobian wh wo) • (about 0 wh).weight :=
    ((habout 0 wh hvisible hkept).1 (heta.symm ▸ hreflects)).2
  have hpass (hwh : (about (number (1 / 2)) wh).wi.dot wh ≠ 0) :
      glass.evaluate .zero wo (about (number (1 / 2)) wh).wi =
        ((1 - Fresnel.dielectric (Local.absCosTheta wo) (relativeIor ior wo)) * p *
          (Scalar.sqr (relativeIor ior wo) *
            Scalar.abs ((about (number (1 / 2)) wh).wi.dot wh)) /
          Scalar.sqr (wo.dot wh + relativeIor ior wo * (about (number (1 / 2)) wh).wi.dot wh)) •
            (about (number (1 / 2)) wh).weight :=
    ((habout (number (1 / 2)) wh hvisible hkept').2 (heta.symm ▸ hrefracts)).2 hwh
  rw [hmirrored, heta] at hmirror
  rw [hpassed, heta] at hpass
  exact ⟨hwo, hcos, hior, hone, hvisible, hmirrored, hpassed, hthrough, hmirror, hpass hthrough, hs,
    (hsampled s hs).2.1⟩

end Bsdf

end Radiance
