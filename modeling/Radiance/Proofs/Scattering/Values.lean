import Radiance.Proofs.Scattering.Refraction
import Radiance.Proofs.Scattering.Textures

/-!
# Scattered light is not negative

In exact arithmetic the Fresnel terms lie between zero and one, and the terms for the normals of a
rough surface are not negative.  So no material scatters negative light, whatever two directions it
is asked about: where a divisor could be zero, the material says that it scatters nothing.

## Main definitions

* `Bsdf.IsPhysical`: a material without negative parameters, whose indices of refraction are
  positive and whose principled parameters lie between zero and one.
* `PrincipledLobes.IsPhysical`: what the lobes of a principled material are then.
* `Fresnel.reflectance`: what an interface reflects, for the cosines on its two sides.

## Main statements

* `Fresnel.dielectric_number`, `Fresnel.isFraction_dielectric`, `Fresnel.isFraction_schlick`: the
  Fresnel terms.
* `Microfacet.isPos_density`, `Microfacet.isNonneg_masking`: the terms for the normals.
* `Bsdf.IsPhysical.evaluate`: no material scatters negative light.
-/

namespace Radiance

open Exact Matrix

variable {z : ZeroSign}

/-! ## Fresnel terms -/

namespace Fresnel

theorem isFraction_schlickWeight {c : Exact z} (hc : c.IsReal) : (schlickWeight c).IsFraction := by
  obtain ⟨x, rfl⟩ := hc
  have hclamp : (Scalar.clamp (1 - number x) 0 1 : Exact z).IsFraction := by
    simp only [Scalar.clamp, zero_eq, one_eq, number_sub, number_lt]
    split_ifs with hlow hhigh
    · exact ⟨0, le_rfl, zero_le_one, rfl⟩
    · exact ⟨1, zero_le_one, le_rfl, rfl⟩
    · exact ⟨1 - x, not_lt.1 hlow, not_lt.1 hhigh, rfl⟩
  exact ((hclamp.mul hclamp).mul (hclamp.mul hclamp)).mul hclamp

theorem isFraction_schlick {f₀ c : Exact z} (hf : f₀.IsFraction) (hc : c.IsReal) :
    (schlick f₀ c).IsFraction := by
  obtain ⟨w, hw, hw', hweight⟩ := isFraction_schlickWeight hc
  obtain ⟨x, hx, hx', rfl⟩ := hf
  refine ⟨x + (1 - x) * w, by nlinarith, by nlinarith, ?_⟩
  rw [schlick, hweight, one_eq, number_sub, number_mul, number_add]

/-- The part of the light that an interface reflects, for the cosines on its two sides: the mean of
the two polarizations. -/
noncomputable def reflectance (eta c t : ℝ) : ℝ :=
  let rs := (eta * c - t) / (eta * c + t)
  let rp := (c - eta * t) / (c + eta * t)
  0.5 * (rs * rs + rp * rp)

/-- Where no direction leads to the far side, all light is reflected. -/
theorem dielectric_number {e c : ℝ} (he : 0 < e) (hc : 0 ≤ c) :
    (dielectric (number c) (number e) : Exact z) =
      number (if Coords.farCosine2 e c ≤ 0 then 1
        else reflectance e c √(Coords.farCosine2 e c)) := by
  have hcosine : 1 - 1 / e * (1 / e) * (1 - c * c) = Coords.farCosine2 e c := rfl
  simp only [dielectric, Scalar.sqr, one_eq, zero_eq, number_div _ _ he.ne', number_mul, number_sub,
    number_le, abs_number, abs_of_nonneg hc, hcosine]
  split_ifs with htotal
  · rfl
  · have hfar := not_le.1 htotal
    have ht := Real.sqrt_pos.2 hfar
    have hs : e * c + √(Coords.farCosine2 e c) ≠ 0 :=
      (add_pos_of_nonneg_of_pos (mul_nonneg he.le hc) ht).ne'
    have hp : c + e * √(Coords.farCosine2 e c) ≠ 0 :=
      (add_pos_of_nonneg_of_pos hc (mul_pos he ht)).ne'
    simp only [sqrt_number _ hfar.le, number_mul, number_add, number_sub, number_div _ _ hs,
      number_div _ _ hp, ofScientific_eq, reflectance]

/-- The difference of two lengths is at most their sum. -/
theorem ratio_sqr_le_one {a b : ℝ} (ha : 0 ≤ a) (hb : 0 ≤ b) :
    (a - b) / (a + b) * ((a - b) / (a + b)) ≤ 1 := by
  rw [div_mul_div_comm]
  refine div_le_one_of_le₀ ?_ (mul_self_nonneg _)
  linarith [mul_nonneg ha hb]

theorem reflectance_mem {e c t : ℝ} (he : 0 ≤ e) (hc : 0 ≤ c) (ht : 0 ≤ t) :
    reflectance e c t ∈ Set.Icc 0 1 := by
  have hs := ratio_sqr_le_one (mul_nonneg he hc) ht
  have hp := ratio_sqr_le_one hc (mul_nonneg he ht)
  have hs' := mul_self_nonneg ((e * c - t) / (e * c + t))
  have hp' := mul_self_nonneg ((c - e * t) / (c + e * t))
  constructor <;> simp only [reflectance] <;> linarith

/-- From either side an interface reflects the same part of the light. -/
theorem reflectance_one_div {e : ℝ} (he : e ≠ 0) (c t : ℝ) :
    reflectance (1 / e) t c = reflectance e c t := by
  have hs : (1 / e * t - c) / (1 / e * t + c) = -((e * c - t) / (e * c + t)) := by
    rw [← mul_div_mul_left _ _ he, ← neg_div]
    congr 1 <;> field_simp <;> ring
  have hp : (t - 1 / e * c) / (t + 1 / e * c) = -((c - e * t) / (c + e * t)) := by
    rw [← mul_div_mul_left _ _ he, ← neg_div]
    congr 1 <;> field_simp <;> ring
  simp only [reflectance, hs, hp, neg_mul_neg]

/-- An interface reflects between nothing and all of the light. -/
theorem isFraction_dielectric {c eta : Exact z} (hc : c.IsNonneg) (heta : eta.IsPos) :
    (dielectric c eta).IsFraction := by
  obtain ⟨x, hx, rfl⟩ := hc
  obtain ⟨e, he, rfl⟩ := heta
  rw [dielectric_number he hx]
  split_ifs with htotal
  · exact ⟨1, zero_le_one, le_rfl, rfl⟩
  · obtain ⟨hlow, hhigh⟩ := reflectance_mem he.le hx (Real.sqrt_nonneg _)
    exact ⟨_, hlow, hhigh, rfl⟩

/-- Seen upright, an interface reflects the square of the difference of the indices over their
sum. -/
theorem dielectric_one {e : ℝ} (he : 0 < e) :
    (dielectric 1 (number e) : Exact z) = number ((e - 1) / (e + 1) * ((e - 1) / (e + 1))) := by
  have hfar : Coords.farCosine2 e 1 = 1 := by norm_num [Coords.farCosine2]
  have hswap : (1 - e) / (1 + e) = -((e - 1) / (e + 1)) := by
    rw [← neg_sub, neg_div, add_comm]
  rw [one_eq, dielectric_number he zero_le_one, hfar, if_neg (by norm_num), Real.sqrt_one]
  simp only [reflectance, mul_one, hswap, neg_mul_neg, number_inj]
  ring

end Fresnel

/-! ## Rough surfaces -/

namespace Microfacet

variable {alpha : Exact z} {w wh : Vec3 (Exact z)}

theorem isPos_alphaOfRoughness {r : Exact z} (hr : r.IsReal) : (alphaOfRoughness r).IsPos := by
  obtain ⟨x, rfl⟩ := hr
  refine ⟨max (x * x) 1e-3, lt_max_of_lt_right (by norm_num), ?_⟩
  rw [alphaOfRoughness, Scalar.sqr, number_mul, ofScientific_eq, max_number]

/-- The distribution of normals is positive in every direction. -/
theorem isPos_density (halpha : alpha.IsPos) {u : Fin 3 → ℝ} (hu : u ≠ 0) :
    (density alpha (.ofCoords u)).IsPos := by
  obtain ⟨a, ha, rfl⟩ := halpha
  have hsum : 0 < u 0 / a * (u 0 / a) + u 1 / a * (u 1 / a) + u 2 * u 2 := by
    by_contra hle
    have hx := mul_self_nonneg (u 0 / a)
    have hy := mul_self_nonneg (u 1 / a)
    have hz := mul_self_nonneg (u 2)
    have hx' : u 0 / a = 0 := mul_self_eq_zero.1 (by linarith)
    have hy' : u 1 / a = 0 := mul_self_eq_zero.1 (by linarith)
    have hz' : u 2 = 0 := mul_self_eq_zero.1 (by linarith)
    apply hu
    ext i
    fin_cases i
    · simpa [ha.ne'] using hx'
    · simpa [ha.ne'] using hy'
    · exact hz'
  simp only [density, Vec3.ofCoords, Scalar.sqr, number_div _ _ ha.ne', number_mul, number_add]
  exact isPos_one.div (isPos_pi.mul (isPos_number (mul_pos (mul_pos ha hsum) (mul_pos ha hsum))))

theorem isNonneg_sinTheta2 (hw : w.z.IsReal) : (Local.sinTheta2 w).IsNonneg := by
  obtain ⟨x, hx⟩ := hw
  refine ⟨max (1 - x * x) 0, le_max_right _ _, ?_⟩
  rw [Local.sinTheta2, Local.cosTheta2, hx, Scalar.sqr, number_mul, one_eq, number_sub, zero_eq,
    max_number]

/-- The part of the mirrors that is seen is not negative.  Its divisor is the cosine of the
direction, which is zero only where nothing is seen. -/
theorem isNonneg_masking (halpha : alpha.IsReal) (hw : w.IsReal) (hwh : wh.IsReal) :
    (masking alpha wh w).IsNonneg := by
  obtain ⟨d, hd⟩ := hw.dot hwh
  obtain ⟨x, y, t, rfl⟩ := hw
  obtain ⟨x', y', t', rfl⟩ := hwh
  unfold masking
  split
  · exact isNonneg_zero
  next hhidden =>
    by_cases hfull : 1 ≤ Scalar.abs (Local.cosTheta
      (⟨number x, number y, number t⟩ : Vec3 (Exact z)))
    · rw [if_pos hfull]
      exact isPos_one.isNonneg
    rw [if_neg hfull]
    have ht : t ≠ 0 := by
      rintro rfl
      exact hhidden (by simp [hd, Local.cosTheta])
    have htwo : (2 : Exact z).IsNonneg := ⟨2, zero_le_two, by simp⟩
    have htan : (Local.tanTheta2 (⟨number x, number y, number t⟩ : Vec3 (Exact z))).IsNonneg :=
      (isNonneg_sinTheta2 ⟨t, rfl⟩).div ⟨t * t, mul_self_pos.2 ht, number_mul t t⟩
    have hroot := (isPos_one.add (halpha.sqr.mul htan)).isNonneg.sqrt
    exact htwo.div (isPos_one.add hroot)

end Microfacet

/-! ## Lobes -/

theorem Local.isPos_absCosTheta {w : Vec3 (Exact z)} {x : ℝ} (hw : w.z = number x) (hx : x ≠ 0) :
    (absCosTheta w).IsPos :=
  ⟨|x|, abs_pos.2 hx, by rw [absCosTheta, hw, abs_number]⟩

/-- Directions on the same side of the surface do not lie in it. -/
theorem Local.ne_zero_of_sameHemisphere {o i : Fin 3 → ℝ}
    (h : sameHemisphere (.ofCoords o : Vec3 (Exact z)) (.ofCoords i) = true) :
    o 2 ≠ 0 ∧ i 2 ≠ 0 := by
  refine ⟨fun hzero => ?_, fun hzero => ?_⟩
  · simp [sameHemisphere, Vec3.ofCoords, hzero] at h
  · simp [sameHemisphere, Vec3.ofCoords, hzero] at h

namespace Lobe

variable {color : Color (Exact z)} {alpha : Exact z} {o i : Fin 3 → ℝ}

theorem isNonneg_evaluateDiffuse (hcolor : color.IsNonneg) (i : Fin 3 → ℝ) :
    (evaluateDiffuse color (.ofCoords i)).IsNonneg :=
  .smul isPos_invPi.isNonneg (.smul (isReal_number _).abs hcolor)

/-- The terms of a rough mirror for the normal half way between two directions. -/
theorem isNonneg_mirror (hcolor : color.IsNonneg) (halpha : alpha.IsPos) (ho : o 2 ≠ 0)
    (i : Fin 3 → ℝ) {h : Fin 3 → ℝ} (hh : h ≠ 0) :
    ((Microfacet.masking alpha (.ofCoords h) (.ofCoords o) •
      Microfacet.masking alpha (.ofCoords h) (.ofCoords i) •
      Microfacet.density alpha (.ofCoords h) • color) /
        (4 * Local.absCosTheta (.ofCoords o) : Exact z)).IsNonneg := by
  have hmask (w : Fin 3 → ℝ) := Microfacet.isNonneg_masking halpha.isNonneg.isReal
    (Vec3.isReal_ofCoords w) (Vec3.isReal_ofCoords h)
  have hfour : (4 : Exact z).IsPos := ⟨4, by norm_num, by simp⟩
  refine .div (.smul (hmask o) (.smul (hmask i) (.smul ?_ hcolor))) ?_
  · exact (Microfacet.isPos_density halpha hh).isNonneg
  · exact hfour.mul (Local.isPos_absCosTheta rfl ho)

theorem isNonneg_evaluateGlossy (hcolor : color.IsNonneg) (halpha : alpha.IsPos) :
    (evaluateGlossy color alpha (.ofCoords o) (.ofCoords i)).IsNonneg := by
  unfold evaluateGlossy
  split
  next hside =>
    split
    · exact Vec3.isNonneg_zero
    next wh hwh =>
      obtain ⟨u, hu, -, rfl⟩ := Vec3.exists_coords_of_normalize? hwh
      exact isNonneg_mirror hcolor halpha (Local.ne_zero_of_sameHemisphere hside).1 i
        (Coords.unit_ne_zero hu)
  · exact Vec3.isNonneg_zero

end Lobe

/-! ## Materials -/

/-- The lobes of a principled material: a choice between two lobes without negative colors. -/
structure PrincipledLobes.IsPhysical (lobes : PrincipledLobes (Exact z)) : Prop where
  diffuseProbability : lobes.diffuseProbability.IsFraction
  diffuseColor : lobes.diffuseColor.IsNonneg
  metallicColor : lobes.metallicColor.IsNonneg
  alpha : lobes.alpha.IsPos

namespace Bsdf

/-- No parameter is negative, indices of refraction are positive, and the base color, the metallic
and the specular part of a principled material lie between zero and one. -/
def IsPhysical : Bsdf (Texture (Exact z)) → Prop
  | diffuse albedo => albedo.IsNonneg
  | dielectric ior reflectance transmittance =>
    ior.ScalarIn (Set.Ioi 0) ∧ reflectance.IsNonneg ∧ transmittance.IsNonneg
  | roughConductor reflectance roughness => reflectance.IsNonneg ∧ roughness.ScalarIn (Set.Ici 0)
  | roughDielectric ior reflectance transmittance roughness =>
    ior.ScalarIn (Set.Ioi 0) ∧ reflectance.IsNonneg ∧ transmittance.IsNonneg ∧
      roughness.ScalarIn (Set.Ici 0)
  | principled baseColor roughness metallic specular =>
    baseColor.TakesIn (Set.Icc 0 1) ∧ roughness.ScalarIn (Set.Ici 0) ∧
      metallic.ScalarIn (Set.Icc 0 1) ∧ specular.ScalarIn (Set.Icc 0 1)

variable {uv : Vec2 (Exact z)} {o i : Fin 3 → ℝ}

theorem isPos_ior {ior : Texture (Exact z)} (h : ior.ScalarIn (Set.Ioi 0)) (huv : uv.IsReal) :
    (ior.scalar uv).IsPos := by
  obtain ⟨x, hx, heq⟩ := h uv huv
  exact ⟨x, hx, heq⟩

theorem isPos_alpha {roughness : Texture (Exact z)} {S : Set ℝ} (h : roughness.ScalarIn S)
    (huv : uv.IsReal) : (Microfacet.alphaOfRoughness (roughness.scalar uv)).IsPos := by
  obtain ⟨x, -, heq⟩ := h uv huv
  exact Microfacet.isPos_alphaOfRoughness ⟨x, heq⟩

theorem isPos_relativeIor {ior : Exact z} (h : ior.IsPos) (w : Vec3 (Exact z)) :
    (relativeIor ior w).IsPos := by
  unfold relativeIor
  split
  · exact h
  · exact isPos_one.div h

theorem isFraction_fresnel {eta : Exact z} (h : eta.IsPos) (o : Fin 3 → ℝ) :
    (Fresnel.dielectric (Local.absCosTheta (.ofCoords o)) eta).IsFraction :=
  Fresnel.isFraction_dielectric (isReal_number _).abs h

/-- The probability of the first of two lobes. -/
theorem isFraction_probability {a b : Exact z} (ha : a.IsNonneg) (hb : b.IsNonneg) :
    (if 0 < a + b then a / (a + b) else 1).IsFraction := by
  obtain ⟨x, hx, rfl⟩ := ha
  obtain ⟨y, hy, rfl⟩ := hb
  simp only [zero_eq, number_add, number_lt]
  split_ifs with hsum
  · rw [number_div _ _ hsum.ne']
    exact ⟨x / (x + y), div_nonneg hx hsum.le, (div_le_one hsum).2 (by linarith), rfl⟩
  · exact ⟨1, zero_le_one, le_rfl, one_eq⟩

/-- The part of the light that the layer over a principled material reflects. -/
theorem isFraction_layer {m specular : Exact z} (hm : m.IsFraction) (hs : specular.IsFraction)
    (o : Fin 3 → ℝ) : (specular * Fresnel.schlick ((1 - m) * 0.08)
      (Local.cosTheta (.ofCoords o))).IsFraction := by
  have hweight : (0.08 : Exact z).IsFraction := ⟨0.08, by norm_num, by norm_num, by simp⟩
  exact hs.mul (Fresnel.isFraction_schlick (hm.one_sub.mul hweight) (isReal_number (o 2)))

theorem isPhysical_lobes {baseColor roughness metallic specular : Texture (Exact z)}
    (hcolor : (baseColor.evaluate uv).IsNonneg)
    (hroughness : (Microfacet.alphaOfRoughness (roughness.scalar uv)).IsPos)
    (hm : (metallic.scalar uv).IsFraction) (hs : (specular.scalar uv).IsFraction)
    (o : Fin 3 → ℝ) :
    (principledLobes baseColor roughness metallic specular uv (.ofCoords o)).IsPhysical := by
  have hf := isFraction_layer hm hs o
  have hdiffuse := Vec3.IsNonneg.smul (hf.one_sub.mul hm.one_sub).isNonneg hcolor
  have hmetal := (Vec3.isNonneg_splat hf.isNonneg).add
    (.smul (hf.one_sub.mul hm).isNonneg hcolor)
  exact ⟨isFraction_probability hdiffuse.mean hmetal.mean, hdiffuse, hmetal, hroughness⟩

theorem isPhysical_principledLobes {baseColor roughness metallic specular : Texture (Exact z)}
    (h : (principled baseColor roughness metallic specular).IsPhysical) (huv : uv.IsReal)
    (o : Fin 3 → ℝ) :
    (principledLobes baseColor roughness metallic specular uv (.ofCoords o)).IsPhysical := by
  obtain ⟨hbase, hroughness, hmetallic, hspecular⟩ := h
  have hfraction {t : Texture (Exact z)} (ht : t.ScalarIn (Set.Icc 0 1)) :
      (t.scalar uv).IsFraction := by
    obtain ⟨x, hx, heq⟩ := ht uv huv
    exact ⟨x, hx.1, hx.2, heq⟩
  obtain ⟨r, hr, g, hg, b, hb, heq⟩ := hbase uv huv
  refine isPhysical_lobes ?_ (isPos_alpha hroughness huv) (hfraction hmetallic)
    (hfraction hspecular) o
  rw [heq]
  exact ⟨⟨r, hr.1, rfl⟩, ⟨g, hg.1, rfl⟩, ⟨b, hb.1, rfl⟩⟩

/-! ### Frosted glass -/

/-- The normal between two directions: on different sides it is the unit vector of a sum, turned to
either side, so that sum has a positive part along it. -/
theorem exists_coords_of_halfVector? {eta : ℝ} {wh : Vec3 (Exact z)}
    (h : halfVector? (number eta) (.ofCoords o) (.ofCoords i) = some wh) :
    ∃ u : Fin 3 → ℝ, u ≠ 0 ∧ wh = .ofCoords u ∧
      (Local.sameHemisphere (.ofCoords o : Vec3 (Exact z)) (.ofCoords i) = false →
        (o + eta • i) ⬝ᵥ u ≠ 0) := by
  unfold halfVector? at h
  split at h
  next hside =>
    obtain ⟨u, hu, -, rfl⟩ := Vec3.exists_coords_of_normalize? h
    exact ⟨_, Coords.unit_ne_zero hu, rfl, by simp [hside]⟩
  next =>
    split at h
    · cases h
    next half hhalf =>
      rw [Vec3.smul_ofCoords, Vec3.add_ofCoords] at hhalf
      obtain ⟨u, hu, hsum, rfl⟩ := Vec3.exists_coords_of_normalize? hhalf
      have hsum : o + eta • i = u := by
        simpa [Vec3.ofCoords, funext_iff, Fin.forall_fin_succ] using hsum
      have hdot : u ⬝ᵥ Coords.unit u ≠ 0 := by
        rw [Coords.unit, dotProduct_smul, smul_eq_mul]
        exact mul_ne_zero (inv_ne_zero (Coords.length_pos hu).ne')
          (fun hzero => hu (dotProduct_self_eq_zero.1 hzero))
      -- Turning the normal changes the sign of that part only.
      obtain ⟨v, hv, hturned, hpart⟩ : ∃ v : Fin 3 → ℝ, v ≠ 0 ∧
          (if (Vec3.ofCoords (Coords.unit u) : Vec3 (Exact z)).z * Local.cosTheta (.ofCoords o) < 0
            then -.ofCoords (Coords.unit u) else .ofCoords (Coords.unit u)) =
            (.ofCoords v : Vec3 (Exact z)) ∧ u ⬝ᵥ v ≠ 0 := by
        split
        · refine ⟨-Coords.unit u, neg_ne_zero.2 (Coords.unit_ne_zero hu), rfl, ?_⟩
          rw [dotProduct_neg]
          exact neg_ne_zero.2 hdot
        · exact ⟨Coords.unit u, Coords.unit_ne_zero hu, rfl, hdot⟩
      simp only [hturned] at h
      split at h
      · cases h
      · exact ⟨v, hv, (Option.some.inj h).symm, fun _ => hsum ▸ hpart⟩

theorem isNonneg_evaluateRoughDielectric {ior alpha : Exact z} {r t : Color (Exact z)}
    (hior : ior.IsPos) (halpha : alpha.IsPos) (hr : r.IsNonneg) (ht : t.IsNonneg) :
    (evaluateRoughDielectric ior alpha r t (.ofCoords o) (.ofCoords i)).IsNonneg := by
  unfold evaluateRoughDielectric
  split
  · exact Vec3.isNonneg_zero
  next hgrazing =>
    have ho : o 2 ≠ 0 := by
      intro hzero
      simp [isGrazing, Local.cosTheta, Vec3.ofCoords, hzero] at hgrazing
    have heta := isPos_relativeIor hior (.ofCoords o)
    have hf := isFraction_fresnel heta o
    obtain ⟨eta, hpos, heq⟩ := heta
    simp only [heq] at hf ⊢
    split
    · exact Vec3.isNonneg_zero
    next wh hwh =>
      obtain ⟨u, hu, rfl, hsum⟩ := exists_coords_of_halfVector? hwh
      split
      · exact Lobe.isNonneg_mirror (.smul hf.isNonneg hr) halpha ho i hu
      next hside =>
        have hmask (w : Fin 3 → ℝ) := Microfacet.isNonneg_masking halpha.isNonneg.isReal
          (Vec3.isReal_ofCoords w) (Vec3.isReal_ofCoords u)
        have hsquare : ((o + eta • i) ⬝ᵥ u) * ((o + eta • i) ⬝ᵥ u) =
            (o ⬝ᵥ u + eta * (i ⬝ᵥ u)) * (o ⬝ᵥ u + eta * (i ⬝ᵥ u)) := by
          rw [add_dotProduct, smul_dotProduct, smul_eq_mul]
        simp only [Vec3.dot_ofCoords, number_mul, number_add, Scalar.sqr]
        refine .div (.smul (isReal_number _).abs (.smul (hmask o) (.smul (hmask i)
          (.smul (Microfacet.isPos_density halpha hu).isNonneg
            (.smul hf.one_sub.isNonneg ht))))) ?_
        refine (Local.isPos_absCosTheta rfl ho).mul (isPos_number ?_)
        rw [← hsquare]
        exact mul_self_pos.2 (hsum (by simpa using hside))

/-- No material scatters negative light. -/
theorem IsPhysical.evaluate {bsdf : Bsdf (Texture (Exact z))} (h : bsdf.IsPhysical)
    (huv : uv.IsReal) (o i : Fin 3 → ℝ) :
    (bsdf.evaluate uv (.ofCoords o) (.ofCoords i)).IsNonneg := by
  cases bsdf with
  | diffuse albedo =>
    simp only [Bsdf.evaluate]
    split
    · exact Lobe.isNonneg_evaluateDiffuse (Texture.IsNonneg.evaluate h huv) i
    · exact Vec3.isNonneg_zero
  | dielectric ior reflectance transmittance => exact Vec3.isNonneg_zero
  | roughConductor reflectance roughness =>
    exact Lobe.isNonneg_evaluateGlossy (h.1.evaluate huv) (isPos_alpha h.2 huv)
  | roughDielectric ior reflectance transmittance roughness =>
    obtain ⟨hior, hr, ht, hroughness⟩ := h
    exact isNonneg_evaluateRoughDielectric (isPos_ior hior huv) (isPos_alpha hroughness huv)
      (hr.evaluate huv) (ht.evaluate huv)
  | principled baseColor roughness metallic specular =>
    have hlobes := isPhysical_principledLobes h huv o
    simp only [Bsdf.evaluate]
    split
    · exact (Lobe.isNonneg_evaluateDiffuse hlobes.diffuseColor i).add
        (Lobe.isNonneg_evaluateGlossy hlobes.metallicColor hlobes.alpha)
    · exact Vec3.isNonneg_zero

end Bsdf

end Radiance
