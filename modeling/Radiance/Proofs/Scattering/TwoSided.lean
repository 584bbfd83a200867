import Radiance.Proofs.Scattering.Cancellation

/-!
# Materials seen from below

A matte lobe and a rough mirror lobe have the same value for two directions and for their mirror
images about the surface.  The layer over the principled material has not: it looks at the cosine
with its sign, so that seen from below it reflects its full amount at every angle, and seen from
above less.  In exact arithmetic the two sides of the material agree only if the layer reflects
nothing or does not matter because what it covers is a white metal.

## Main definitions

* `Vec3.flipped`: the mirror image of a direction about the surface.
* `PrincipledLobes.ofLayer`: the lobes of a principled material as a function of the light that the
  layer reflects.

## Main statements

* `Lobe.evaluateDiffuse_flipped`, `Lobe.evaluateGlossy_flipped`: lobes with two equal sides.
* `Bsdf.layer_below`, `Bsdf.exists_layer_above`: what the layer reflects on each side.
* `PrincipledLobes.ofLayer_inj`: what it reflects is seen in the lobes.
* `Bsdf.principled_sides_agree_iff`: the principled materials with two equal sides.
-/

namespace Radiance

open Exact Matrix

variable {z : ZeroSign}

/-! ## Mirror images about the surface -/

/-- The mirror image of a direction about the surface. -/
def Vec3.flipped {α : Type} [Scalar α] (w : Vec3 α) : Vec3 α := { w with z := -w.z }

namespace Coords

/-- The coordinates of the mirror image. -/
def flipped (w : Fin 3 → ℝ) : Fin 3 → ℝ := w * ![1, 1, -1]

@[simp] theorem flipped_zero (w : Fin 3 → ℝ) : flipped w 0 = w 0 := mul_one _

@[simp] theorem flipped_one (w : Fin 3 → ℝ) : flipped w 1 = w 1 := mul_one _

@[simp] theorem flipped_two (w : Fin 3 → ℝ) : flipped w 2 = -w 2 := mul_neg_one _

theorem flipped_flipped (w : Fin 3 → ℝ) : flipped (flipped w) = w := by
  ext k
  fin_cases k <;> simp

theorem flipped_add (v w : Fin 3 → ℝ) : flipped (v + w) = flipped v + flipped w := by
  ext k
  fin_cases k <;> simp [add_comm]

theorem flipped_smul (c : ℝ) (w : Fin 3 → ℝ) : flipped (c • w) = c • flipped w := by
  ext k
  fin_cases k <;> simp

theorem flipped_dotProduct_flipped (v w : Fin 3 → ℝ) : flipped v ⬝ᵥ flipped w = v ⬝ᵥ w := by
  simp [dotProduct, Fin.sum_univ_three]

theorem unit_flipped (w : Fin 3 → ℝ) : unit (flipped w) = flipped (unit w) := by
  rw [unit, unit, flipped_smul, length, length, flipped_dotProduct_flipped]

end Coords

theorem Vec3.flipped_ofCoords (w : Fin 3 → ℝ) :
    (ofCoords w : Vec3 (Exact z)).flipped = ofCoords (Coords.flipped w) := by
  simp [ofCoords, flipped]

theorem Vec3.mean_ofCoords (v : Fin 3 → ℝ) :
    (ofCoords v : Color (Exact z)).mean = number ((v 0 + v 1 + v 2) / 3) := by
  rw [mean, ofNat_eq]
  exact number_div _ _ three_ne_zero

theorem Local.sameHemisphere_flipped (o i : Fin 3 → ℝ) :
    sameHemisphere (.ofCoords (Coords.flipped o) : Vec3 (Exact z)) (.ofCoords (Coords.flipped i)) =
      sameHemisphere (.ofCoords o : Vec3 (Exact z)) (.ofCoords i) := by
  simp [sameHemisphere_ofCoords]

theorem Local.absCosTheta_flipped (w : Fin 3 → ℝ) :
    absCosTheta (.ofCoords (Coords.flipped w) : Vec3 (Exact z)) = absCosTheta (.ofCoords w) := by
  simp [absCosTheta, Vec3.ofCoords]

namespace Microfacet

theorem density_flipped (alpha : Exact z) (h : Fin 3 → ℝ) :
    density alpha (.ofCoords (Coords.flipped h)) = density alpha (.ofCoords h) := by
  simp [density, Vec3.ofCoords, Scalar.sqr]

theorem masking_flipped (alpha : Exact z) (h w : Fin 3 → ℝ) :
    masking alpha (.ofCoords (Coords.flipped h)) (.ofCoords (Coords.flipped w)) =
      masking alpha (.ofCoords h) (.ofCoords w) := by
  simp only [masking, Vec3.dot_ofCoords, Coords.flipped_dotProduct_flipped]
  simp [Local.cosTheta, Local.tanTheta2, Local.sinTheta2, Local.cosTheta2, Vec3.ofCoords,
    Scalar.sqr]

end Microfacet

namespace Lobe

theorem evaluateDiffuse_flipped (color : Color (Exact z)) (i : Fin 3 → ℝ) :
    evaluateDiffuse color (.ofCoords (Coords.flipped i)) = evaluateDiffuse color (.ofCoords i) := by
  rw [evaluateDiffuse, Local.absCosTheta_flipped, evaluateDiffuse]

theorem evaluateGlossy_flipped (color : Color (Exact z)) (alpha : Exact z) (o i : Fin 3 → ℝ) :
    evaluateGlossy color alpha (.ofCoords (Coords.flipped o)) (.ofCoords (Coords.flipped i)) =
      evaluateGlossy color alpha (.ofCoords o) (.ofCoords i) := by
  rw [evaluateGlossy, evaluateGlossy, Local.sameHemisphere_flipped]
  split
  next hside =>
    have hne := Local.add_ne_zero hside
    have hne' : Coords.flipped (i + o) ≠ 0 := by
      intro hzero
      rw [← Coords.flipped_flipped (i + o), hzero] at hne
      exact hne (by ext k; fin_cases k <;> simp [Coords.flipped])
    rw [Vec3.add_ofCoords, Vec3.add_ofCoords, ← Coords.flipped_add, Vec3.normalize?_ofCoords hne',
      Vec3.normalize?_ofCoords hne, Coords.unit_flipped]
    simp only [Microfacet.masking_flipped, Microfacet.density_flipped, Local.absCosTheta_flipped]
  next => rfl

end Lobe

/-! ## The layer of the principled material -/

namespace Fresnel

variable {c : ℝ}

theorem schlickWeight_of_neg (hc : c < 0) : (schlickWeight (number c) : Exact z) = 1 := by
  have hlow : ¬1 - c < 0 := by linarith
  have hhigh : 1 < 1 - c := by linarith
  simp [schlickWeight, Scalar.clamp, hlow, hhigh]

theorem exists_schlickWeight_lt_one (hc : 0 < c) :
    ∃ w : ℝ, w < 1 ∧ (schlickWeight (number c) : Exact z) = number w := by
  have hhigh : ¬1 < 1 - c := by linarith
  by_cases hlow : 1 - c < 0
  · exact ⟨0, one_pos, by simp [schlickWeight, Scalar.clamp, hlow]⟩
  · refine ⟨(1 - c) ^ 5, pow_lt_one₀ (not_lt.1 hlow) (by linarith) (by norm_num), ?_⟩
    simp only [schlickWeight, Scalar.clamp, one_eq, zero_eq, number_sub, number_lt, if_neg hlow,
      if_neg hhigh, number_mul, number_inj]
    ring

/-- From below the cosine is negative, and all of the light is reflected. -/
theorem schlick_of_neg {f₀ : Exact z} (hf : f₀.IsReal) (hc : c < 0) :
    schlick f₀ (number c) = 1 := by
  obtain ⟨x, rfl⟩ := hf
  simp [schlick, schlickWeight_of_neg hc]

theorem exists_schlick_lt_one {x : ℝ} (hx : x < 1) (hc : 0 < c) :
    ∃ y : ℝ, y < 1 ∧ (schlick (number x) (number c) : Exact z) = number y := by
  obtain ⟨w, hw, hweight⟩ := exists_schlickWeight_lt_one (z := z) hc
  refine ⟨x + (1 - x) * w, by nlinarith, ?_⟩
  rw [schlick, hweight, one_eq, number_sub, number_mul, number_add]

end Fresnel

namespace Bsdf

/-- The part of the light that the layer over a principled material reflects. -/
def layer {α : Type} [Scalar α] (metallic specular cosTheta : α) : α :=
  specular * Fresnel.schlick ((1 - metallic) * 0.08) cosTheta

variable {m s : Exact z} {c : ℝ}

theorem layer_below (hm : m.IsFraction) (hs : s.IsReal) (hc : c < 0) :
    layer m s (number c) = s := by
  obtain ⟨x, -, -, rfl⟩ := hm
  obtain ⟨y, rfl⟩ := hs
  have hreal : ((1 - number x) * 0.08 : Exact z).IsReal :=
    ⟨(1 - x) * 0.08, by rw [one_eq, number_sub, ofScientific_eq, number_mul]⟩
  rw [layer, Fresnel.schlick_of_neg hreal hc, one_eq, number_mul, mul_one]

/-- From above the layer reflects a part of what it reflects from below. -/
theorem exists_layer_above (hm : m.IsFraction) (y : ℝ) (hc : 0 < c) :
    ∃ w : ℝ, w < 1 ∧ layer m (number y) (number c) = number (y * w) := by
  obtain ⟨x, hx, -, rfl⟩ := hm
  obtain ⟨w, hw, hschlick⟩ := Fresnel.exists_schlick_lt_one (z := z)
    (show (1 - x) * 0.08 < 1 by linarith) hc
  refine ⟨w, hw, ?_⟩
  rw [layer, one_eq, number_sub, ofScientific_eq, number_mul, hschlick, number_mul]

end Bsdf

namespace PrincipledLobes

/-- The lobes over a base color, for the part of the light that the layer reflects. -/
def ofLayer {α : Type} [Scalar α] (base : Color α) (metallic alpha f : α) : PrincipledLobes α :=
  let diffuseColor := ((1 - f) * (1 - metallic)) • base
  let metallicColor := Vec3.splat f + ((1 - f) * metallic) • base
  let diffuse := diffuseColor.mean
  let total := diffuse + metallicColor.mean
  { diffuseProbability := if 0 < total then diffuse / total else 1
    diffuseColor
    metallicColor
    alpha }

theorem principledLobes_eq_ofLayer {α : Type} [Scalar α]
    (baseColor roughness metallic specular : Texture α) (uv : Vec2 α) (wo : Vec3 α) :
    Bsdf.principledLobes baseColor roughness metallic specular uv wo =
      ofLayer (baseColor.evaluate uv) (metallic.scalar uv)
        (Microfacet.alphaOfRoughness (roughness.scalar uv))
        (Bsdf.layer (metallic.scalar uv) (specular.scalar uv) (Local.cosTheta wo)) := rfl

variable {v : Fin 3 → ℝ} {m f f' : ℝ} {alpha : Exact z}

theorem diffuseColor_ofLayer :
    (ofLayer (.ofCoords v) (number m) alpha (number f) : PrincipledLobes (Exact z)).diffuseColor =
      .ofCoords (((1 - f) * (1 - m)) • v) := by
  simp only [ofLayer, one_eq, number_sub, number_mul, Vec3.smul_ofCoords]

theorem metallicColor_ofLayer :
    (ofLayer (.ofCoords v) (number m) alpha (number f) : PrincipledLobes (Exact z)).metallicColor =
      .ofCoords (fun k => f + (1 - f) * m * v k) := by
  simp only [ofLayer, one_eq, number_sub, number_mul, Vec3.smul_ofCoords]
  rfl

/-- The matte lobe is chosen in proportion to its part of all the light. -/
theorem diffuseProbability_ofLayer (h : 0 < f + (1 - f) * ((v 0 + v 1 + v 2) / 3)) :
    (ofLayer (.ofCoords v) (number m) alpha (number f) :
        PrincipledLobes (Exact z)).diffuseProbability =
      number ((1 - f) * (1 - m) * ((v 0 + v 1 + v 2) / 3) /
        (f + (1 - f) * ((v 0 + v 1 + v 2) / 3))) := by
  let lobes : PrincipledLobes (Exact z) := ofLayer (.ofCoords v) (number m) alpha (number f)
  have hdiffuse : lobes.diffuseColor.mean =
      number ((1 - f) * (1 - m) * ((v 0 + v 1 + v 2) / 3)) := by
    rw [diffuseColor_ofLayer, Vec3.mean_ofCoords, number_inj]
    simp only [Pi.smul_apply, smul_eq_mul]
    ring
  have htotal : lobes.diffuseColor.mean + lobes.metallicColor.mean =
      number (f + (1 - f) * ((v 0 + v 1 + v 2) / 3)) := by
    rw [hdiffuse, metallicColor_ofLayer, Vec3.mean_ofCoords, number_add, number_inj]
    ring
  change (if 0 < lobes.diffuseColor.mean + lobes.metallicColor.mean then
    lobes.diffuseColor.mean / (lobes.diffuseColor.mean + lobes.metallicColor.mean) else 1) = _
  rw [htotal, hdiffuse, zero_eq, if_pos ((number_lt _ _).2 h), number_div _ _ h.ne']

/-- The lobes show what the layer reflects, unless the base is a white metal. -/
theorem ofLayer_inj :
    (ofLayer (.ofCoords v) (number m) alpha (number f) : PrincipledLobes (Exact z)) =
        ofLayer (.ofCoords v) (number m) alpha (number f') ↔
      f = f' ∨ (m = 1 ∧ v = 1) := by
  constructor
  · intro h
    have hdiffuse := congrArg diffuseColor h
    have hmetallic := congrArg metallicColor h
    rw [diffuseColor_ofLayer, diffuseColor_ofLayer, Vec3.ofCoords_inj] at hdiffuse
    rw [metallicColor_ofLayer, metallicColor_ofLayer, Vec3.ofCoords_inj] at hmetallic
    by_cases hf : f = f'
    · exact .inl hf
    have hne := sub_ne_zero.2 hf
    have hmatte (k : Fin 3) : (1 - m) * v k = 0 := by
      have hk := congrFun hdiffuse k
      simp only [Pi.smul_apply, smul_eq_mul] at hk
      have hproduct : (f - f') * ((1 - m) * v k) = 0 := by linear_combination -hk
      exact (mul_eq_zero.1 hproduct).resolve_left hne
    have hmetal (k : Fin 3) : 1 - m * v k = 0 := by
      have hk := congrFun hmetallic k
      have hproduct : (f - f') * (1 - m * v k) = 0 := by linear_combination hk
      exact (mul_eq_zero.1 hproduct).resolve_left hne
    have hwhite (k : Fin 3) : v k = 1 := by linear_combination hmatte k - hmetal k
    refine .inr ⟨?_, funext hwhite⟩
    have h0 := hmetal 0
    rw [hwhite, mul_one] at h0
    linarith
  · rintro (rfl | ⟨rfl, rfl⟩)
    · rfl
    · simp [ofLayer, Vec3.ofCoords, Vec3.splat]

/-- The lobes are the same from both sides only if what the layer reflects is. -/
theorem ofLayer_neg_iff (hm : (number m : Exact z).IsFraction) {s c : ℝ} (hc : c ≠ 0) :
    (ofLayer (.ofCoords v) (number m) alpha (Bsdf.layer (number m) (number s) (number (-c))) :
        PrincipledLobes (Exact z)) =
        ofLayer (.ofCoords v) (number m) alpha (Bsdf.layer (number m) (number s) (number c)) ↔
      s = 0 ∨ (m = 1 ∧ v = 1) := by
  have habove (c : ℝ) (hc : 0 < c) :
      (ofLayer (.ofCoords v) (number m) alpha (Bsdf.layer (number m) (number s) (number (-c))) :
          PrincipledLobes (Exact z)) =
          ofLayer (.ofCoords v) (number m) alpha (Bsdf.layer (number m) (number s) (number c)) ↔
        s = 0 ∨ (m = 1 ∧ v = 1) := by
    obtain ⟨w, hw, hlayer⟩ := Bsdf.exists_layer_above hm s hc
    have hpart : s = s * w ↔ s = 0 := by
      constructor
      · intro h
        exact (mul_eq_zero.1 (by linear_combination h : s * (1 - w) = 0)).resolve_right
          (sub_pos.2 hw).ne'
      · rintro rfl
        rw [zero_mul]
    rw [Bsdf.layer_below hm (isReal_number s) (neg_lt_zero.2 hc), hlayer, ofLayer_inj, hpart]
  obtain hneg | hpos := lt_or_gt_of_ne hc
  · have hother := habove (-c) (neg_pos.2 hneg)
    rwa [neg_neg, eq_comm] at hother
  · exact habove c hpos

end PrincipledLobes

/-! ## Directions mirrored about the vertical -/

namespace Coords

variable {o : Fin 3 → ℝ}

theorem upright_dotProduct : ![0, 0, 1] ⬝ᵥ o = o 2 := by rw [pole_dotProduct, one_mul]

theorem reflected_upright : reflected o ![0, 0, 1] 2 = o 2 := by
  rw [reflected_pole (one_mul 1)]
  rfl

theorem reflected_upright_unit (ho : o ⬝ᵥ o = 1) :
    reflected o ![0, 0, 1] ⬝ᵥ reflected o ![0, 0, 1] = 1 :=
  (reflected_dotProduct_self upright_dotProduct o).trans ho

/-- There is a direction at each height. -/
theorem exists_height {c : ℝ} (hc : 0 ≤ 1 - c * c) : ∃ o : Fin 3 → ℝ, o ⬝ᵥ o = 1 ∧ o 2 = c := by
  refine ⟨![√(1 - c * c), 0, c], ?_, rfl⟩
  rw [vec3_dotProduct', Real.mul_self_sqrt hc]
  ring

end Coords

theorem Local.sameHemisphere_upright {o : Fin 3 → ℝ} (ho : 0 < o 2) :
    sameHemisphere (.ofCoords o : Vec3 (Exact z))
      (.ofCoords (Coords.reflected o ![0, 0, 1])) = true := by
  rw [sameHemisphere_ofCoords, Coords.reflected_upright, decide_eq_true_iff]
  exact mul_pos ho ho

namespace Microfacet

/-- The width of the distribution times twice the cosine over the masking term, for an upright
normal. -/
noncomputable def uprightScale (a c : ℝ) : ℝ := a * (c + √(c * c + a * a * (1 - c * c)))

variable {a c : ℝ} {w : Fin 3 → ℝ}

theorem uprightScale_pos (ha : 0 < a) (hc : 0 < c) : 0 < uprightScale a c :=
  mul_pos ha (add_pos_of_pos_of_nonneg hc (Real.sqrt_nonneg _))

theorem uprightScale_one : uprightScale a 1 = 2 * a := by
  rw [uprightScale, mul_one, sub_self, mul_zero, add_zero, Real.sqrt_one]
  ring

/-- The scales for three directions differ. -/
theorem no_common_uprightScale {A B : ℝ} (ha : 0 < a) (hA : 0 < A)
    (h : ∀ c, 0 < c → c ≤ 1 → A = B * (uprightScale a c * uprightScale a c)) : False := by
  have hsame (c : ℝ) (hc : 0 < c) (hc' : c ≤ 1) : a * a * (1 + c) * (1 - c) = 4 * (1 - c) := by
    have hone := h 1 one_pos le_rfl
    have hother := h c hc hc'
    have hB : B ≠ 0 := by
      rintro rfl
      linarith
    have hchord : 0 ≤ 1 - c * c := by nlinarith
    have hinner : 0 ≤ c * c + a * a * (1 - c * c) := by positivity
    have hsquare : uprightScale a c * uprightScale a c = uprightScale a 1 * uprightScale a 1 :=
      mul_left_cancel₀ hB (hother.symm.trans hone)
    have hscale := (mul_self_inj (uprightScale_pos ha hc).le (uprightScale_pos ha one_pos).le).1
      hsquare
    rw [uprightScale_one, uprightScale, mul_comm 2 a] at hscale
    have hroot : √(c * c + a * a * (1 - c * c)) = 2 - c := by
      linarith [mul_left_cancel₀ ha.ne' hscale]
    have hsqr := Real.mul_self_sqrt hinner
    rw [hroot] at hsqr
    linear_combination -hsqr
  have h₁ := hsame (3 / 5) (by norm_num) (by norm_num)
  have h₂ := hsame (4 / 5) (by norm_num) (by norm_num)
  linarith

theorem density_upright (ha : 0 < a) :
    (density (number a) (.ofCoords ![0, 0, 1]) : Exact z) = number (1 / (Real.pi * (a * a))) := by
  have hpos : Real.pi * (a * a) ≠ 0 := by positivity
  simp [density, Vec3.ofCoords, Scalar.sqr, number_div _ _ ha.ne', number_div _ _ hpos, pi_eq]

theorem masking_upright (ha : 0 < a) (hw : w ⬝ᵥ w = 1) (hup : 0 < w 2) :
    (masking (number a) (.ofCoords ![0, 0, 1]) (.ofCoords w) : Exact z) =
      number (2 * a * w 2 / uprightScale a (w 2)) := by
  have hdot : w ⬝ᵥ ![0, 0, 1] = w 2 := by rw [dotProduct_comm, Coords.upright_dotProduct]
  have hseen : ¬w 2 * w 2 * 1 ≤ 0 := by
    rw [mul_one, not_le]
    exact mul_pos hup hup
  have hchord : 0 ≤ 1 - w 2 * w 2 := by nlinarith [height_le_one hw]
  simp only [masking, Vec3.dot_ofCoords, hdot, Local.cosTheta_ofCoords, cons_val, number_mul,
    zero_eq, number_le, if_neg hseen, one_eq, abs_number, abs_of_pos hup]
  split_ifs with hone
  · rw [le_antisymm (height_le_one hw) hone, uprightScale_one, number_inj, mul_one, div_self]
    exact mul_ne_zero two_ne_zero ha.ne'
  · rw [Local.tanTheta2_ofCoords hup.ne', max_eq_left hchord, uprightScale]
    generalize w 2 = c at *
    have hinner : c * c + a * a * (1 - c * c) = c * c * (1 + a * a * ((1 - c * c) / (c * c))) := by
      field_simp
    have hnonneg : 0 ≤ 1 + a * a * ((1 - c * c) / (c * c)) := by positivity
    rw [hinner, Real.sqrt_mul (mul_self_nonneg c), Real.sqrt_mul_self hup.le, Scalar.sqr,
      number_mul, number_mul, number_add, sqrt_number _ hnonneg, number_add, ofNat_eq, number_div,
      number_inj]
    · have hroot := Real.sqrt_nonneg (1 + a * a * ((1 - c * c) / (c * c)))
      field_simp
    · positivity

end Microfacet

namespace Lobe

open Microfacet

variable {a : ℝ} {o : Fin 3 → ℝ}

/-- The value for a direction and its mirror image about the vertical. -/
theorem evaluateGlossy_upright (ha : 0 < a) (ho : o ⬝ᵥ o = 1) (hup : 0 < o 2)
    (color : Color (Exact z)) :
    evaluateGlossy color (number a) (.ofCoords o) (.ofCoords (Coords.reflected o ![0, 0, 1])) =
      (number (o 2 / (Real.pi * (uprightScale a (o 2) * uprightScale a (o 2)))) : Exact z) •
        color := by
  have hfacing : 0 < ![0, 0, 1] ⬝ᵥ o := by rwa [Coords.upright_dotProduct]
  have hmasking := masking_upright (z := z) ha ho hup
  have hmasking' := masking_upright (z := z) ha (Coords.reflected_upright_unit ho)
    (by rwa [Coords.reflected_upright])
  have hside := Local.sameHemisphere_upright (z := z) hup
  rw [← Vec3.reflect_ofCoords] at hside ⊢
  rw [evaluateGlossy_reflect (isPos_number ha) Coords.upright_dotProduct hfacing hside,
    visiblePdf_eq hup.ne' (density_upright ha) hmasking, reflectionJacobian_eq hfacing.ne',
    Vec3.reflect_ofCoords, hmasking', Coords.reflected_upright, number_mul, Vec3.number_smul_smul,
    Coords.upright_dotProduct, abs_of_pos hup, abs_of_pos (mul_pos four_pos hup)]
  have hscale := uprightScale_pos ha hup
  congr 2
  field_simp
  ring

end Lobe

/-! ## Two equal sides -/

namespace PrincipledLobes

open Microfacet

variable {v o : Fin 3 → ℝ} {m f f' a : ℝ} {alpha : Exact z}

/-- The value for a direction and its mirror image about the vertical. -/
theorem value_ofLayer_upright (ha : 0 < a) (ho : o ⬝ᵥ o = 1) (hup : 0 < o 2) :
    let lobes : PrincipledLobes (Exact z) := ofLayer (.ofCoords v) (number m) alpha (number f)
    let t := uprightScale a (o 2)
    let i := Coords.reflected o ![0, 0, 1]
    Lobe.evaluateDiffuse lobes.diffuseColor (.ofCoords i) +
        Lobe.evaluateGlossy lobes.metallicColor (number a) (.ofCoords o) (.ofCoords i) =
      .ofCoords fun k =>
        o 2 / Real.pi * ((1 - f) * (1 - m) * v k + (f + (1 - f) * m * v k) / (t * t)) := by
  intro lobes t i
  have hheight : i 2 = o 2 := Coords.reflected_upright
  have hscale : 0 < t := uprightScale_pos ha hup
  rw [Lobe.evaluateGlossy_upright ha ho hup, Lobe.evaluateDiffuse, Local.absCosTheta_ofCoords,
    hheight, abs_of_pos hup, Scalar.invPi, pi_eq, one_eq, number_div _ _ Real.pi_ne_zero,
    diffuseColor_ofLayer, metallicColor_ofLayer, Vec3.smul_ofCoords, Vec3.smul_ofCoords,
    Vec3.smul_ofCoords, Vec3.add_ofCoords, Vec3.ofCoords_inj]
  ext k
  simp only [Pi.add_apply, Pi.smul_apply, smul_eq_mul]
  change _ + o 2 / (Real.pi * (t * t)) * _ = _
  field_simp

end PrincipledLobes

namespace Bsdf

open Microfacet

variable {baseColor roughness metallic specular : Texture (Exact z)} {uv : Vec2 (Exact z)}
  {o i : Fin 3 → ℝ}

/-- If the values for all directions at the same angle to the vertical agree, then the layer
reflects nothing or its base is a white metal. -/
theorem uniform_of_values {v : Fin 3 → ℝ} (hv : ∀ k, v k ∈ Set.Icc 0 1) {m s a : ℝ} (ha : 0 < a)
    (hm : (number m : Exact z).IsFraction)
    (h : ∀ o : Fin 3 → ℝ, o ⬝ᵥ o = 1 → 0 < o 2 →
      let i : Vec3 (Exact z) := .ofCoords (Coords.reflected o ![0, 0, 1])
      let lobes (c : ℝ) : PrincipledLobes (Exact z) :=
        .ofLayer (.ofCoords v) (number m) (number a) (layer (number m) (number s) (number c))
      Lobe.evaluateDiffuse (lobes (-o 2)).diffuseColor i +
          Lobe.evaluateGlossy (lobes (-o 2)).metallicColor (number a) (.ofCoords o) i =
        Lobe.evaluateDiffuse (lobes (o 2)).diffuseColor i +
          Lobe.evaluateGlossy (lobes (o 2)).metallicColor (number a) (.ofCoords o) i) :
    s = 0 ∨ (m = 1 ∧ v = 1) := by
  by_contra hnot
  obtain ⟨hs, hbase⟩ := not_or.1 hnot
  obtain ⟨x, hx0, hx1, hx⟩ := hm
  obtain rfl := (number_inj _ _).1 hx
  obtain ⟨k, hk⟩ : ∃ k, m * v k < 1 := by
    by_contra hall
    have hone (k : Fin 3) : 1 ≤ m * v k := not_lt.1 fun hlt => hall ⟨k, hlt⟩
    have hmetal : m = 1 := by nlinarith [hone 0, (hv 0).1, (hv 0).2]
    refine hbase ⟨hmetal, funext fun k => le_antisymm (hv k).2 ?_⟩
    simpa [hmetal] using hone k
  refine no_common_uprightScale ha (sub_pos.2 hk) (B := (1 - m) * v k) fun c hc hc' => ?_
  obtain ⟨o, ho, rfl⟩ := Coords.exists_height (c := c) (by nlinarith)
  obtain ⟨w, hw, hlayer⟩ := exists_layer_above (z := z) ⟨m, hx0, hx1, rfl⟩ s hc
  have hvalue := h o ho hc
  simp only [hlayer, layer_below (z := z) ⟨m, hx0, hx1, rfl⟩ (isReal_number s) (neg_lt_zero.2 hc),
    PrincipledLobes.value_ofLayer_upright ha ho hc, Vec3.ofCoords_inj] at hvalue
  have hchannel := congrFun hvalue k
  have hscale := uprightScale_pos ha hc
  have hfactor := mul_left_cancel₀ (div_pos hc Real.pi_pos).ne' hchannel
  field_simp at hfactor
  exact mul_left_cancel₀ (mul_ne_zero hs (sub_pos.2 hw).ne') (by linear_combination hfactor)

theorem evaluate_principled_flipped
    (hside : Local.sameHemisphere (.ofCoords o : Vec3 (Exact z)) (.ofCoords i) = true) :
    let lobes := principledLobes baseColor roughness metallic specular uv
      (.ofCoords (Coords.flipped o))
    (principled baseColor roughness metallic specular).evaluate uv (.ofCoords (Coords.flipped o))
        (.ofCoords (Coords.flipped i)) =
      Lobe.evaluateDiffuse lobes.diffuseColor (.ofCoords i) +
        Lobe.evaluateGlossy lobes.metallicColor lobes.alpha (.ofCoords o) (.ofCoords i) := by
  intro lobes
  rw [← Lobe.evaluateDiffuse_flipped, ← Lobe.evaluateGlossy_flipped]
  exact if_pos ((Local.sameHemisphere_flipped o i).trans hside)

/-- Equal lobes have equal values. -/
theorem evaluate_principled_of_lobes
    (h : principledLobes baseColor roughness metallic specular uv (.ofCoords (Coords.flipped o)) =
      principledLobes baseColor roughness metallic specular uv (.ofCoords o)) (i : Fin 3 → ℝ) :
    (principled baseColor roughness metallic specular).evaluate uv (.ofCoords (Coords.flipped o))
        (.ofCoords (Coords.flipped i)) =
      (principled baseColor roughness metallic specular).evaluate uv (.ofCoords o)
        (.ofCoords i) := by
  by_cases hside : Local.sameHemisphere (.ofCoords o : Vec3 (Exact z)) (.ofCoords i) = true
  · rw [evaluate_principled_flipped hside, h]
    exact (if_pos hside).symm
  · have hside' : ¬Local.sameHemisphere (.ofCoords (Coords.flipped o) : Vec3 (Exact z))
        (.ofCoords (Coords.flipped i)) = true := by rwa [Local.sameHemisphere_flipped]
    exact (if_neg hside').trans (if_neg hside).symm

/-- A principled material has the same lobes from below as from above if and only if its layer
reflects nothing or its base is a white metal, and only then the values for all directions agree.
From below the layer reflects its full amount at every angle. -/
theorem principled_sides_agree_iff
    (hbase : (baseColor.evaluate uv).IsIn (Set.Icc 0 1))
    (hmetallic : (metallic.scalar uv).IsFraction) (hspecular : (specular.scalar uv).IsFraction)
    (hroughness : (roughness.scalar uv).IsReal) :
    let material : Bsdf (Texture (Exact z)) := .principled baseColor roughness metallic specular
    let lobes := principledLobes baseColor roughness metallic specular uv
    let isUniform :=
      specular.scalar uv = 0 ∨ (metallic.scalar uv = 1 ∧ baseColor.evaluate uv = .one)
    (∀ wo, wo.length = 1 → Local.cosTheta wo ≠ 0 → (lobes wo.flipped = lobes wo ↔ isUniform)) ∧
    ((∀ wo wi, wo.length = 1 → wi.length = 1 → Local.cosTheta wo ≠ 0 → Local.cosTheta wi ≠ 0 →
      material.evaluate uv wo.flipped wi.flipped = material.evaluate uv wo wi) ↔ isUniform) ∧
    ∀ wo, wo.length = 1 → Local.cosTheta wo < 0 →
      lobes wo = .ofLayer (baseColor.evaluate uv) (metallic.scalar uv)
        (alphaOfRoughness (roughness.scalar uv)) (specular.scalar uv) := by
  intro material lobes isUniform
  have hm := hmetallic
  obtain ⟨r, hr, g, hg, b, hb, hcolor⟩ := hbase
  obtain ⟨v, hv, hbase⟩ : ∃ v : Fin 3 → ℝ, (∀ k, v k ∈ Set.Icc 0 1) ∧
      baseColor.evaluate uv = .ofCoords v :=
    ⟨![r, g, b], by simp [Fin.forall_fin_succ, hr.1, hr.2, hg.1, hg.2, hb.1, hb.2], hcolor⟩
  obtain ⟨m, hm0, hm1, hmnumber⟩ := hmetallic
  obtain ⟨s, hs0, -, hsnumber⟩ := hspecular
  obtain ⟨a, ha, hanumber⟩ := isPos_alphaOfRoughness hroughness
  have hlobes (o : Fin 3 → ℝ) : lobes (.ofCoords o) = .ofLayer (.ofCoords v) (number m) (number a)
      (layer (number m) (number s) (number (o 2))) := by
    rw [← hbase, ← hmnumber, ← hanumber, ← hsnumber]
    exact PrincipledLobes.principledLobes_eq_ofLayer _ _ _ _ uv (.ofCoords o)
  have hwhite : (.ofCoords v : Color (Exact z)) = .one ↔ v = 1 := by
    rw [← Vec3.ofCoords_inj (z := z) (v := 1)]
    simp [Vec3.ofCoords, Vec3.one, Vec3.splat]
  have huniform : isUniform ↔ s = 0 ∨ (m = 1 ∧ v = 1) := by
    simp only [isUniform, hbase, hmnumber, hsnumber, hwhite, zero_eq, one_eq, number_inj]
  have hagree (o : Fin 3 → ℝ) (ho : o 2 ≠ 0) :
      lobes (.ofCoords (Coords.flipped o)) = lobes (.ofCoords o) ↔ isUniform := by
    rw [hlobes, hlobes, huniform, Coords.flipped_two]
    exact PrincipledLobes.ofLayer_neg_iff (hmnumber ▸ hm) ho
  refine ⟨fun wo hwo hcos => ?_, ⟨fun hvalues => ?_, fun h wo wi hwo hwi hcos _ => ?_⟩,
    fun wo hwo hcos => ?_⟩
  · obtain ⟨o, -, rfl⟩ := Vec3.exists_coords_of_length hwo
    rw [Vec3.flipped_ofCoords]
    exact hagree o (Local.cosTheta_ne_zero.1 hcos)
  · rw [huniform]
    refine uniform_of_values hv ha (hmnumber ▸ hm) fun o ho hup => ?_
    have hside := Local.sameHemisphere_upright (z := z) hup
    have hvalue := hvalues (.ofCoords o) (.ofCoords (Coords.reflected o ![0, 0, 1]))
      (Vec3.length_ofCoords_eq_one ho)
      (Vec3.length_ofCoords_eq_one (Coords.reflected_upright_unit ho))
      (Local.cosTheta_ne_zero.2 hup.ne')
      (Local.cosTheta_ne_zero.2 (by rw [Coords.reflected_upright]; exact hup.ne'))
    rw [Vec3.flipped_ofCoords, Vec3.flipped_ofCoords] at hvalue
    have habove := hvalue.trans (if_pos hside)
    have hbelow := (evaluate_principled_flipped hside).symm.trans habove
    change Lobe.evaluateDiffuse (lobes _).diffuseColor _ + Lobe.evaluateGlossy
      (lobes _).metallicColor (lobes _).alpha _ _ = Lobe.evaluateDiffuse (lobes _).diffuseColor _ +
        Lobe.evaluateGlossy (lobes _).metallicColor (lobes _).alpha _ _ at hbelow
    rw [hlobes, hlobes, Coords.flipped_two] at hbelow
    exact hbelow
  · obtain ⟨o, -, rfl⟩ := Vec3.exists_coords_of_length hwo
    obtain ⟨i, -, rfl⟩ := Vec3.exists_coords_of_length hwi
    rw [Vec3.flipped_ofCoords, Vec3.flipped_ofCoords]
    exact evaluate_principled_of_lobes ((hagree o (Local.cosTheta_ne_zero.1 hcos)).2 h) i
  · obtain ⟨o, -, rfl⟩ := Vec3.exists_coords_of_length hwo
    rw [Local.cosTheta_ofCoords, zero_eq, number_lt] at hcos
    rw [hlobes, layer_below (hmnumber ▸ hm) (isReal_number s) hcos, hbase, hmnumber, hanumber,
      hsnumber]

/-- A white metal under a full layer. -/
theorem principled_sides_agree_iff_whiteMetal :
    let white : Texture (Exact .plus) := .constant .one
    let material : Bsdf (Texture (Exact .plus)) := .principled white white white white
    let wo : Vec3 (Exact .plus) := .ofCoords ![3 / 5, 0, 4 / 5]
    let wi : Vec3 (Exact .plus) := .ofCoords ![0, 3 / 5, 4 / 5]
    (white.evaluate .zero).IsIn (Set.Icc 0 1) ∧ (white.scalar .zero).IsFraction ∧
      (white.scalar .zero).IsReal ∧ wo.length = 1 ∧ wi.length = 1 ∧ Local.cosTheta wo ≠ 0 ∧
      Local.cosTheta wi ≠ 0 ∧ Local.sameHemisphere wo wi = true ∧
      principledLobes white white white white .zero wo.flipped =
        principledLobes white white white white .zero wo ∧
      material.evaluate .zero wo.flipped wi.flipped = material.evaluate .zero wo wi := by
  intro white material wo wi
  have hone : (1 : ℝ) ∈ Set.Icc 0 1 := by norm_num
  have hbase : (white.evaluate .zero).IsIn (Set.Icc 0 1) :=
    ⟨1, hone, 1, hone, 1, hone, by simp [white, Texture.evaluate, Vec3.one, Vec3.splat]⟩
  have hscalar : (white.scalar .zero).IsFraction := ⟨1, hone.1, hone.2, one_eq⟩
  have hreal := hscalar.isNonneg.isReal
  have hwo : wo.length = 1 := Vec3.length_ofCoords_eq_one (by rw [vec3_dotProduct']; norm_num)
  have hwi : wi.length = 1 := Vec3.length_ofCoords_eq_one (by rw [vec3_dotProduct']; norm_num)
  have hcos : Local.cosTheta wo ≠ 0 := Local.cosTheta_ne_zero.2 (by simp)
  have hcos' : Local.cosTheta wi ≠ 0 := Local.cosTheta_ne_zero.2 (by simp)
  have hside : Local.sameHemisphere wo wi = true := by
    rw [Local.sameHemisphere_ofCoords, decide_eq_true_iff]
    simp
  obtain ⟨hlobes, hvalues, -⟩ := principled_sides_agree_iff hbase hscalar hscalar hreal
  have huniform : white.scalar .zero = 0 ∨ (white.scalar .zero = 1 ∧ white.evaluate .zero = .one) :=
    .inr ⟨rfl, rfl⟩
  exact ⟨hbase, hscalar, hreal, hwo, hwi, hcos, hcos', hside, (hlobes wo hwo hcos).2 huniform,
    hvalues.2 huniform wo wi hwo hwi hcos hcos'⟩

/-- A gray plastic under a full layer, seen and lit along the normal: from above it is twice as
bright as from below, where its matte lobe is never chosen. -/
theorem principled_sides_differ :
    let gray : Texture (Exact .plus) := .constant (.splat (number (1 / 2)))
    let one : Texture (Exact .plus) := .constant .one
    let material : Bsdf (Texture (Exact .plus)) := .principled gray one (.constant .zero) one
    let lobes := principledLobes gray one (.constant .zero) one .zero
    let w : Vec3 (Exact .plus) := .ofCoords ![0, 0, 1]
    w.length = 1 ∧ Local.cosTheta w ≠ 0 ∧
      material.evaluate .zero w w = .splat (number (12 / 25 / Real.pi)) ∧
      material.evaluate .zero w.flipped w.flipped = .splat (number (1 / 4 / Real.pi)) ∧
      (lobes w).diffuseProbability = number (23 / 27) ∧
      (lobes w.flipped).diffuseProbability = 0 ∧
      material.evaluate .zero w.flipped w.flipped ≠ material.evaluate .zero w w := by
  intro gray one material lobes w
  have hunit : ![0, 0, 1] ⬝ᵥ ![0, 0, 1] = (1 : ℝ) := Coords.upright_dotProduct
  have hup : (0 : ℝ) < ![0, 0, 1] 2 := by simp
  have hself : Coords.reflected ![0, 0, 1] ![0, 0, 1] = ![0, 0, 1] := by
    rw [Coords.reflected_eq, hunit]
    ext k
    fin_cases k <;> norm_num
  have halpha : alphaOfRoughness 1 = (number 1 : Exact .plus) := by
    rw [alphaOfRoughness, one_eq, Scalar.sqr, number_mul, ofScientific_eq, max_number]
    norm_num
  have hzero : (number 0 : Exact .plus).IsFraction := ⟨0, le_rfl, zero_le_one, rfl⟩
  have habove : layer (number 0) (number 1) (number 1) = (number (2 / 25) : Exact .plus) := by
    simp [layer, Fresnel.schlick, Fresnel.schlickWeight, Scalar.clamp]
    norm_num
  have hbelow : layer (number 0) (number 1) (number (-1)) = (number 1 : Exact .plus) :=
    layer_below hzero (isReal_number 1) (by norm_num)
  let sides (f : ℝ) : PrincipledLobes (Exact .plus) :=
    .ofLayer (.ofCoords fun _ => 1 / 2) (number 0) (number 1) (number f)
  have hlobes : lobes w = sides (2 / 25) := by
    change PrincipledLobes.ofLayer _ 0 (alphaOfRoughness 1) (layer 0 1 (number 1)) = _
    rw [zero_eq, halpha, one_eq, habove]
    rfl
  have hlobes' : lobes w.flipped = sides 1 := by
    change PrincipledLobes.ofLayer _ 0 (alphaOfRoughness 1) (layer 0 1 (number (-1))) = _
    rw [zero_eq, halpha, one_eq, hbelow]
    rfl
  have hside : Local.sameHemisphere w w = true := by
    rw [Local.sameHemisphere_ofCoords, decide_eq_true_iff]
    exact mul_pos hup hup
  have hvalue (f : ℝ) : Lobe.evaluateDiffuse (sides f).diffuseColor w +
      Lobe.evaluateGlossy (sides f).metallicColor (sides f).alpha w w =
        .splat (number (((1 - f) / 2 + f / 4) / Real.pi)) := by
    have hupright := @PrincipledLobes.value_ofLayer_upright .plus (fun _ => 1 / 2) ![0, 0, 1] 0 f 1
      (number 1) one_pos hunit hup
    rw [hself] at hupright
    refine hupright.trans ?_
    simp only [Vec3.ofCoords, Vec3.splat, cons_val, uprightScale_one]
    ring_nf
  have hprobability (f : ℝ) (hf : 0 < f) :
      (sides f).diffuseProbability = number ((1 - f) / (1 + f)) := by
    rw [PrincipledLobes.diffuseProbability_ofLayer (by linarith), number_inj,
      div_eq_div_iff (by linarith) (by linarith)]
    ring
  have hvalues : material.evaluate .zero w w = .splat (number (12 / 25 / Real.pi)) := by
    refine (if_pos hside).trans ?_
    change Lobe.evaluateDiffuse (lobes w).diffuseColor w +
      Lobe.evaluateGlossy (lobes w).metallicColor (lobes w).alpha w w = _
    rw [hlobes, hvalue]
    norm_num
  have hvalues' : material.evaluate .zero w.flipped w.flipped =
      .splat (number (1 / 4 / Real.pi)) := by
    rw [Vec3.flipped_ofCoords]
    refine (evaluate_principled_flipped hside).trans ?_
    rw [← Vec3.flipped_ofCoords]
    change Lobe.evaluateDiffuse (lobes w.flipped).diffuseColor w +
      Lobe.evaluateGlossy (lobes w.flipped).metallicColor (lobes w.flipped).alpha w w = _
    rw [hlobes', hvalue]
    norm_num
  refine ⟨Vec3.length_ofCoords_eq_one hunit, Local.cosTheta_ne_zero.2 hup.ne', hvalues, hvalues',
    ?_, ?_, ?_⟩
  · rw [hlobes, hprobability (2 / 25) (by norm_num)]
    norm_num
  · rw [hlobes', hprobability 1 one_pos, zero_eq]
    norm_num
  · rw [hvalues, hvalues']
    intro h
    have hx := congrArg Vec3.x h
    simp only [Vec3.splat, number_inj] at hx
    have hpi := Real.pi_pos
    field_simp at hx
    norm_num at hx

end Bsdf

end Radiance
