import Radiance.Proofs.Scattering.Normals

/-!
# Smooth interfaces

What a smooth interface does with light, in exact arithmetic.  Its two sides agree: with the
reciprocal index refraction leads back, and the same part of the light is reflected.  Smooth glass
loses no light either: where no direction leads to the far side everything is reflected, so each
draw gives a direction, which follows the law of reflection or the law of Snell.

## Main statements

* `Fresnel.dielectric_eq_one`, `Vec3.refract_eq_zero_iff`: the two tests for total reflection.
* `Vec3.refract_refract`: refraction is reversible.
* `Bsdf.dielectric_sample_follows_draw`: what smooth glass samples.
-/

namespace Radiance

open Exact Matrix

variable {z : ZeroSign} {w n : Fin 3 → ℝ} {eta : ℝ}

/-! ## Total reflection -/

theorem Fresnel.dielectric_eq_one {c : ℝ} (heta : 0 < eta) (hc : 0 ≤ c)
    (htotal : Coords.farCosine2 eta c ≤ 0) :
    (dielectric (number c) (number eta) : Exact z) = 1 := by
  rw [dielectric_number heta hc, if_pos htotal, one_eq]

namespace Vec3

theorem refract_of_nonneg (heta : 0 < eta) (hfar : 0 ≤ Coords.farCosine2 eta (n ⬝ᵥ w)) :
    (ofCoords w : Vec3 (Exact z)).refract (ofCoords n) (number eta) =
      ofCoords (Coords.refracted w n eta) := by
  rw [refract_ofCoords _ _ heta.ne', if_neg (not_lt.2 hfar)]

/-- A refracted direction has unit length, so zero stands for total reflection alone. -/
theorem refract_eq_zero_iff (hw : w ⬝ᵥ w = 1) (hn : n ⬝ᵥ n = 1) (heta : 0 < eta) :
    (ofCoords w : Vec3 (Exact z)).refract (ofCoords n) (number eta) = zero ↔
      Coords.farCosine2 eta (n ⬝ᵥ w) < 0 := by
  rw [refract_ofCoords _ _ heta.ne']
  split_ifs with htotal
  · simp [htotal]
  · have hunit := Coords.refracted_dotProduct_self hw hn (not_lt.1 htotal)
    simp [htotal, ← ofCoords_zero, ofCoords_inj, Coords.ne_zero_of_dotProduct_self hunit]

/-- Refraction is reversible: a refracted direction is a unit vector beyond the interface, it is
refracted back to the first one, and as much light is reflected on the way back. -/
theorem refract_refract {w n : Vec3 (Exact z)} {eta : Exact z} (hw : w.length = 1)
    (hn : n.length = 1) (hside : 0 < n.dot w) (heta : eta.IsPos)
    (hfar : 0 < 1 - (1 - Scalar.sqr (n.dot w)) / Scalar.sqr eta) :
    let t := w.refract n eta
    t.length = 1 ∧ n.dot t < 0 ∧ t.refract (-n) (1 / eta) = w ∧
      Fresnel.dielectric (n.dot w) eta = Fresnel.dielectric (-n.dot t) (1 / eta) := by
  obtain ⟨w, hw', rfl⟩ := exists_coords_of_length hw
  obtain ⟨n, hn', rfl⟩ := exists_coords_of_length hn
  obtain ⟨e, he, rfl⟩ := heta
  intro t
  rw [dot_ofCoords, zero_eq, number_lt] at hside
  have hfar : 0 < Coords.farCosine2 e (n ⬝ᵥ w) := by
    simp only [dot_ofCoords, Scalar.sqr, one_eq, zero_eq, number_mul, number_sub,
      number_div _ _ (mul_self_ne_zero.2 he.ne'), number_lt] at hfar
    rw [Coords.farCosine2]
    field_simp at hfar ⊢
    linarith
  have ht : t = ofCoords (Coords.refracted w n e) := refract_of_nonneg he hfar.le
  have hpos := Real.sqrt_pos.2 hfar
  have hdot : n ⬝ᵥ Coords.refracted w n e = -√(Coords.farCosine2 e (n ⬝ᵥ w)) := by
    rw [dotProduct_comm, Coords.refracted_dotProduct hn']
  -- The cosine on the far side, seen from there, and the cosine beyond the interface.
  have hback : -n ⬝ᵥ Coords.refracted w n e = √(Coords.farCosine2 e (n ⬝ᵥ w)) := by
    rw [neg_dotProduct, hdot, neg_neg]
  have hnear := Coords.farCosine2_sqrt he.ne' hfar.le
  have hinv : 0 < 1 / e := one_div_pos.2 he
  have hindex : (1 / number e : Exact z) = number (1 / e) := by rw [one_eq, number_div _ _ he.ne']
  rw [ht, hindex, neg_ofCoords, dot_ofCoords, dot_ofCoords, hdot, number_neg, neg_neg]
  refine ⟨?_, ?_, ?_, ?_⟩
  · exact length_ofCoords_eq_one (Coords.refracted_dotProduct_self hw' hn' hfar.le)
  · rw [zero_eq, number_lt]
    exact neg_lt_zero.2 hpos
  · rw [refract_of_nonneg hinv (by rw [hback, hnear]; exact mul_self_nonneg _),
      Coords.refracted_refracted he.ne' hn' hside.le hfar.le]
  · rw [Fresnel.dielectric_number he hside.le, Fresnel.dielectric_number hinv hpos.le, hnear,
      if_neg (not_le.2 hfar), if_neg (not_le.2 (mul_self_pos.2 hside.ne')),
      Real.sqrt_mul_self hside.le, Fresnel.reflectance_one_div he.ne']

/-- Out of glass and back into it, at an angle near the critical one. -/
theorem refract_refract_oblique :
    let w : Vec3 (Exact .plus) := .ofCoords ![3 / 5, 0, 4 / 5]
    let n : Vec3 (Exact .plus) := .ofCoords ![0, 0, 1]
    let eta : Exact .plus := number (3 / 4)
    let t : Vec3 (Exact .plus) := .ofCoords ![-4 / 5, 0, -3 / 5]
    w.length = 1 ∧ n.length = 1 ∧ 0 < n.dot w ∧ eta.IsPos ∧
      0 < 1 - (1 - Scalar.sqr (n.dot w)) / Scalar.sqr eta ∧ w.refract n eta = t ∧
      t.length = 1 ∧ n.dot t < 0 ∧ t.refract (-n) (1 / eta) = w ∧
      Fresnel.dielectric (n.dot w) eta = Fresnel.dielectric (-n.dot t) (1 / eta) := by
  intro w n eta t
  have hw : w.length = 1 := length_ofCoords_eq_one (by rw [vec3_dotProduct']; norm_num)
  have hn : n.length = 1 := length_ofCoords_eq_one (by rw [vec3_dotProduct']; norm_num)
  have hcosine : ![0, 0, 1] ⬝ᵥ ![3 / 5, 0, 4 / 5] = (4 / 5 : ℝ) := by
    rw [Coords.pole_dotProduct, one_mul]
    rfl
  have hdot : n.dot w = number (4 / 5) := by rw [dot_ofCoords, hcosine]
  have hside : 0 < n.dot w := by
    rw [hdot, zero_eq, number_lt]
    norm_num
  have heta : eta.IsPos := isPos_number (by norm_num)
  have hfar : 0 < 1 - (1 - Scalar.sqr (n.dot w)) / Scalar.sqr eta := by
    rw [hdot, Scalar.sqr, Scalar.sqr, number_mul, number_mul, one_eq, number_sub,
      number_div _ _ (by norm_num), number_sub, zero_eq, number_lt]
    norm_num
  have hsquare : Coords.farCosine2 (3 / 4) (4 / 5) = 3 / 5 * (3 / 5) := by
    norm_num [Coords.farCosine2]
  have ht : w.refract n eta = t := by
    rw [refract_of_nonneg (by norm_num) (by rw [hcosine, hsquare]; norm_num), Coords.refracted,
      hcosine, hsquare, Real.sqrt_mul_self (by norm_num)]
    congr 1
    ext k
    fin_cases k <;> norm_num
  have hback := refract_refract hw hn hside heta hfar
  rw [ht] at hback
  exact ⟨hw, hn, hside, heta, hfar, ht, hback⟩

end Vec3

/-! ## Smooth glass -/

namespace Bsdf

variable {ior u : Exact z} {r t : Color (Exact z)} {o : Fin 3 → ℝ}

theorem dielectricSample_of_reflects {s : ℝ} (hs : s * s = 1)
    (hnormal : sideNormal (.ofCoords o : Vec3 (Exact z)) = .ofCoords ![0, 0, s])
    (hreflects : reflects ior (.ofCoords o) u = true) :
    dielectricSample ior r t (.ofCoords o) u = ⟨.ofCoords ![-o 0, -o 1, o 2], r⟩ := by
  simp only [dielectricSample, if_pos hreflects, hnormal, Vec3.reflect_ofCoords,
    Coords.reflected_pole hs]

/-- A draw from the unit interval is refracted only where a direction leads to the far side. -/
theorem farCosine2_pos_of_refracts (heta : 0 < eta)
    (hior : relativeIor ior (.ofCoords o) = number eta) (hu : u.IsDraw)
    (hrefracts : ¬reflects ior (.ofCoords o) u = true) : 0 < Coords.farCosine2 eta |o 2| := by
  by_contra hfar
  obtain ⟨x, -, hx, rfl⟩ := hu
  rw [reflects, hior, Local.absCosTheta_ofCoords,
    Fresnel.dielectric_eq_one heta (abs_nonneg _) (not_lt.1 hfar), one_eq, decide_eq_true_iff,
    number_le] at hrefracts
  exact hrefracts hx.le

/-- What is refracted is a unit vector as it is found. -/
theorem dielectricSample_of_refracts (heta : 0 < eta)
    (hior : relativeIor ior (.ofCoords o) = number eta)
    (hnormal : sideNormal (.ofCoords o : Vec3 (Exact z)) = .ofCoords n) (ho : o ⬝ᵥ o = 1)
    (hn : n ⬝ᵥ n = 1) (hfar : 0 ≤ Coords.farCosine2 eta (n ⬝ᵥ o))
    (hrefracts : ¬reflects ior (.ofCoords o) u = true) :
    dielectricSample ior r t (.ofCoords o) u =
      ⟨.ofCoords (Coords.refracted o n eta), t / (number eta * number eta : Exact z)⟩ := by
  have hunit := Coords.refracted_dotProduct_self ho hn hfar
  have hne := Coords.ne_zero_of_dotProduct_self hunit
  have hzero : ¬(Vec3.ofCoords (Coords.refracted o n eta) : Vec3 (Exact z)).isZero = true :=
    fun h => hne (Vec3.isZero_ofCoords.1 h)
  simp only [dielectricSample, if_neg hrefracts, hior, hnormal, Vec3.refract_of_nonneg heta hfar,
    if_neg hzero, Vec3.normalize_ofCoords hne, Coords.unit_eq_self hunit]

variable {σ : Type} [Sampler σ (Exact z)]

/-- Smooth glass loses no path: its Fresnel term is all of the light wherever nothing is refracted,
so a draw above it always finds the direction of the law of Snell beyond the surface, and a draw up
to it the mirror image on the side of `wo`. -/
theorem dielectric_sample_follows_draw {ior reflectance transmittance : Texture (Exact z)}
    {uv : Vec2 (Exact z)} {wo : Vec3 (Exact z)} {s : σ} (hior : (ior.scalar uv).IsPos)
    (hwo : wo.length = 1) (hcos : Local.cosTheta wo ≠ 0)
    (hdraw : (Sampler.next₁ s : Exact z × σ).1.IsDraw) :
    let glass : Bsdf (Texture (Exact z)) := .dielectric ior reflectance transmittance
    let outside := 0 < Local.cosTheta wo
    let eta := if outside then ior.scalar uv else 1 / ior.scalar uv
    let n : Vec3 (Exact z) := if outside then .unitZ else ⟨0, 0, -1⟩
    let F := Fresnel.dielectric (Local.absCosTheta wo) eta
    let u := (Sampler.next₁ s : Exact z × σ).1
    let sample := (glass.sample uv wo s).1
    F.IsFraction ∧ (wo.refract n eta = .zero → F = 1) ∧ sample.wi.length = 1 ∧
      (u ≤ F → sample.wi = wo.reflect n ∧ sample.wi = ⟨-wo.x, -wo.y, wo.z⟩ ∧
        sample.weight = reflectance.evaluate uv) ∧
      (¬u ≤ F → wo.refract n eta ≠ .zero ∧ sample.wi = wo.refract n eta ∧
        sample.wi.z * wo.z < 0 ∧ sample.wi.x = -wo.x / eta ∧ sample.wi.y = -wo.y / eta ∧
        sample.weight = transmittance.evaluate uv / (eta * eta)) := by
  obtain ⟨o, ho, rfl⟩ := Vec3.exists_coords_of_length hwo
  intro glass outside eta n F u sample
  obtain ⟨e, he, heta⟩ : eta.IsPos := isPos_relativeIor hior (.ofCoords o)
  obtain ⟨s', hs', hup, hnormal⟩ := exists_coords_sideNormal (z := z) o
  have hn : n = .ofCoords ![0, 0, s'] := hnormal
  have hpole : ![0, 0, s'] ⬝ᵥ ![0, 0, s'] = 1 := (Coords.pole_dotProduct s' _).trans hs'
  have hcosine : ![0, 0, s'] ⬝ᵥ o = |o 2| := (Coords.pole_dotProduct s' o).trans hup
  have hmirror : (Vec3.ofCoords o).reflect n = .ofCoords ![-o 0, -o 1, o 2] := by
    rw [hn, Vec3.reflect_ofCoords, Coords.reflected_pole hs']
  have hreflected : u ≤ F → sample = ⟨.ofCoords ![-o 0, -o 1, o 2], reflectance.evaluate uv⟩ :=
    fun hu => dielectricSample_of_reflects hs' hnormal (decide_eq_true hu)
  have hrefracted : ¬u ≤ F → 0 < Coords.farCosine2 e (![0, 0, s'] ⬝ᵥ o) ∧
      sample = ⟨.ofCoords (Coords.refracted o ![0, 0, s'] e),
        transmittance.evaluate uv / (number e * number e : Exact z)⟩ := by
    intro hu
    have hrefracts : ¬reflects (ior.scalar uv) (.ofCoords o) u = true :=
      fun h => hu (of_decide_eq_true h)
    have hfar := hcosine ▸ farCosine2_pos_of_refracts he heta hdraw hrefracts
    exact ⟨hfar, dielectricSample_of_refracts he heta hnormal ho hpole hfar.le hrefracts⟩
  clear_value sample
  refine ⟨isFraction_fresnel ⟨e, he, heta⟩ o, fun htotal => ?_, ?_, fun hu => ?_, fun hu => ?_⟩
  · rw [hn, heta, Vec3.refract_eq_zero_iff ho hpole he, hcosine] at htotal
    exact (congrArg _ heta).trans (Fresnel.dielectric_eq_one he (abs_nonneg _) htotal.le)
  · by_cases hu : u ≤ F
    · rw [hreflected hu]
      refine Vec3.length_ofCoords_eq_one ?_
      rw [← Coords.reflected_pole hs', Coords.reflected_dotProduct_self hpole, ho]
    · obtain ⟨hfar, hsample⟩ := hrefracted hu
      rw [hsample]
      exact Vec3.length_ofCoords_eq_one (Coords.refracted_dotProduct_self ho hpole hfar.le)
  · rw [hreflected hu]
    exact ⟨hmirror.symm, rfl, rfl⟩
  · obtain ⟨hfar, hsample⟩ := hrefracted hu
    have hside : 0 < ![0, 0, s'] ⬝ᵥ o := by
      rw [hcosine]
      exact abs_pos.2 (Local.cosTheta_ne_zero.1 hcos)
    have hbeyond := Coords.refracted_pole_beyond hs' hside hfar
    rw [hn, heta, Ne, Vec3.refract_eq_zero_iff ho hpole he, not_lt,
      Vec3.refract_of_nonneg he hfar.le, hsample]
    rw [Coords.refracted_pole hs'] at hbeyond ⊢
    refine ⟨hcosine ▸ hfar.le, rfl, ?_, ?_, ?_, rfl⟩
    · rw [Vec3.ofCoords, Vec3.ofCoords, number_mul, zero_eq, number_lt]
      exact hbeyond
    · simp only [Vec3.ofCoords, cons_val, number_neg, number_div _ _ he.ne']
    · simp only [Vec3.ofCoords, cons_val, number_neg, number_div _ _ he.ne']

/-- From inside, near the critical angle. -/
theorem dielectric_sample_follows_draw_inside :
    let white : Texture (Exact .plus) := .constant .one
    let ior : Texture (Exact .plus) := .constant (.splat (number (4 / 3)))
    let glass : Bsdf (Texture (Exact .plus)) := .dielectric ior white white
    let wo : Vec3 (Exact .plus) := .ofCoords ![3 / 5, 0, -4 / 5]
    let s : Replay (Exact .plus) := ⟨#[number (1 / 4), number (1 / 2)], 1, 1⟩
    let sample := (glass.sample .zero wo s).1
    (ior.scalar .zero).IsPos ∧ wo.length = 1 ∧ Local.cosTheta wo ≠ 0 ∧
      (Sampler.next₁ s : Exact .plus × Replay (Exact .plus)).1.IsDraw ∧ sample.wi.length = 1 ∧
      sample.wi = .ofCoords ![-4 / 5, 0, 3 / 5] ∧
      sample.weight = .splat (number (16 / 9)) := by
  intro white ior glass wo s sample
  have hior : (ior.scalar .zero).IsPos := isPos_number (by norm_num)
  have hwo : wo.length = 1 := Vec3.length_ofCoords_eq_one (by rw [vec3_dotProduct']; norm_num)
  have hcos : Local.cosTheta wo ≠ 0 := by simp [Local.cosTheta, wo, Vec3.ofCoords]
  have hdraw : (Sampler.next₁ s : Exact .plus × Replay (Exact .plus)).1.IsDraw :=
    (Sampler.drawsUnit_pair (by norm_num) (by norm_num) 1 1 : Sampler.DrawsUnit s) 0
  have hinside : ¬(0 : Exact .plus) < Local.cosTheta wo := by
    simp only [Local.cosTheta, wo, Vec3.ofCoords, cons_val, zero_eq, number_lt]
    norm_num
  have heta : 1 / ior.scalar .zero = number (3 / 4) := by
    change (1 / number (4 / 3) : Exact .plus) = _
    rw [one_eq, number_div _ _ (by norm_num)]
    norm_num
  have hsquare : Coords.farCosine2 (3 / 4) (4 / 5) = 3 / 5 * (3 / 5) := by
    norm_num [Coords.farCosine2]
  have hheight : |![3 / 5, 0, -4 / 5] 2| = (4 / 5 : ℝ) := by
    change |(-4 / 5 : ℝ)| = 4 / 5
    norm_num [abs_div]
  have hF : Fresnel.dielectric (Local.absCosTheta wo) (number (3 / 4)) = number (49 / 1250) := by
    rw [Local.absCosTheta_ofCoords, hheight,
      Fresnel.dielectric_number (by norm_num) (by norm_num), hsquare, if_neg (by norm_num),
      Real.sqrt_mul_self (by norm_num)]
    norm_num [Fresnel.reflectance]
  have hrefract : wo.refract ⟨0, 0, -1⟩ (number (3 / 4)) = .ofCoords ![-4 / 5, 0, 3 / 5] := by
    have hn : (⟨0, 0, -1⟩ : Vec3 (Exact .plus)) = .ofCoords ![0, 0, -1] := by simp [Vec3.ofCoords]
    have hdot : ![0, 0, -1] ⬝ᵥ ![3 / 5, 0, -4 / 5] = (4 / 5 : ℝ) := by
      rw [vec3_dotProduct']
      norm_num
    rw [hn, Vec3.refract_of_nonneg (by norm_num) (by rw [hdot, hsquare]; norm_num),
      Coords.refracted_pole (by norm_num), ← Coords.pole_dotProduct, hdot, hsquare,
      Real.sqrt_mul_self (by norm_num)]
    norm_num
  have hrefracts : ¬(Sampler.next₁ s : Exact .plus × Replay (Exact .plus)).1 ≤
      Fresnel.dielectric (Local.absCosTheta wo) (number (3 / 4)) := by
    change ¬(number (1 / 2) : Exact .plus) ≤ _
    rw [hF, number_le]
    norm_num
  have hsample := @dielectric_sample_follows_draw .plus _ _ ior white white .zero wo s hior hwo hcos
    hdraw
  simp only [if_neg hinside, heta] at hsample
  obtain ⟨-, -, hlength, -, hdrawn⟩ := hsample
  obtain ⟨-, hwi, -, -, -, hweight⟩ := hdrawn hrefracts
  refine ⟨hior, hwo, hcos, hdraw, hlength, hwi.trans hrefract, hweight.trans ?_⟩
  have hchannel : (1 / (number (3 / 4) * number (3 / 4)) : Exact .plus) = number (16 / 9) := by
    rw [one_eq, number_mul, number_div _ _ (by norm_num)]
    norm_num
  exact Vec3.ext hchannel hchannel hchannel

end Bsdf

end Radiance
