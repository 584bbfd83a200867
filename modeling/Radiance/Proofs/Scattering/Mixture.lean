import Radiance.Proofs.Scattering.Cancellation

/-!
# The principled material as a mixture

The principled material samples one of its two lobes and divides the weight by the probability of
the choice.  In exact arithmetic no such probability is zero, and the value for two directions is
the sum over the lobes of probability, density and weight, so one sample estimates the value of
both lobes.

## Main definitions

* `PrincipledLobes.diffuseSample`, `PrincipledLobes.metallicAbout`: the samples of the two lobes.
* `Lobe.share`: probability, density and weight of a lobe.

## Main statements

* `Bsdf.sample_principled`: the choice between them.
* `Coords.reflected_half`: a direction is the mirror image of another about their half vector.
* `Bsdf.principled_value_eq_mixture`: the value as a sum over the lobes.
-/

namespace Radiance

open Exact Matrix

variable {z : ZeroSign}

/-! ## Choosing a lobe -/

/-- What a lobe adds to the value: the probability of the lobe, the density of the direction and the
weight.  A lobe that is never chosen adds nothing. -/
def Lobe.share {α : Type} [Scalar α] (probability density : α) (weight : Color α) : Color α :=
  if 0 < probability then (probability * density) • weight else .zero

namespace PrincipledLobes

variable {α : Type} [Scalar α]

/-- The sample of the matte lobe for a point of the unit square. -/
def diffuseSample (lobes : PrincipledLobes α) (wo : Vec3 α) (u : Vec2 α) : BsdfSample α :=
  ⟨Lobe.diffuseDirection wo u, lobes.diffuseColor / lobes.diffuseProbability⟩

/-- The sample of the metallic lobe about a normal. -/
def metallicAbout (lobes : PrincipledLobes α) (wo wh : Vec3 α) : BsdfSample α :=
  let s := Lobe.glossyAbout lobes.metallicColor lobes.alpha wo wh
  { s with weight := s.weight / (1 - lobes.diffuseProbability) }

end PrincipledLobes

theorem Bsdf.sample_principled {α σ : Type} [Scalar α] [Sampler σ α]
    (baseColor roughness metallic specular : Texture α) (uv : Vec2 α) (wo : Vec3 α) (s : σ) :
    let lobes := principledLobes baseColor roughness metallic specular uv wo
    let u := (Sampler.next₂ (Sampler.next₁ s).2).1
    ((principled baseColor roughness metallic specular).sample uv wo s).1 =
      if (Sampler.next₁ s).1 < lobes.diffuseProbability then lobes.diffuseSample wo u
      else lobes.metallicAbout wo (Microfacet.sampleVisible lobes.alpha wo u) := by
  intro lobes u
  change ((if (Sampler.next₁ s).1 < lobes.diffuseProbability then _ else _ : StateM σ _) _).1 = _
  split
  · rfl
  · rfl

/-! ## Colors and probabilities -/

namespace Vec3

variable {c d : Color (Exact z)}

theorem IsNonneg.eq_zero_of_mean (hc : c.IsNonneg) (h : c.mean = 0) : c = .zero := by
  obtain ⟨⟨r, hr, hx⟩, ⟨g, hg, hy⟩, ⟨b, hb, hz⟩⟩ := hc
  rw [Vec3.mean, hx, hy, hz, number_add, number_add, ofNat_eq, number_div _ _ three_ne_zero,
    zero_eq, number_inj] at h
  have hsum : r + g + b = 0 := by linarith
  have hr' : r = 0 := by linarith
  have hg' : g = 0 := by linarith
  have hb' : b = 0 := by linarith
  exact Vec3.ext (by rw [hx, hr', zero, splat, zero_eq]) (by rw [hy, hg', zero, splat, zero_eq])
    (by rw [hz, hb', zero, splat, zero_eq])

/-- The probability of the first of two lobes in proportion to their mean colors: a lobe that is
never chosen is black. -/
theorem eq_zero_of_probability (hc : c.IsNonneg) (hd : d.IsNonneg) {p : Exact z}
    (hp : p = if 0 < c.mean + d.mean then c.mean / (c.mean + d.mean) else 1) :
    (p = 0 → c = .zero) ∧ (p = 1 → d = .zero) := by
  obtain ⟨x, hx, hcmean⟩ := hc.mean
  obtain ⟨y, hy, hdmean⟩ := hd.mean
  rw [hcmean, hdmean, number_add, zero_eq] at hp
  simp only [number_lt] at hp
  split_ifs at hp with hsum
  · rw [number_div _ _ hsum.ne'] at hp
    refine ⟨fun hzero => hc.eq_zero_of_mean ?_, fun hone => hd.eq_zero_of_mean ?_⟩
    · rw [hp, zero_eq, number_inj, div_eq_zero_iff] at hzero
      rw [hcmean, hzero.resolve_right hsum.ne', zero_eq]
    · rw [hp, one_eq, number_inj, div_eq_one_iff_eq hsum.ne'] at hone
      rw [hdmean, show y = 0 by linarith, zero_eq]
  · refine ⟨fun hzero => ?_, fun _ => hd.eq_zero_of_mean ?_⟩
    · rw [hp, one_eq, zero_eq, number_inj] at hzero
      exact absurd hzero one_ne_zero
    · rw [hdmean, show y = 0 by linarith, zero_eq]

theorem smul_zero (s : ℝ) : ((number s : Exact z) • (zero : Color (Exact z)) : Color (Exact z)) =
    zero := by
  simp [zero, splat]

end Vec3

/-- A choice takes off the probability that the weight was divided by. -/
theorem Lobe.share_div {p : ℝ} (hp : 0 ≤ p) (k : ℝ) {c : Color (Exact z)}
    (hblack : p = 0 → c = .zero) :
    share (number p) (number k) (c / (number p : Exact z)) = (number k : Exact z) • c := by
  rw [share, zero_eq]
  simp only [number_lt]
  split
  next hpos =>
    nth_rewrite 1 [← Vec3.number_one_smul c]
    rw [Vec3.number_smul_div _ _ hpos.ne', number_mul, Vec3.number_smul_smul]
    congr 2
    field_simp
  next hzero =>
    rw [hblack (le_antisymm (not_lt.1 hzero) hp), Vec3.smul_zero]

/-! ## Half vectors -/

namespace Coords

variable {o i : Fin 3 → ℝ}

/-- A unit direction is the mirror image of another about their half vector. -/
theorem reflected_half (ho : o ⬝ᵥ o = 1) (hi : i ⬝ᵥ i = 1) (hne : i + o ≠ 0) :
    unit (i + o) ⬝ᵥ unit (i + o) = 1 ∧ 0 < unit (i + o) ⬝ᵥ o ∧ reflected o (unit (i + o)) = i := by
  have hlength := length_pos hne
  have hself : length (i + o) * length (i + o) = 2 * ((i + o) ⬝ᵥ o) := by
    rw [length_mul_self]
    simp only [add_dotProduct, dotProduct_add, ho, hi, dotProduct_comm o i]
    ring
  have hdot : unit (i + o) ⬝ᵥ o = length (i + o) / 2 := by
    rw [unit, smul_dotProduct, smul_eq_mul, inv_mul_eq_div, div_eq_div_iff hlength.ne' two_ne_zero]
    linear_combination -hself
  refine ⟨unit_dotProduct_unit hne, hdot ▸ half_pos hlength, ?_⟩
  rw [reflected_eq, hdot, mul_div_cancel₀ _ two_ne_zero, unit, smul_smul,
    mul_inv_cancel₀ hlength.ne', one_smul, add_sub_cancel_right]

end Coords

/-- Two unit directions on one side of the surface are reflected into each other about their half
vector, which is a visible normal. -/
theorem Vec3.exists_half {o i : Fin 3 → ℝ} (ho : o ⬝ᵥ o = 1) (hi : i ⬝ᵥ i = 1)
    (hside : Local.sameHemisphere (.ofCoords o : Vec3 (Exact z)) (.ofCoords i) = true) :
    ∃ h, (ofCoords i + ofCoords o : Vec3 (Exact z)).normalize? = some (ofCoords h) ∧
      Microfacet.IsVisible (.ofCoords o : Vec3 (Exact z)) (.ofCoords h) ∧
      (ofCoords o : Vec3 (Exact z)).reflect (ofCoords h) = ofCoords i := by
  have hsum := Local.height_add_pos hside
  have hne := Local.add_ne_zero hside
  obtain ⟨hunit, hfacing, hreflected⟩ := Coords.reflected_half ho hi hne
  refine ⟨Coords.unit (i + o), ?_, Microfacet.isVisible_ofCoords.2 ⟨hunit, ?_, hfacing⟩, ?_⟩
  · rw [add_ofCoords, normalize?_ofCoords hne]
  · rw [Coords.unit, Pi.smul_apply, smul_eq_mul, mul_left_comm]
    exact mul_pos (inv_pos.2 (Coords.length_pos hne)) hsum
  · rw [reflect_ofCoords, hreflected]

/-! ## The mixture -/

namespace PrincipledLobes

variable {lobes : PrincipledLobes (Exact z)} {o i h : Fin 3 → ℝ}

/-- The matte lobe: the density is that of the cosine. -/
theorem evaluateDiffuse_eq (hp : lobes.diffuseProbability.IsNonneg)
    (hblack : lobes.diffuseProbability = 0 → lobes.diffuseColor = .zero) (i : Fin 3 → ℝ)
    (wo : Vec3 (Exact z)) (u : Vec2 (Exact z)) :
    Lobe.evaluateDiffuse lobes.diffuseColor (.ofCoords i) =
      Lobe.share lobes.diffuseProbability (Local.absCosTheta (.ofCoords i) / Scalar.pi)
        (lobes.diffuseSample wo u).weight := by
  obtain ⟨p, hp, heq⟩ := hp
  have hcos : Local.absCosTheta (.ofCoords i : Vec3 (Exact z)) = number |i 2| := rfl
  rw [diffuseSample, heq, hcos, pi_eq, number_div _ _ Real.pi_ne_zero,
    Lobe.share_div hp _ fun hzero => hblack (by rw [heq, hzero, zero_eq]), Lobe.evaluateDiffuse,
    Scalar.invPi, pi_eq, one_eq, number_div _ _ Real.pi_ne_zero, hcos, Vec3.number_smul_smul,
    one_div_mul_eq_div]

/-- The metallic lobe: the density is that of the mirrored direction. -/
theorem evaluateGlossy_eq (hp : (1 - lobes.diffuseProbability).IsNonneg)
    (hblack : 1 - lobes.diffuseProbability = 0 → lobes.metallicColor = .zero)
    (halpha : lobes.alpha.IsPos)
    (hvisible : Microfacet.IsVisible (.ofCoords o : Vec3 (Exact z)) (.ofCoords h))
    (hside : Local.sameHemisphere (.ofCoords o : Vec3 (Exact z))
      ((Vec3.ofCoords o).reflect (.ofCoords h)) = true) :
    Lobe.evaluateGlossy lobes.metallicColor lobes.alpha (.ofCoords o)
        ((Vec3.ofCoords o).reflect (.ofCoords h)) =
      Lobe.share (1 - lobes.diffuseProbability)
        (Microfacet.visiblePdf lobes.alpha (.ofCoords h) (.ofCoords o) *
          Microfacet.reflectionJacobian (.ofCoords h) (.ofCoords o))
        (lobes.metallicAbout (.ofCoords o) (.ofCoords h)).weight := by
  obtain ⟨p, hp, heq⟩ := hp
  obtain ⟨m, hm⟩ := Microfacet.exists_masking halpha h (Coords.reflected o h)
  obtain ⟨k, -, hk⟩ := Microfacet.isPos_visiblePdf_mul halpha hvisible
  obtain ⟨hh, -, hfacing⟩ := Microfacet.isVisible_ofCoords.1 hvisible
  have hblack' (hzero : p = 0) : ((number m : Exact z) • lobes.metallicColor : Color (Exact z)) =
      .zero := by
    rw [hblack (by rw [heq, hzero, zero_eq]), Vec3.smul_zero]
  have hweight : (lobes.metallicAbout (.ofCoords o) (.ofCoords h)).weight =
      (Microfacet.masking lobes.alpha (.ofCoords h) ((Vec3.ofCoords o).reflect (.ofCoords h)) •
        lobes.metallicColor) / (1 - lobes.diffuseProbability) := by
    rw [metallicAbout, Lobe.glossyAbout, if_pos hside]
  rw [Lobe.evaluateGlossy_reflect halpha hh hfacing hside, hweight, hk, heq, Vec3.reflect_ofCoords,
    hm, Lobe.share_div hp _ hblack']

end PrincipledLobes

namespace Bsdf

open Microfacet

variable {σ : Type} [Sampler σ (Exact z)]

theorem eq_one_of_one_sub {p : Exact z} (hp : p.IsFraction) (h : 1 - p = 0) : p = 1 := by
  obtain ⟨x, -, -, rfl⟩ := hp
  rw [one_eq, number_sub, zero_eq, number_inj] at h
  rw [one_eq, number_inj]
  linarith

/-- The metallic lobe has what the layer reflects, and the two lobes share the base under it. -/
theorem splat_add_share {f m : Exact z} {c : Color (Exact z)} (hf : f.IsReal) (hm : m.IsReal)
    (hc : c.IsReal) :
    (((1 - f) * (1 - m)) • c + (.splat f + ((1 - f) * m) • c) : Color (Exact z)) =
      .splat f + (1 - f) • c := by
  obtain ⟨f, rfl⟩ := hf
  obtain ⟨m, rfl⟩ := hm
  obtain ⟨r, g, b, rfl⟩ := hc
  have hchannel (x : ℝ) : (1 - f) * (1 - m) * x + (f + (1 - f) * m * x) = f + (1 - f) * x := by
    ring
  simp only [Vec3.splat, Vec3.smul_mk, Vec3.mk_add, one_eq, number_sub, number_mul, number_add,
    hchannel]

/-- The lobes of a principled material share the base color and what the layer over it reflects.  A
lobe is sampled only if its probability is not zero, and the value for two directions on one side is
the sum of what the lobes add to it. -/
theorem principled_value_eq_mixture
    {baseColor roughness metallic specular : Texture (Exact z)} {uv : Vec2 (Exact z)}
    {wo : Vec3 (Exact z)} (hbase : (baseColor.evaluate uv).IsIn (Set.Icc 0 1))
    (hmetallic : (metallic.scalar uv).IsFraction) (hspecular : (specular.scalar uv).IsFraction)
    (hroughness : (roughness.scalar uv).IsReal) (hwo : wo.length = 1)
    (hcos : Local.cosTheta wo ≠ 0) :
    let material : Bsdf (Texture (Exact z)) := .principled baseColor roughness metallic specular
    let lobes := principledLobes baseColor roughness metallic specular uv wo
    let p := lobes.diffuseProbability
    let f := specular.scalar uv *
      Fresnel.schlick ((1 - metallic.scalar uv) * 0.08) (Local.cosTheta wo)
    p.IsFraction ∧
    lobes.diffuseColor + lobes.metallicColor = .splat f + (1 - f) • baseColor.evaluate uv ∧
    (∀ s : σ, Sampler.DrawsUnit s →
      let choice := (Sampler.next₁ s).1
      let u := (Sampler.next₂ (Sampler.next₁ s).2).1
      let wh := sampleVisible lobes.alpha wo u
      (choice < p → p.IsPos ∧ (material.sample uv wo s).1 = lobes.diffuseSample wo u) ∧
      (¬choice < p → (1 - p).IsPos ∧ IsVisible wo wh ∧
        (material.sample uv wo s).1 = lobes.metallicAbout wo wh)) ∧
    ∀ (wi : Vec3 (Exact z)) (u : Vec2 (Exact z)), wi.length = 1 →
      Local.sameHemisphere wo wi = true →
      ∃ wh, (wi + wo).normalize? = some wh ∧ IsVisible wo wh ∧
        (lobes.metallicAbout wo wh).wi = wi ∧
        material.evaluate uv wo wi =
          Lobe.share p (Local.absCosTheta wi / Scalar.pi) (lobes.diffuseSample wo u).weight +
          Lobe.share (1 - p) (visiblePdf lobes.alpha wh wo * reflectionJacobian wh wo)
            (lobes.metallicAbout wo wh).weight := by
  obtain ⟨o, ho, rfl⟩ := Vec3.exists_coords_of_length hwo
  have ho' := Local.cosTheta_ne_zero.1 hcos
  intro material lobes p f
  obtain ⟨r, hr, g, hg, b, hb, hcolor⟩ := hbase
  have hnonneg : (baseColor.evaluate uv).IsNonneg :=
    ⟨⟨r, hr.1, hcolor ▸ rfl⟩, ⟨g, hg.1, hcolor ▸ rfl⟩, ⟨b, hb.1, hcolor ▸ rfl⟩⟩
  have hlobes : lobes.IsPhysical :=
    isPhysical_lobes hnonneg (isPos_alphaOfRoughness hroughness) hmetallic hspecular o
  have hblack := Vec3.eq_zero_of_probability hlobes.diffuseColor hlobes.metallicColor
    (rfl : p = _)
  have hp := hlobes.diffuseProbability
  refine ⟨hp, splat_add_share (isFraction_layer hmetallic hspecular o).isNonneg.isReal
    hmetallic.isNonneg.isReal ⟨r, g, b, hcolor⟩, fun s hs => ?_, fun wi u hwi hside => ?_⟩
  · obtain ⟨hchoice, hs'⟩ := Sampler.ensures_next₁ s hs
    obtain ⟨hx, hy⟩ := (Sampler.ensures_next₂ _ hs').1
    have hpos := isPos_of_choice hchoice hp
    have hsample := sample_principled baseColor roughness metallic specular uv (.ofCoords o) s
    exact ⟨fun hdiffuse => ⟨hpos.1 hdiffuse, hsample.trans (if_pos hdiffuse)⟩, fun hmetal =>
      ⟨hpos.2 hmetal, isVisible_sampleVisible hlobes.alpha ho' hx hy,
        hsample.trans (if_neg hmetal)⟩⟩
  · obtain ⟨i, hi, rfl⟩ := Vec3.exists_coords_of_length hwi
    obtain ⟨h, hhalf, hvisible, hreflect⟩ := Vec3.exists_half ho hi hside
    have hsame := hreflect ▸ hside
    refine ⟨.ofCoords h, hhalf, hvisible, ?_, ?_⟩
    · rw [PrincipledLobes.metallicAbout, Lobe.glossyAbout, if_pos hsame, hreflect]
    · have hmetal := PrincipledLobes.evaluateGlossy_eq hp.one_sub.isNonneg (fun hzero =>
        hblack.2 (eq_one_of_one_sub hp hzero)) hlobes.alpha hvisible hsame
      rw [hreflect] at hmetal
      rw [← hmetal, ← PrincipledLobes.evaluateDiffuse_eq hp.isNonneg hblack.1]
      exact if_pos hside

/-- A gray material, half of metal, seen and lit at the same angle from two sides. -/
theorem principled_value_eq_mixture_gray :
    let half : Texture (Exact .plus) := .constant (.splat (number (1 / 2)))
    let material : Bsdf (Texture (Exact .plus)) := .principled half half half half
    let wo : Vec3 (Exact .plus) := .ofCoords ![3 / 5, 0, 4 / 5]
    let wi : Vec3 (Exact .plus) := .ofCoords ![0, 3 / 5, 4 / 5]
    let lobes := principledLobes half half half half .zero wo
    let p := lobes.diffuseProbability
    let s : Replay (Exact .plus) := ⟨#[number (1 / 4), number (1 / 2)], 1, 0⟩
    let choice := (Sampler.next₁ s).1
    (half.evaluate .zero).IsIn (Set.Icc 0 1) ∧ (half.scalar .zero).IsFraction ∧
      (half.scalar .zero).IsReal ∧ wo.length = 1 ∧ Local.cosTheta wo ≠ 0 ∧ p.IsFraction ∧
      Sampler.DrawsUnit s ∧ (choice < p → p.IsPos) ∧ (¬choice < p → (1 - p).IsPos) ∧
      wi.length = 1 ∧ Local.sameHemisphere wo wi = true ∧
      ∃ wh, IsVisible wo wh ∧ (lobes.metallicAbout wo wh).wi = wi ∧
        material.evaluate .zero wo wi =
          Lobe.share p (Local.absCosTheta wi / Scalar.pi) (lobes.diffuseSample wo .zero).weight +
          Lobe.share (1 - p) (visiblePdf lobes.alpha wh wo * reflectionJacobian wh wo)
            (lobes.metallicAbout wo wh).weight := by
  intro half material wo wi lobes p s choice
  have hhalf : (1 / 2 : ℝ) ∈ Set.Icc 0 1 := by norm_num
  have hbase : (half.evaluate .zero).IsIn (Set.Icc 0 1) := ⟨_, hhalf, _, hhalf, _, hhalf, rfl⟩
  have hscalar : (half.scalar .zero).IsFraction := ⟨_, hhalf.1, hhalf.2, rfl⟩
  have hreal := hscalar.isNonneg.isReal
  have hwo : wo.length = 1 := Vec3.length_ofCoords_eq_one (by rw [vec3_dotProduct']; norm_num)
  have hwi : wi.length = 1 := Vec3.length_ofCoords_eq_one (by rw [vec3_dotProduct']; norm_num)
  have hcos : Local.cosTheta wo ≠ 0 := by simp [Local.cosTheta, wo, Vec3.ofCoords]
  have hside : Local.sameHemisphere wo wi = true := by
    rw [Local.sameHemisphere_ofCoords, decide_eq_true_iff]
    simp
  have hs : Sampler.DrawsUnit s := Sampler.drawsUnit_pair (by norm_num) (by norm_num) 1 0
  obtain ⟨hp, -, hsampled, hvalue⟩ := principled_value_eq_mixture (σ := Replay (Exact .plus))
    hbase hscalar hscalar hreal hwo hcos
  obtain ⟨hdiffuse, hmetal⟩ := hsampled s hs
  obtain ⟨wh, -, hmixture⟩ := hvalue wi .zero hwi hside
  exact ⟨hbase, hscalar, hreal, hwo, hcos, hp, hs, fun h => (hdiffuse h).1, fun h => (hmetal h).1,
    hwi, hside, wh, hmixture⟩

end Bsdf

end Radiance
