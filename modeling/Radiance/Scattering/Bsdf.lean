import Radiance.Geometry.Warp
import Radiance.Random.Sampler
import Radiance.Scattering.Fresnel
import Radiance.Scattering.Microfacet
import Radiance.Texture

/-!
# Scattering at surfaces

How a surface scatters light, in the local frame where the normal is the third axis.  Both
directions point away from the surface.

## Main definitions

* `Bsdf`: the materials, over any kind of parameter.
* `Bsdf.evaluate`: the scattered fraction for two directions, with the cosine of the second.
* `Bsdf.sample`: a random second direction with the value over its density.
-/

namespace Radiance

/-- A material with parameters of type `τ`. -/
inductive Bsdf (τ : Type)
  /-- A matte reflector. -/
  | diffuse (albedo : τ)
  /-- Smooth glass. -/
  | dielectric (ior reflectance transmittance : τ)
  /-- Rough metal without a Fresnel term. -/
  | roughConductor (reflectance roughness : τ)
  /-- Frosted glass. -/
  | roughDielectric (ior reflectance transmittance roughness : τ)
  /-- A diffuse base under a rough specular layer. -/
  | principled (baseColor roughness metallic specular : τ)
  deriving Repr, DecidableEq, Inhabited

/-- A sampled direction and the value over the density there; a zero weight marks a failure. -/
structure BsdfSample (α : Type) where
  wi : Vec3 α
  weight : Color α
  deriving Repr, DecidableEq, Inhabited

/-- Whether every channel is zero, of either sign. -/
def Vec3.isZero {α : Type} [Scalar α] (v : Vec3 α) : Bool := v.x == 0 && v.y == 0 && v.z == 0

namespace BsdfSample

variable {α : Type} [Scalar α]

def invalid : BsdfSample α := ⟨.zero, .zero⟩

def isInvalid (s : BsdfSample α) : Bool := s.weight.isZero

end BsdfSample

/-! ## Lobes -/

namespace Lobe

variable {α : Type} [Scalar α]

/-- The value of a matte lobe. -/
def evaluateDiffuse (color : Color α) (wi : Vec3 α) : Color α :=
  (Scalar.invPi : α) • Local.absCosTheta wi • color

/-- A direction of a matte lobe on the side of `wo`. -/
def diffuseDirection (wo : Vec3 α) (u : Vec2 α) : Vec3 α :=
  let wi := Warp.cosineHemisphere u
  if wo.z < 0 then { wi with z := -wi.z } else wi

/-- The value of a rough mirror lobe. -/
def evaluateGlossy (color : Color α) (alpha : α) (wo wi : Vec3 α) : Color α :=
  if Local.sameHemisphere wo wi then
    match (wi + wo).normalize? with
    | none => .zero
    | some wh =>
      (Microfacet.masking alpha wh wo • Microfacet.masking alpha wh wi •
        Microfacet.density alpha wh • color) / (4 * Local.absCosTheta wo)
  else .zero

/-- The sample of a rough mirror lobe for a visible normal: all but one masking term cancels. -/
def glossyAbout (color : Color α) (alpha : α) (wo wh : Vec3 α) : BsdfSample α :=
  let wi := wo.reflect wh
  if Local.sameHemisphere wo wi then ⟨wi, Microfacet.masking alpha wh wi • color⟩
  else .invalid

/-- Samples a rough mirror lobe. -/
def sampleGlossy {σ : Type} [Sampler σ α] (color : Color α) (alpha : α) (wo : Vec3 α) :
    StateM σ (BsdfSample α) := do
  let u ← Sampler.next₂
  return glossyAbout color alpha wo (Microfacet.sampleVisible alpha wo u)

end Lobe

/-- The two lobes of the principled material at one point. -/
structure PrincipledLobes (α : Type) where
  diffuseProbability : α
  diffuseColor : Color α
  metallicColor : Color α
  alpha : α
  deriving Repr, DecidableEq, Inhabited

namespace Bsdf

/-- The material with every parameter replaced, in order. -/
def mapM {m : Type → Type} [Monad m] {τ υ : Type} (f : τ → m υ) : Bsdf τ → m (Bsdf υ)
  | diffuse albedo => return diffuse (← f albedo)
  | dielectric ior reflectance transmittance =>
    return dielectric (← f ior) (← f reflectance) (← f transmittance)
  | roughConductor reflectance roughness =>
    return roughConductor (← f reflectance) (← f roughness)
  | roughDielectric ior reflectance transmittance roughness =>
    return roughDielectric (← f ior) (← f reflectance) (← f transmittance) (← f roughness)
  | principled baseColor roughness metallic specular =>
    return principled (← f baseColor) (← f roughness) (← f metallic) (← f specular)

variable {α : Type} [Scalar α]

/-- The lobes of the principled material, chosen between in proportion to their mean colors. -/
def principledLobes (baseColor roughness metallic specular : Texture α) (uv : Vec2 α)
    (wo : Vec3 α) : PrincipledLobes α :=
  let base := baseColor.evaluate uv
  let metallic := metallic.scalar uv
  let specular := specular.scalar uv
  let f := specular * Fresnel.schlick ((1 - metallic) * 0.08) (Local.cosTheta wo)
  let diffuseColor := ((1 - f) * (1 - metallic)) • base
  let metallicColor := Vec3.splat f + ((1 - f) * metallic) • base
  let diffuse := diffuseColor.mean
  let total := diffuse + metallicColor.mean
  { diffuseProbability := if 0 < total then diffuse / total else 1
    diffuseColor
    metallicColor
    alpha := Microfacet.alphaOfRoughness (roughness.scalar uv) }

/-- The relative index of refraction seen from the side of `wo`. -/
def relativeIor (ior : α) (wo : Vec3 α) : α := if 0 < Local.cosTheta wo then ior else 1 / ior

/-- Whether either direction lies in the surface, where frosted glass scatters nothing. -/
def isGrazing (wo wi : Vec3 α) : Bool := Local.cosTheta wo == 0 || Local.cosTheta wi == 0

/-- The microfacet normal that reflects one direction into the other, or refracts it there, if there
is one. -/
def halfVector? (eta : α) (wo wi : Vec3 α) : Option (Vec3 α) :=
  if Local.sameHemisphere wo wi then (wi + wo).normalize?
  else
    match (wo + eta • wi).normalize? with
    | none => none
    | some half =>
      -- The half vector is turned to the side of `wo`.
      let wh := if half.z * Local.cosTheta wo < 0 then -half else half
      if 0 ≤ wo.dot wh * wi.dot wh then none else some wh

/-- The value of frosted glass for two directions. -/
def evaluateRoughDielectric (ior alpha : α) (reflectance transmittance : Color α)
    (wo wi : Vec3 α) : Color α :=
  if isGrazing wo wi then .zero
  else
    let eta := relativeIor ior wo
    let f := Fresnel.dielectric (Local.absCosTheta wo) eta
    match halfVector? eta wo wi with
    | none => .zero
    | some wh =>
      if Local.sameHemisphere wo wi then
        (Microfacet.masking alpha wh wo • Microfacet.masking alpha wh wi •
          Microfacet.density alpha wh • f • reflectance) / (4 * Local.absCosTheta wo)
      else
        let oh := wo.dot wh
        let ih := wi.dot wh
        (Scalar.abs (ih * oh) • Microfacet.masking alpha wh wo • Microfacet.masking alpha wh wi •
          Microfacet.density alpha wh • (1 - f) • transmittance) /
          (Local.absCosTheta wo * Scalar.sqr (oh + eta * ih))

/-- The scattered fraction for two directions, with the cosine of the second.  Perfectly smooth
glass has none: it is reached by sampling alone. -/
def evaluate (bsdf : Bsdf (Texture α)) (uv : Vec2 α) (wo wi : Vec3 α) : Color α :=
  match bsdf with
  | diffuse albedo =>
    if Local.sameHemisphere wo wi then Lobe.evaluateDiffuse (albedo.evaluate uv) wi else .zero
  | dielectric _ _ _ => .zero
  | roughConductor reflectance roughness =>
    Lobe.evaluateGlossy (reflectance.evaluate uv)
      (Microfacet.alphaOfRoughness (roughness.scalar uv)) wo wi
  | roughDielectric ior reflectance transmittance roughness =>
    evaluateRoughDielectric (ior.scalar uv) (Microfacet.alphaOfRoughness (roughness.scalar uv))
      (reflectance.evaluate uv) (transmittance.evaluate uv) wo wi
  | principled baseColor roughness metallic specular =>
    if Local.sameHemisphere wo wi then
      let lobes := principledLobes baseColor roughness metallic specular uv wo
      Lobe.evaluateDiffuse lobes.diffuseColor wi +
        Lobe.evaluateGlossy lobes.metallicColor lobes.alpha wo wi
    else .zero

/-- The normal on the side of `wo`. -/
def sideNormal (wo : Vec3 α) : Vec3 α := if 0 < Local.cosTheta wo then .unitZ else ⟨0, 0, -1⟩

/-- Whether glass reflects for a draw between reflection and refraction. -/
def reflects (ior : α) (wo : Vec3 α) (u : α) : Bool :=
  u ≤ Fresnel.dielectric (Local.absCosTheta wo) (relativeIor ior wo)

/-- The sample of smooth glass for a draw between reflection and refraction. -/
def dielectricSample (ior : α) (reflectance transmittance : Color α) (wo : Vec3 α) (u : α) :
    BsdfSample α :=
  let eta := relativeIor ior wo
  let normal := sideNormal wo
  if reflects ior wo u then ⟨wo.reflect normal, reflectance⟩
  else
    let wi := wo.refract normal eta
    if wi.isZero then .invalid else ⟨wi.normalize, transmittance / (eta * eta)⟩

/-- The sample of frosted glass for a draw between reflection and refraction and a visible
normal. -/
def roughDielectricSample (ior alpha : α) (reflectance transmittance : Color α) (wo : Vec3 α)
    (u : α) (wh : Vec3 α) : BsdfSample α :=
  let eta := relativeIor ior wo
  if reflects ior wo u then
    Lobe.glossyAbout reflectance alpha wo wh
  else
    let wi := wo.refract wh eta
    if wi.isZero || Local.sameHemisphere wo wi then .invalid
    else
      let wi := wi.normalize
      ⟨wi, (Microfacet.masking alpha wh wi • transmittance) / Scalar.sqr eta⟩

/-- Samples a direction. -/
def sample {σ : Type} [Sampler σ α] (bsdf : Bsdf (Texture α)) (uv : Vec2 α) (wo : Vec3 α) :
    StateM σ (BsdfSample α) :=
  match bsdf with
  | diffuse albedo => do
    let u ← Sampler.next₂
    -- The cosine over π cancels against the density.
    return ⟨Lobe.diffuseDirection wo u, albedo.evaluate uv⟩
  | dielectric ior reflectance transmittance => do
    let u ← Sampler.next₁
    return dielectricSample (ior.scalar uv) (reflectance.evaluate uv) (transmittance.evaluate uv)
      wo u
  | roughConductor reflectance roughness =>
    Lobe.sampleGlossy (reflectance.evaluate uv)
      (Microfacet.alphaOfRoughness (roughness.scalar uv)) wo
  | roughDielectric ior reflectance transmittance roughness => do
    let alpha := Microfacet.alphaOfRoughness (roughness.scalar uv)
    let choice ← Sampler.next₁
    let u ← Sampler.next₂
    return roughDielectricSample (ior.scalar uv) alpha (reflectance.evaluate uv)
      (transmittance.evaluate uv) wo choice (Microfacet.sampleVisible alpha wo u)
  | principled baseColor roughness metallic specular => do
    let lobes := principledLobes baseColor roughness metallic specular uv wo
    let choice ← Sampler.next₁
    if choice < lobes.diffuseProbability then
      let u ← Sampler.next₂
      return ⟨Lobe.diffuseDirection wo u, lobes.diffuseColor / lobes.diffuseProbability⟩
    else
      let s ← Lobe.sampleGlossy lobes.metallicColor lobes.alpha wo
      return { s with weight := s.weight / (1 - lobes.diffuseProbability) }

/-- The parameter that is shown in place of full shading. -/
def albedoTexture {τ : Type} : Bsdf τ → τ
  | diffuse albedo => albedo
  | dielectric _ reflectance _ => reflectance
  | roughConductor reflectance _ => reflectance
  | roughDielectric _ _ transmittance _ => transmittance
  | principled baseColor _ _ _ => baseColor

/-- The color shown in place of full shading. -/
def albedo (bsdf : Bsdf (Texture α)) (uv : Vec2 α) : Color α := bsdf.albedoTexture.evaluate uv

end Bsdf

end Radiance
