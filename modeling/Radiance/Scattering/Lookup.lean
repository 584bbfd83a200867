import Radiance.Scattering.Bsdf

/-!
# Texture lookups of materials

An image texture has no color where its image lacks a pixel.  Materials look up the parameters that
a query needs, so a query has an answer as long as those have a color.

## Main definitions

* `Bsdf.evaluateReads`, `Bsdf.sampleReads`: the parameters that a query looks up.
* `Bsdf.evaluate?`, `Bsdf.sample?`, `Bsdf.albedo?`: the answers that exist.
-/

namespace Radiance.Bsdf

variable {α : Type} [Scalar α]

/-- Whether all of some textures have a color at texture coordinates. -/
def areDefinedAt (textures : List (Texture α)) (uv : Vec2 α) : Bool :=
  textures.all (·.isDefinedAt uv)

/-- The parameters that the value for two directions depends on. -/
def evaluateReads (bsdf : Bsdf (Texture α)) (uv : Vec2 α) (wo wi : Vec3 α) : List (Texture α) :=
  match bsdf with
  | diffuse albedo => if Local.sameHemisphere wo wi then [albedo] else []
  | dielectric _ _ _ => []
  | roughConductor reflectance roughness => [reflectance, roughness]
  | roughDielectric ior reflectance transmittance roughness =>
    if isGrazing wo wi then []
    else if (halfVector? (relativeIor (ior.scalar uv) wo) wo wi).isNone then [ior, roughness]
    else [ior, roughness, if Local.sameHemisphere wo wi then reflectance else transmittance]
  | principled baseColor roughness metallic specular =>
    if Local.sameHemisphere wo wi then [baseColor, roughness, metallic, specular] else []

/-- The parameters that the next sample depends on. -/
def sampleReads {σ : Type} [Sampler σ α] (bsdf : Bsdf (Texture α)) (uv : Vec2 α) (wo : Vec3 α) :
    StateM σ (List (Texture α)) :=
  match bsdf with
  | diffuse albedo => return [albedo]
  | dielectric ior reflectance transmittance => do
    let u ← Sampler.next₁
    let ior' := ior.scalar uv
    if reflects ior' wo u then return [ior, reflectance]
    else if (wo.refract (sideNormal wo) (relativeIor ior' wo)).isZero then return [ior]
    else return [ior, transmittance]
  | roughConductor reflectance roughness => return [reflectance, roughness]
  | roughDielectric ior reflectance transmittance roughness => do
    let ior' := ior.scalar uv
    let choice ← Sampler.next₁
    let u ← Sampler.next₂
    let wh := Microfacet.sampleVisible (Microfacet.alphaOfRoughness (roughness.scalar uv)) wo u
    if reflects ior' wo choice then
      if Local.sameHemisphere wo (wo.reflect wh) then return [ior, roughness, reflectance]
      else return [ior, roughness]
    else
      let wi := wo.refract wh (relativeIor ior' wo)
      if wi.isZero || Local.sameHemisphere wo wi then return [ior, roughness]
      else return [ior, roughness, transmittance]
  | principled baseColor roughness metallic specular =>
    return [baseColor, roughness, metallic, specular]

/-- The value for two directions, if the parameters it depends on have a color. -/
def evaluate? (bsdf : Bsdf (Texture α)) (uv : Vec2 α) (wo wi : Vec3 α) : Option (Color α) :=
  if areDefinedAt (bsdf.evaluateReads uv wo wi) uv then some (bsdf.evaluate uv wo wi) else none

/-- Samples a direction, if the parameters that the sample depends on have a color. -/
def sample? {σ : Type} [Sampler σ α] (bsdf : Bsdf (Texture α)) (uv : Vec2 α) (wo : Vec3 α) :
    StateM σ (Option (BsdfSample α)) := do
  let reads := ((bsdf.sampleReads uv wo).run (← get)).1
  let s ← bsdf.sample uv wo
  return if areDefinedAt reads uv then some s else none

/-- The color shown in place of full shading, if there is one. -/
def albedo? (bsdf : Bsdf (Texture α)) (uv : Vec2 α) : Option (Color α) :=
  bsdf.albedoTexture.evaluate? uv

end Radiance.Bsdf
