import Radiance.Geometry.Frame

/-!
# Microfacets

Rough surfaces as fields of tiny mirrors whose normals follow the GGX distribution, with the Smith
term for mirrors hidden by others.

## Main definitions

* `Microfacet.density`: the distribution of normals.
* `Microfacet.masking`: the part of the mirrors with a normal that a direction sees.
* `Microfacet.sampleVisible`, `Microfacet.visiblePdf`: a normal visible from a direction, and its
  density.
-/

namespace Radiance.Microfacet

variable {α : Type} [Scalar α]

/-- The width of the distribution for a roughness, kept away from zero. -/
def alphaOfRoughness (roughness : α) : α := Scalar.max (Scalar.sqr roughness) 1e-3

/-- The distribution of normals. -/
def density (alpha : α) (wh : Vec3 α) : α :=
  let a := wh.x / alpha
  let b := wh.y / alpha
  let c := Scalar.sqr a + Scalar.sqr b + Scalar.sqr wh.z
  1 / (Scalar.pi * Scalar.sqr (alpha * c))

/-- The part of the mirrors with normal `wh` that is seen from `w`. -/
def masking (alpha : α) (wh w : Vec3 α) : α :=
  if w.dot wh * Local.cosTheta w * Local.cosTheta wh ≤ 0 then 0
  else if 1 ≤ Scalar.abs (Local.cosTheta w) then 1
  else 2 / (1 + Scalar.sqrt (1 + Scalar.sqr alpha * Local.tanTheta2 w))

/-- A normal visible from `wo`, on its side of the surface, for a point of the unit square. -/
def sampleVisible (alpha : α) (wo : Vec3 α) (u : Vec2 α) : Vec3 α :=
  let sign := Scalar.copySign 1 (Local.cosTheta wo)
  let vh := sign • (⟨alpha * wo.x, alpha * wo.y, wo.z⟩ : Vec3 α).normalize
  let len2 := vh.x * vh.x + vh.y * vh.y
  let t₁ : Vec3 α := if 0 < len2 then (⟨-vh.y, vh.x, 0⟩ : Vec3 α) / Scalar.sqrt len2 else .unitX
  let t₂ := vh.cross t₁
  let r := Scalar.sqrt u.x
  let phi := 2 * Scalar.pi * u.y
  let p₁ := r * Scalar.cos phi
  let s := 0.5 * (1 + vh.z)
  let p₂ := (1 - s) * Scalar.safeSqrt (1 - Scalar.sqr p₁) + s * (r * Scalar.sin phi)
  let nh := p₁ • t₁ + p₂ • t₂ + Scalar.safeSqrt (1 - Scalar.sqr p₁ - Scalar.sqr p₂) • vh
  sign • (⟨alpha * nh.x, alpha * nh.y, Scalar.max nh.z 0⟩ : Vec3 α).normalize

/-- The density with which `sampleVisible` yields `wh`. -/
def visiblePdf (alpha : α) (wh wo : Vec3 α) : α :=
  density alpha wh * masking alpha wh wo * Scalar.abs (wh.dot wo) / Local.absCosTheta wo

/-- How the density changes from a normal to the direction reflected about it. -/
def reflectionJacobian (wh wo : Vec3 α) : α := 1 / Scalar.abs (4 * wh.dot wo)

end Radiance.Microfacet
