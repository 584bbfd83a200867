import Radiance.Vector

/-!
# Fresnel terms

How much light an interface reflects at an angle.
-/

namespace Radiance.Fresnel

variable {α : Type} [Scalar α]

/-- The fifth power of `1 - cos`, with the base kept in `[0, 1]`. -/
def schlickWeight (cosTheta : α) : α :=
  let m := Scalar.clamp (1 - cosTheta) 0 1
  let m2 := m * m
  m2 * m2 * m

/-- Schlick's approximation from the reflectance `f0` at normal incidence. -/
def schlick (f0 cosTheta : α) : α := f0 + (1 - f0) * schlickWeight cosTheta

/-- Schlick's approximation for each channel. -/
def schlickColor (f0 : Color α) (cosTheta : α) : Color α :=
  f0 + schlickWeight cosTheta • (Vec3.one - f0)

/-- The reflectance of a dielectric interface for unpolarized light.  `eta` is the index of
refraction of the far side over that of the near side; total internal reflection reflects all. -/
def dielectric (cosTheta eta : α) : α :=
  let invEta := 1 / eta
  let cosT2 := 1 - Scalar.sqr invEta * (1 - Scalar.sqr cosTheta)
  if cosT2 ≤ 0 then 1
  else
    let cosI := Scalar.abs cosTheta
    let cosT := Scalar.sqrt cosT2
    let rs := (eta * cosI - cosT) / (eta * cosI + cosT)
    let rp := (cosI - eta * cosT) / (cosI + eta * cosT)
    0.5 * (rs * rs + rp * rp)

end Radiance.Fresnel
