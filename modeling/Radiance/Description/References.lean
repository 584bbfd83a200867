import Radiance.Description

/-!
# File names in a description

The files that the scene of a description is built from.

## Main definitions

* `Description.fileNames`: the names of all meshes and images.
-/

namespace Radiance

variable {α : Type}

def TextureSpec.fileNames : TextureSpec α → List String
  | image filename _ _ _ => [filename]
  | _ => []

/-- The textures of a material. -/
def Bsdf.textures {τ : Type} : Bsdf τ → List τ
  | diffuse albedo => [albedo]
  | dielectric ior reflectance transmittance => [ior, reflectance, transmittance]
  | roughConductor reflectance roughness => [reflectance, roughness]
  | roughDielectric ior reflectance transmittance roughness =>
    [ior, reflectance, transmittance, roughness]
  | principled baseColor roughness metallic specular => [baseColor, roughness, metallic, specular]

def BindingSpec.fileNames (b : BindingSpec α) : List String :=
  ((b.bsdf.map Bsdf.textures).getD [] ++ b.emission.toList ++ b.normal.toList).flatMap
    TextureSpec.fileNames

mutual

def ShapeSpec.fileNames : ShapeSpec α → List String
  | .mesh filename _ => [filename]
  | .group children => InstanceSpec.allFileNames children
  | _ => []

def InstanceSpec.allFileNames : List (InstanceSpec α) → List String
  | [] => []
  | .mk shape binding :: rest =>
    ShapeSpec.fileNames shape ++ binding.fileNames ++ InstanceSpec.allFileNames rest

end

def LightSpec.fileNames : LightSpec α → List String
  | envmap texture _ => texture.fileNames
  | _ => []

/-- The names of all meshes and images. -/
def Description.fileNames (d : Description α) : List String :=
  d.shared.flatMap (·.2.fileNames) ++ InstanceSpec.allFileNames d.instances ++
    d.lights.flatMap LightSpec.fileNames

end Radiance
