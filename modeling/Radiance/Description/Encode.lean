import Radiance.Description
import Radiance.Description.Number

/-!
# Writing scene descriptions

From descriptions to JSON values, with every default written out, the tag of a variant first and
the fields in the order in which an array would give them.  Numbers that are infinite or undefined
have no JSON number and become `null`.
-/

namespace Radiance

namespace Encode

variable {α : Type} [Scalar α] [JsonScalar α]

def scalar (x : α) : Json :=
  match JsonScalar.toNumber? x with
  | some n => .num n
  | none => .null

def vec2 (v : Vec2 α) : Json := .arr [scalar v.x, scalar v.y]

def vec3 (v : Vec3 α) : Json := .arr [scalar v.x, scalar v.y, scalar v.z]

def transformStep : TransformStep α → Json
  | .translate v => .obj [("translate", vec3 v)]
  | .scale v => .obj [("scale", vec3 v)]
  | .rotate axis angle =>
    .obj [("rotate", .obj [("axis", vec3 axis), ("angle", scalar angle)])]
  | .matrix m => .obj [("matrix", .list scalar m.transpose.toList)]
  | .lookAt origin target up =>
    .obj [("look_at", .obj [("origin", vec3 origin), ("target", vec3 target), ("up", vec3 up)])]

def transform : List (TransformStep α) → Json := .list transformStep

def fovAxis : FovAxis → Json
  | .x => .str "x"
  | .y => .str "y"

def border : Border → Json
  | .clamp => .str "clamp"
  | .tile => .str "repeat"

def filter : Filter → Json
  | .nearest => .str "nearest"
  | .bilinear => .str "bilinear"

def camera (c : CameraSpec α) : Json :=
  .obj
    [("type", .str "perspective"), ("width", .nat c.width.toNat), ("height", .nat c.height.toNat),
      ("fov", scalar c.fov), ("fov_axis", fovAxis c.fovAxis), ("transform", transform c.transform),
      ("aperture_radius", scalar c.apertureRadius), ("focus_distance", scalar c.focusDistance)]

def sampler (s : SamplerSpec) : Json :=
  let kind :=
    match s.kind with
    | .independent => "independent"
    | .halton => "halton"
  .obj [("type", .str kind), ("count", .nat s.count.toNat), ("seed", .nat s.seed.toNat)]

def integrator : Integrator α → Json
  | .pathTracer depth => .obj [("type", .str "pathtracer"), ("depth", .nat depth.toNat)]
  | .direct => .obj [("type", .str "direct")]
  | .normals remap => .obj [("type", .str "normals"), ("remap", .bool remap)]
  | .albedo => .obj [("type", .str "albedo")]
  | .traversal unit => .obj [("type", .str "bvh_stats"), ("unit", scalar unit)]

def texture : TextureSpec α → Json
  | .scalar value => scalar value
  | .color value => vec3 value
  | .constant value => .obj [("type", .str "constant"), ("value", vec3 value)]
  | .checkerboard color₀ color₁ scale =>
    .obj
      [("type", .str "checkerboard"), ("color0", vec3 color₀), ("color1", vec3 color₁),
        ("scale", vec2 scale)]
  | .image filename exposure edge smoothing =>
    .obj
      [("type", .str "image"), ("filename", .str filename), ("exposure", scalar exposure),
        ("border", border edge), ("filter", filter smoothing)]

def bsdf : Bsdf (TextureSpec α) → Json
  | .diffuse albedo => .obj [("type", .str "diffuse"), ("albedo", texture albedo)]
  | .dielectric ior reflectance transmittance =>
    .obj
      [("type", .str "dielectric"), ("ior", texture ior), ("reflectance", texture reflectance),
        ("transmittance", texture transmittance)]
  | .roughConductor reflectance roughness =>
    .obj
      [("type", .str "rough_conductor"), ("reflectance", texture reflectance),
        ("roughness", texture roughness)]
  | .roughDielectric ior reflectance transmittance roughness =>
    .obj
      [("type", .str "rough_dielectric"), ("ior", texture ior),
        ("reflectance", texture reflectance), ("transmittance", texture transmittance),
        ("roughness", texture roughness)]
  | .principled baseColor roughness metallic specular =>
    .obj
      [("type", .str "principled"), ("base_color", texture baseColor),
        ("roughness", texture roughness), ("metallic", texture metallic),
        ("specular", texture specular)]

def emission (e : TextureSpec α) : Json :=
  .obj [("type", .str "lambertian"), ("emission", texture e)]

mutual

def shape : ShapeSpec α → Json
  | .sphere => .obj [("type", .str "sphere")]
  | .rectangle => .obj [("type", .str "rectangle")]
  | .mesh filename smooth =>
    .obj [("type", .str "mesh"), ("filename", .str filename), ("smooth", .bool smooth)]
  | .group children => .obj [("type", .str "group"), ("children", .arr (instances children))]
  | .ref id => .obj [("type", .str "ref"), ("id", .str id)]

def inst : InstanceSpec α → Json
  | .mk what binding =>
    .obj
      [("shape", shape what), ("bsdf", .opt bsdf binding.bsdf),
        ("emission", .opt emission binding.emission), ("transform", transform binding.transform),
        ("normal", .opt texture binding.normal)]

def instances : List (InstanceSpec α) → List Json
  | [] => []
  | i :: rest => inst i :: instances rest

end

def light : LightSpec α → Json
  | .point position power =>
    .obj [("type", .str "point"), ("position", vec3 position), ("power", vec3 power)]
  | .directional direction intensity =>
    .obj
      [("type", .str "directional"), ("direction", vec3 direction),
        ("intensity", vec3 intensity)]
  | .envmap image steps =>
    .obj [("type", .str "envmap"), ("texture", texture image), ("transform", transform steps)]

end Encode

/-- The JSON value of a description. -/
def Description.toJson {α : Type} [Scalar α] [JsonScalar α] (d : Description α) : Json :=
  .obj
    [("camera", Encode.camera d.camera), ("sampler", Encode.sampler d.sampler),
      ("integrator", Encode.integrator d.integrator), ("output", .opt .str d.output),
      ("shared", .obj (d.shared.map fun (id, s) => (id, Encode.shape s))),
      ("instances", .arr (Encode.instances d.instances)),
      ("lights", .list Encode.light d.lights)]

end Radiance
