import Radiance.Description
import Radiance.Description.Number

/-!
# Reading scene descriptions

From JSON values to descriptions.  A record may be written as an object or as the array of its
fields in order; fields with a default may be left out, in an array only at its end.  A value with
variants carries its variant under `type`, or as the first element of an array.  Such a value has
to be readable as a whole; elsewhere a field that is ignored is not looked at.

## Main definitions

* `Decode.slots`: the fields of a record.
* `Decode.tagged`: the variant of a value and the rest of it.
* `Description.ofJson?`, `Description.parse?`: the description of a value and of a text.
-/

namespace Radiance

namespace Decode

/-! ## Records and variants -/

/-- The values of the named fields.  A named field must not be repeated; fields with other names are
ignored, or refused if the record is closed.  An array must not be longer than the list of names. -/
def slots (closed : Bool) (names : List String) : Json → Option (List (Option Json))
  | .obj fields =>
    let given := fields.map (·.1)
    if names.any (fun name => 1 < given.count name) then none
    else if closed ∧ given.any (fun name => !names.contains name) then none
    else some (names.map fun name => (fields.find? (·.1 = name)).map (·.2))
  | .arr items =>
    if names.length < items.length then none
    else some ((List.range names.length).map fun i => items[i]?)
  | _ => none

/-- The value of a field that has to be there. -/
def required {β : Type} (decode : Json → Option β) : Option Json → Option β
  | none => none
  | some v => decode v

/-- The value of a field with a default. -/
def withDefault {β : Type} (decode : Json → Option β) (default : β) : Option Json → Option β
  | none => some default
  | some v => decode v

/-- The value of a field that may be `null` or missing. -/
def optional {β : Type} (decode : Json → Option β) : Option Json → Option (Option β)
  | none => some none
  | some .null => some none
  | some v => (decode v).map some

/-- The variant a tag stands for: its name, or inside another tagged value also its number. -/
def variant (nested : Bool) (names : List String) : Json → Option String
  | .str s => if names.contains s then some s else none
  | .num (.integer n) => if nested ∧ 0 ≤ n then names[n.toNat]? else none
  | _ => none

/-- The variant of a readable tagged value, and the value without its tag. -/
def tagged (nested : Bool) (names : List String) (v : Json) : Option (String × Json) :=
  match v.isReadable, v with
  | true, .obj fields =>
    match fields.filter (·.1 = "type") with
    | [(_, tag)] =>
      (variant nested names tag).map (·, .obj (fields.filter (·.1 ≠ "type")))
    | _ => none
  | true, .arr (tag :: rest) => (variant nested names tag).map (·, .arr rest)
  | _, _ => none

/-- A variant without fields: an object may hold anything, an array nothing. -/
def unit {β : Type} (value : β) : Json → Option β
  | .obj _ => some value
  | .arr [] => some value
  | _ => none

/-- A choice between plain names: a string, or an object with one empty field. -/
def choice {β : Type} (options : List (String × β)) : Json → Option β
  | .str s => (options.find? (·.1 = s)).map (·.2)
  | .obj [(s, .null)] => (options.find? (·.1 = s)).map (·.2)
  | .obj [(s, .obj [])] => (options.find? (·.1 = s)).map (·.2)
  | _ => none

/-! ## Plain values -/

def bool : Json → Option Bool
  | .bool b => some b
  | _ => none

def string : Json → Option String
  | .str s => some s
  | _ => none

def uint32 : Json → Option UInt32
  | .num (.integer n) => if 0 ≤ n ∧ n < UInt32.size then some (UInt32.ofNat n.toNat) else none
  | _ => none

def uint64 : Json → Option UInt64
  | .num (.integer n) => if 0 ≤ n ∧ n < UInt64.size then some (UInt64.ofNat n.toNat) else none
  | _ => none

def list {β : Type} (decode : Json → Option β) : Json → Option (List β)
  | .arr items => items.mapM decode
  | _ => none

variable {α : Type} [Scalar α] [JsonScalar α]

def scalar : Json → Option α
  | .num n => some (JsonScalar.ofNumber n)
  | _ => none

def vec2 : Json → Option (Vec2 α)
  | .arr [x, y] => return ⟨← scalar x, ← scalar y⟩
  | _ => none

def vec3 : Json → Option (Vec3 α)
  | .arr [x, y, z] => return ⟨← scalar x, ← scalar y, ← scalar z⟩
  | _ => none

/-- Sixteen numbers, row by row. -/
def matrix (v : Json) : Option (Matrix4 α) := do
  match ← list scalar v with
  | [a, b, c, d, e, f, g, h, i, j, k, l, m, n, o, p] =>
    some ⟨⟨a, e, i, m⟩, ⟨b, f, j, n⟩, ⟨c, g, k, o⟩, ⟨d, h, l, p⟩⟩
  | _ => none

/-! ## Parts of a description -/

/-- A step of a placement: an object with one field. -/
def transformStep : Json → Option (TransformStep α)
  | .obj [("translate", v)] => (vec3 v).map .translate
  | .obj [("scale", v)] => (vec3 v).map .scale
  | .obj [("rotate", v)] => do
    match ← slots false ["axis", "angle"] v with
    | [axis, angle] => return .rotate (← required vec3 axis) (← required scalar angle)
    | _ => none
  | .obj [("matrix", v)] => (matrix v).map .matrix
  | .obj [("look_at", v)] => do
    match ← slots false ["origin", "target", "up"] v with
    | [origin, target, up] =>
      return .lookAt (← required vec3 origin) (← required vec3 target)
        (← withDefault vec3 .unitY up)
    | _ => none
  | _ => none

def transform : Json → Option (List (TransformStep α)) := list transformStep

def fovAxis : Json → Option FovAxis := choice [("x", .x), ("y", .y)]

def border : Json → Option Border := choice [("clamp", .clamp), ("repeat", .tile)]

def filter : Json → Option Filter := choice [("nearest", .nearest), ("bilinear", .bilinear)]

def camera (v : Json) : Option (CameraSpec α) := do
  let (_, rest) ← tagged false ["perspective"] v
  let names := ["width", "height", "fov", "fov_axis", "transform", "aperture_radius",
    "focus_distance"]
  match ← slots false names rest with
  | [width, height, fov, axis, steps, aperture, focus] =>
    return {
      width := ← required uint32 width
      height := ← required uint32 height
      fov := ← required scalar fov
      fovAxis := ← withDefault fovAxis .x axis
      transform := ← withDefault transform [] steps
      apertureRadius := ← withDefault scalar 0 aperture
      focusDistance := ← withDefault scalar 1 focus }
  | _ => none

def sampler (v : Json) : Option SamplerSpec := do
  let (tag, rest) ← tagged false ["independent", "halton"] v
  match ← slots false ["count", "seed"] rest with
  | [count, seed] =>
    return {
      kind := if tag = "halton" then .halton else .independent
      count := ← withDefault uint32 SamplerSpec.defaultCount count
      seed := ← withDefault uint64 SamplerSpec.defaultSeed seed }
  | _ => none

def integrator (v : Json) : Option (Integrator α) := do
  let (tag, rest) ← tagged false ["pathtracer", "direct", "normals", "albedo", "bvh_stats"] v
  match tag with
  | "pathtracer" =>
    match ← slots false ["depth"] rest with
    | [depth] => return .pathTracer (← withDefault uint32 2 depth)
    | _ => none
  | "direct" => unit .direct rest
  | "normals" =>
    match ← slots false ["remap"] rest with
    | [remap] => return .normals (← withDefault bool true remap)
    | _ => none
  | "albedo" => unit .albedo rest
  | _ =>
    match ← slots false ["unit"] rest with
    | [unit] => return .traversal (← withDefault scalar 1 unit)
    | _ => none

/-- A texture with parameters; it always stands inside another value. -/
def textureNode (v : Json) : Option (TextureSpec α) := do
  let (tag, rest) ← tagged true ["constant", "checkerboard", "image"] v
  match tag with
  | "constant" =>
    match ← slots false ["value"] rest with
    | [value] => return .constant (← required vec3 value)
    | _ => none
  | "checkerboard" =>
    match ← slots false ["color0", "color1", "scale"] rest with
    | [color₀, color₁, scale] =>
      return .checkerboard (← required vec3 color₀) (← required vec3 color₁)
        (← withDefault vec2 (.splat 10) scale)
    | _ => none
  | _ =>
    match ← slots false ["filename", "exposure", "border", "filter"] rest with
    | [filename, exposure, edge, smoothing] =>
      return .image (← required string filename) (← withDefault scalar 1 exposure)
        (← withDefault border .tile edge) (← withDefault filter .bilinear smoothing)
    | _ => none

/-- A texture: a number, else a color, else one with parameters. -/
def texture (v : Json) : Option (TextureSpec α) :=
  match scalar v with
  | some value => some (.scalar value)
  | none =>
    match vec3 v with
    | some value => some (.color value)
    | none => textureNode v

def bsdf (nested : Bool) (v : Json) : Option (Bsdf (TextureSpec α)) := do
  let kinds := ["diffuse", "dielectric", "rough_conductor", "rough_dielectric", "principled"]
  let (tag, rest) ← tagged nested kinds v
  let field (default : α) := withDefault texture (.scalar default)
  match tag with
  | "diffuse" =>
    match ← slots false ["albedo"] rest with
    | [albedo] => return .diffuse (← field 0.5 albedo)
    | _ => none
  | "dielectric" =>
    match ← slots false ["ior", "reflectance", "transmittance"] rest with
    | [ior, reflectance, transmittance] =>
      return .dielectric (← field 1.5 ior) (← field 1 reflectance) (← field 1 transmittance)
    | _ => none
  | "rough_conductor" =>
    match ← slots false ["reflectance", "roughness"] rest with
    | [reflectance, roughness] =>
      return .roughConductor (← field 1 reflectance) (← field 0.5 roughness)
    | _ => none
  | "rough_dielectric" =>
    match ← slots false ["ior", "reflectance", "transmittance", "roughness"] rest with
    | [ior, reflectance, transmittance, roughness] =>
      return .roughDielectric (← field 1.5 ior) (← field 1 reflectance) (← field 1 transmittance)
        (← field 0.5 roughness)
    | _ => none
  | _ =>
    match ← slots false ["base_color", "roughness", "metallic", "specular"] rest with
    | [baseColor, roughness, metallic, specular] =>
      return .principled (← field 0.5 baseColor) (← field 0.5 roughness) (← field 0 metallic)
        (← field 0.5 specular)
    | _ => none

def emission (nested : Bool) (v : Json) : Option (TextureSpec α) := do
  let (_, rest) ← tagged nested ["lambertian"] v
  match ← slots false ["emission"] rest with
  | [emission] => required texture emission
  | _ => none

mutual

/-- A shape whose value is nested no deeper than a bound. -/
def shape (depth : Nat) (nested : Bool) (v : Json) : Option (ShapeSpec α) :=
  match depth with
  | 0 => none
  | depth + 1 => do
    let (tag, rest) ← tagged nested ["sphere", "rectangle", "mesh", "group", "ref"] v
    match tag with
    | "sphere" => unit .sphere rest
    | "rectangle" => unit .rectangle rest
    | "mesh" =>
      match ← slots false ["filename", "smooth"] rest with
      | [filename, smooth] =>
        return .mesh (← required string filename) (← withDefault bool true smooth)
      | _ => none
    | "group" =>
      match ← slots false ["children"] rest with
      | [children] => return .group (← required (list (inst depth true)) children)
      | _ => none
    | _ =>
      match ← slots false ["id"] rest with
      | [id] => return .ref (← required string id)
      | _ => none

/-- An instance whose value is nested no deeper than a bound. -/
def inst (depth : Nat) (nested : Bool) (v : Json) : Option (InstanceSpec α) :=
  match depth with
  | 0 => none
  | depth + 1 => do
    match ← slots true ["shape", "bsdf", "emission", "transform", "normal"] v with
    | [what, material, glow, steps, normal] =>
      return .mk (← required (shape depth nested) what)
        { bsdf := ← optional (bsdf nested) material
          emission := ← optional (emission nested) glow
          transform := ← withDefault transform [] steps
          normal := ← optional texture normal }
    | _ => none

end

def light (v : Json) : Option (LightSpec α) := do
  let (tag, rest) ← tagged false ["point", "directional", "envmap"] v
  match tag with
  | "point" =>
    match ← slots false ["position", "power"] rest with
    | [position, power] => return .point (← required vec3 position) (← required vec3 power)
    | _ => none
  | "directional" =>
    match ← slots false ["direction", "intensity"] rest with
    | [direction, intensity] =>
      return .directional (← required vec3 direction) (← required vec3 intensity)
    | _ => none
  | _ =>
    match ← slots false ["texture", "transform"] rest with
    | [image, steps] => return .envmap (← required texture image) (← withDefault transform [] steps)
    | _ => none

/-- Puts an entry into a table kept in the order of its keys, in place of an entry with the same
key. -/
def insert {β : Type} (key : String) (value : β) : List (String × β) → List (String × β)
  | [] => [(key, value)]
  | (k, v) :: rest =>
    if key < k then (key, value) :: (k, v) :: rest
    else if key = k then (key, value) :: rest
    else (k, v) :: insert key value rest

/-- A table: of entries with equal keys the last one counts. -/
def table {β : Type} (decode : Json → Option β) : Json → Option (List (String × β))
  | .obj fields =>
    fields.foldlM (fun entries (key, v) => (decode v).map fun value => insert key value entries) []
  | _ => none

end Decode

namespace Description

variable {α : Type} [Scalar α] [JsonScalar α]

/-- The description of a JSON value. -/
def ofJson? (v : Json) : Option (Description α) := do
  let names := ["camera", "sampler", "integrator", "output", "shared", "instances", "lights"]
  match ← Decode.slots true names v with
  | [camera, sampler, integrator, output, shared, instances, lights] =>
    return {
      camera := ← Decode.required Decode.camera camera
      sampler := ← Decode.withDefault Decode.sampler .standard sampler
      integrator := ← Decode.withDefault Decode.integrator (.pathTracer 2) integrator
      output := ← Decode.optional Decode.string output
      shared := ← Decode.withDefault (Decode.table (Decode.shape Json.maxDepth false)) [] shared
      instances :=
        ← Decode.withDefault (Decode.list (Decode.inst Json.maxDepth false)) [] instances
      lights := ← Decode.withDefault (Decode.list Decode.light) [] lights }
  | _ => none

end Description

end Radiance
