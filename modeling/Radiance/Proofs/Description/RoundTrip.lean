import Radiance.Description.References
import Radiance.Description.Validation
import Radiance.Proofs.Description.Recovery

/-!
# Descriptions are read back from their text

The text of a description reads back as the description: every variant and every field, with all
defaults written out.  Two things come from outside: a number has to read back from the way it is
written, and arrays and objects must not lie deeper inside one another than the reader allows.

## Main definitions

* `Description.scalars`: the numbers of a description that are not whole.
* `JsonScalar.ReadsBack`: the numbers that read back as themselves.

## Main statements

* `Decode.recovers_shape`, `Decode.recovers_camera` and so on: each part is recovered.
* `Description.recovers_ofJson?`: the whole is recovered.
* `Description.parse_text_toJson`: what is read from the text of a description.
-/

namespace Radiance

variable {α : Type}

/-! ## The numbers of a description -/

def Vec2.scalars (v : Vec2 α) : List α := [v.x, v.y]

def Vec3.scalars (v : Vec3 α) : List α := [v.x, v.y, v.z]

def TransformStep.scalars : TransformStep α → List α
  | translate offset => offset.scalars
  | scale factors => factors.scalars
  | rotate axis angle => axis.scalars ++ [angle]
  | matrix m => m.toList
  | lookAt origin target up => origin.scalars ++ target.scalars ++ up.scalars

def TextureSpec.scalars : TextureSpec α → List α
  | scalar value => [value]
  | color value => value.scalars
  | constant value => value.scalars
  | checkerboard color₀ color₁ scale => color₀.scalars ++ color₁.scalars ++ scale.scalars
  | image _ exposure _ _ => [exposure]

/-- The textures of an instance. -/
def BindingSpec.textures (b : BindingSpec α) : List (TextureSpec α) :=
  (b.bsdf.map Bsdf.textures).getD [] ++ b.emission.toList ++ b.normal.toList

def BindingSpec.scalars (b : BindingSpec α) : List α :=
  b.textures.flatMap TextureSpec.scalars ++ b.transform.flatMap TransformStep.scalars

mutual

def ShapeSpec.scalars : ShapeSpec α → List α
  | .group children => InstanceSpec.allScalars children
  | _ => []

def InstanceSpec.allScalars : List (InstanceSpec α) → List α
  | [] => []
  | .mk shape binding :: rest =>
    ShapeSpec.scalars shape ++ binding.scalars ++ InstanceSpec.allScalars rest

end

def LightSpec.scalars : LightSpec α → List α
  | point position power => position.scalars ++ power.scalars
  | directional direction intensity => direction.scalars ++ intensity.scalars
  | envmap texture transform => texture.scalars ++ transform.flatMap TransformStep.scalars

def CameraSpec.scalars (c : CameraSpec α) : List α :=
  [c.fov, c.apertureRadius, c.focusDistance] ++ c.transform.flatMap TransformStep.scalars

def Integrator.scalars : Integrator α → List α
  | traversal unit => [unit]
  | _ => []

/-- All numbers of a description that are not whole. -/
def Description.scalars (d : Description α) : List α :=
  d.camera.scalars ++ d.integrator.scalars ++ d.shared.flatMap (·.2.scalars) ++
    InstanceSpec.allScalars d.instances ++ d.lights.flatMap LightSpec.scalars

theorem InstanceSpec.forall_mem_allScalars {P : α → Prop} {instances : List (InstanceSpec α)} :
    (∀ x ∈ allScalars instances, P x) ↔
      ∀ i ∈ instances, (∀ x ∈ i.shape.scalars, P x) ∧ ∀ x ∈ i.binding.scalars, P x := by
  induction instances with
  | nil => simp [allScalars]
  | cons i rest ih =>
    obtain ⟨shape, binding⟩ := i
    simp only [allScalars, List.forall_mem_append, ih, List.forall_mem_cons, InstanceSpec.shape,
      InstanceSpec.binding]

/-- A number that reads back as itself from the way it is written. -/
def JsonScalar.ReadsBack [JsonScalar α] (x : α) : Prop :=
  ∃ n, toNumber? x = some n ∧ n.Fits ∧ ofNumber n = x

instance [JsonScalar α] [DecidableEq α] : DecidablePred (JsonScalar.ReadsBack (α := α)) := fun x =>
  match h : JsonScalar.toNumber? x with
  | none => isFalse fun ⟨_, hn, _⟩ => Option.some_ne_none _ (hn.symm.trans h)
  | some n => decidable_of_iff (n.Fits ∧ JsonScalar.ofNumber n = x)
      ⟨fun hread => ⟨n, h, hread⟩, fun ⟨_, hn, hread⟩ => Option.some.inj (h.symm.trans hn) ▸ hread⟩

namespace Decode

open JsonScalar (ReadsBack)

/-! ## Plain values -/

theorem recovers_string (s : String) (limit : Nat) : Recovers limit string (.str s) s :=
  .leaf trivial rfl rfl

theorem recovers_uint32 (n : UInt32) (limit : Nat) : Recovers limit uint32 (.nat n.toNat) n := by
  have hlt : (n.toNat : Int) < UInt32.size := Int.ofNat_lt.2 n.toNat_lt
  refine .leaf (show _ ∧ _ by simp only [UInt32.size] at hlt; omega) rfl ?_
  rw [Json.nat, uint32, if_pos ⟨Int.natCast_nonneg _, hlt⟩]
  simp

theorem recovers_uint64 (n : UInt64) (limit : Nat) : Recovers limit uint64 (.nat n.toNat) n := by
  have hlt : (n.toNat : Int) < UInt64.size := Int.ofNat_lt.2 n.toNat_lt
  refine .leaf (show _ ∧ _ by simp only [UInt64.size] at hlt; omega) rfl ?_
  rw [Json.nat, uint64, if_pos ⟨Int.natCast_nonneg _, hlt⟩]
  simp

theorem recovers_fovAxis (axis : FovAxis) (limit : Nat) :
    Recovers limit fovAxis (Encode.fovAxis axis) axis := by
  cases axis <;> exact .leaf trivial rfl rfl

theorem recovers_border (border : Border) (limit : Nat) :
    Recovers limit Decode.border (Encode.border border) border := by
  cases border <;> exact .leaf trivial rfl rfl

theorem recovers_filter (filter : Filter) (limit : Nat) :
    Recovers limit Decode.filter (Encode.filter filter) filter := by
  cases filter <;> exact .leaf trivial rfl rfl

/-! ## Numbers and vectors -/

section

variable [JsonScalar α]

theorem recovers_scalar {x : α} (h : ReadsBack x) (limit : Nat) :
    Recovers limit scalar (Encode.scalar x) x := by
  obtain ⟨n, hn, hfits, hread⟩ := h
  rw [Encode.scalar, hn]
  exact .leaf hfits rfl (by rw [scalar, hread])

theorem depth_scalar (x : α) : (Encode.scalar x).depth = 0 := by
  rw [Encode.scalar]
  split <;> rfl

theorem recovers_vec2 {v : Vec2 α} (h : ∀ x ∈ v.scalars, ReadsBack x) (limit : Nat) :
    Recovers limit vec2 (Encode.vec2 v) v := by
  simp only [Vec2.scalars, List.forall_mem_cons] at h
  obtain ⟨hx, hy, -⟩ := h
  have rx := recovers_scalar hx
  have ry := recovers_scalar hy
  refine .flat ⟨(rx limit).fits, (ry limit).fits, trivial⟩ ?_ ?_ rfl
  · simp [Encode.vec2, Json.depth, Json.itemsDepth, depth_scalar]
  · simp [Encode.vec2, vec2, Recovers.eq rx, Recovers.eq ry]

theorem depth_vec3 (v : Vec3 α) : (Encode.vec3 v).depth = 1 := by
  simp [Encode.vec3, Json.depth, Json.itemsDepth, depth_scalar]

theorem recovers_vec3 {v : Vec3 α} (h : ∀ x ∈ v.scalars, ReadsBack x) (limit : Nat) :
    Recovers limit vec3 (Encode.vec3 v) v := by
  simp only [Vec3.scalars, List.forall_mem_cons] at h
  obtain ⟨hx, hy, hz, -⟩ := h
  have rx := recovers_scalar hx
  have ry := recovers_scalar hy
  have rz := recovers_scalar hz
  refine .flat ⟨(rx limit).fits, (ry limit).fits, (rz limit).fits, trivial⟩ (depth_vec3 v) ?_ rfl
  simp [Encode.vec3, vec3, Recovers.eq rx, Recovers.eq ry, Recovers.eq rz]

theorem recovers_matrix {m : Matrix4 α} (h : ∀ x ∈ m.toList, ReadsBack x) (limit : Nat) :
    Recovers limit matrix (.list Encode.scalar m.transpose.toList) m := by
  have htranspose : ∀ x ∈ m.transpose.toList, ReadsBack x := by
    intro x hx
    apply h x
    simp only [Matrix4.transpose, Matrix4.toList, Vec4.toList, List.mem_append, List.mem_cons]
      at hx ⊢
    grind
  exact (Recovers.list fun x hx => recovers_scalar (htranspose x hx) limit).bind rfl

end

variable [Scalar α] [JsonScalar α]

/-! ## Placements -/

theorem recovers_rotate {axis : Vec3 α} {angle : α} (haxis : ∀ x ∈ axis.scalars, ReadsBack x)
    (hangle : ReadsBack angle) (limit : Nat) :
    Recovers limit (fun v => transformStep (.obj [("rotate", v)]))
      (.obj [("axis", Encode.vec3 axis), ("angle", Encode.scalar angle)]) (.rotate axis angle) := by
  have raxis := recovers_vec3 haxis
  have rangle := recovers_scalar hangle
  refine .record ⟨(raxis limit).fits, (rangle limit).fits, trivial⟩ (fun _ => ?_) rfl
    fun {n y} hy => ?_
  · simp [transformStep, slots, required_some, Recovers.eq raxis, Recovers.eq rangle]
  · simp only [transformStep, Json.clipFields] at hy
    change (do return TransformStep.rotate (← vec3 _) (← scalar _)) = some y at hy
    simp only [Option.bind_eq_bind, Option.bind_eq_some_iff] at hy
    obtain ⟨_, h₁, _, h₂, -⟩ := hy
    simp only [Json.fieldsDepth, Nat.max_le]
    exact ⟨(raxis n).depth_le h₁, (rangle n).depth_le h₂, Nat.zero_le n⟩

theorem recovers_lookAt {origin target up : Vec3 α} (horigin : ∀ x ∈ origin.scalars, ReadsBack x)
    (htarget : ∀ x ∈ target.scalars, ReadsBack x) (hup : ∀ x ∈ up.scalars, ReadsBack x)
    (limit : Nat) :
    Recovers limit (fun v => transformStep (.obj [("look_at", v)]))
      (.obj [("origin", Encode.vec3 origin), ("target", Encode.vec3 target),
        ("up", Encode.vec3 up)]) (.lookAt origin target up) := by
  have rorigin := recovers_vec3 horigin
  have rtarget := recovers_vec3 htarget
  have rup := recovers_vec3 hup
  refine .record ⟨(rorigin limit).fits, (rtarget limit).fits, (rup limit).fits, trivial⟩
    (fun _ => ?_) rfl fun {n y} hy => ?_
  · simp [transformStep, slots, required_some, withDefault_some, Recovers.eq rorigin,
      Recovers.eq rtarget, Recovers.eq rup]
  · change (do return TransformStep.lookAt (← vec3 _) (← vec3 _) (← vec3 _)) = some y at hy
    simp only [Option.bind_eq_bind, Option.bind_eq_some_iff] at hy
    obtain ⟨_, h₁, _, h₂, _, h₃, -⟩ := hy
    simp only [Json.fieldsDepth, Nat.max_le]
    exact ⟨(rorigin n).depth_le h₁, (rtarget n).depth_le h₂, (rup n).depth_le h₃, Nat.zero_le n⟩

theorem recovers_transformStep {step : TransformStep α} (h : ∀ x ∈ step.scalars, ReadsBack x)
    (limit : Nat) : Recovers limit transformStep (Encode.transformStep step) step := by
  cases step with
  | translate offset => exact (recovers_vec3 h limit).single rfl fun _ => rfl
  | scale factors => exact (recovers_vec3 h limit).single rfl fun _ => rfl
  | matrix m => exact (recovers_matrix h limit).single rfl fun _ => rfl
  | rotate axis angle =>
    simp only [TransformStep.scalars, List.forall_mem_append, List.forall_mem_singleton] at h
    exact (recovers_rotate h.1 h.2 limit).single (f := id) rfl fun w => by simp
  | lookAt origin target up =>
    simp only [TransformStep.scalars, List.forall_mem_append] at h
    exact (recovers_lookAt h.1.1 h.1.2 h.2 limit).single (f := id) rfl fun w => by simp

theorem recovers_transform {steps : List (TransformStep α)}
    (h : ∀ x ∈ steps.flatMap TransformStep.scalars, ReadsBack x) (limit : Nat) :
    Recovers limit transform (Encode.transform steps) steps := by
  rw [List.forall_mem_flatMap] at h
  exact .list fun step hstep => recovers_transformStep (h step hstep) limit

/-! ## Textures and materials -/

/-- A value with parts is a texture if it is one with parameters. -/
theorem Recovers.node {t : TextureSpec α} {fields : List (String × Json)} {limit : Nat}
    (h : Recovers limit textureNode (.obj fields) t) : Recovers limit texture (.obj fields) t := by
  refine ⟨h.fits, h.eq_some, fun {n y} hy => h.depth_le (y := y) ?_⟩
  rw [Json.clip] at hy ⊢
  split at hy
  next hn => rwa [if_pos hn]
  next hn => rwa [if_neg hn]

theorem recovers_texture {t : TextureSpec α} (h : ∀ x ∈ t.scalars, ReadsBack x) (limit : Nat) :
    Recovers limit texture (Encode.texture t) t := by
  cases t with
  | scalar value =>
    have r := recovers_scalar (List.forall_mem_singleton.1 h)
    exact .leaf (r limit).fits (depth_scalar value) (by rw [texture, Encode.texture, Recovers.eq r])
  | color value =>
    have r := recovers_vec3 h
    refine .flat (r limit).fits (depth_vec3 value) ?_ rfl
    have hscalar : (scalar (Encode.vec3 value) : Option α) = none := rfl
    rw [texture, Encode.texture, hscalar, Recovers.eq r]
  | constant value =>
    have r := recovers_vec3 h
    refine .node (.tagged ⟨(r limit).fits, trivial⟩ (by decide) (by simp) fun _ => ?_)
    simp [slots, required_some, Recovers.eq r]
  | checkerboard color₀ color₁ scale =>
    simp only [TextureSpec.scalars, List.forall_mem_append] at h
    have r₀ := recovers_vec3 h.1.1
    have r₁ := recovers_vec3 h.1.2
    have rscale := recovers_vec2 h.2
    refine .node (.tagged ⟨(r₀ limit).fits, (r₁ limit).fits, (rscale limit).fits, trivial⟩
      (by decide) (by simp) fun _ => ?_)
    simp [slots, required_some, withDefault_some, Recovers.eq r₀, Recovers.eq r₁,
      Recovers.eq rscale]
  | image filename exposure edge smoothing =>
    have rname := recovers_string filename
    have rexposure := recovers_scalar (List.forall_mem_singleton.1 h)
    have redge := recovers_border edge
    have rsmoothing := recovers_filter smoothing
    refine .node (.tagged ⟨(rname limit).fits, (rexposure limit).fits, (redge limit).fits,
      (rsmoothing limit).fits, trivial⟩ (by decide) (by simp) fun _ => ?_)
    simp [slots, required_some, withDefault_some, Recovers.eq rname, Recovers.eq rexposure,
      Recovers.eq redge, Recovers.eq rsmoothing]

theorem recovers_bsdf {b : Bsdf (TextureSpec α)}
    (h : ∀ x ∈ b.textures.flatMap TextureSpec.scalars, ReadsBack x) (nested : Bool) (limit : Nat) :
    Recovers limit (bsdf nested) (Encode.bsdf b) b := by
  rw [List.forall_mem_flatMap] at h
  have htexture : ∀ t ∈ b.textures, ∀ limit, Recovers limit texture (Encode.texture t) t :=
    fun t ht => recovers_texture (h t ht)
  cases b with
  | diffuse albedo =>
    simp only [Bsdf.textures, List.forall_mem_cons] at htexture
    obtain ⟨r₁, -⟩ := htexture
    refine .tagged ⟨(r₁ limit).fits, trivial⟩ (by decide) (by simp) fun _ => ?_
    simp [slots, withDefault_some, Recovers.eq r₁]
  | dielectric ior reflectance transmittance =>
    simp only [Bsdf.textures, List.forall_mem_cons] at htexture
    obtain ⟨r₁, r₂, r₃, -⟩ := htexture
    refine .tagged ⟨(r₁ limit).fits, (r₂ limit).fits, (r₃ limit).fits, trivial⟩ (by decide)
      (by simp) fun _ => ?_
    simp [slots, withDefault_some, Recovers.eq r₁, Recovers.eq r₂, Recovers.eq r₃]
  | roughConductor reflectance roughness =>
    simp only [Bsdf.textures, List.forall_mem_cons] at htexture
    obtain ⟨r₁, r₂, -⟩ := htexture
    refine .tagged ⟨(r₁ limit).fits, (r₂ limit).fits, trivial⟩ (by decide) (by simp) fun _ => ?_
    simp [slots, withDefault_some, Recovers.eq r₁, Recovers.eq r₂]
  | roughDielectric ior reflectance transmittance roughness =>
    simp only [Bsdf.textures, List.forall_mem_cons] at htexture
    obtain ⟨r₁, r₂, r₃, r₄, -⟩ := htexture
    refine .tagged ⟨(r₁ limit).fits, (r₂ limit).fits, (r₃ limit).fits, (r₄ limit).fits, trivial⟩
      (by decide) (by simp) fun _ => ?_
    simp [slots, withDefault_some, Recovers.eq r₁, Recovers.eq r₂, Recovers.eq r₃, Recovers.eq r₄]
  | principled baseColor roughness metallic specular =>
    simp only [Bsdf.textures, List.forall_mem_cons] at htexture
    obtain ⟨r₁, r₂, r₃, r₄, -⟩ := htexture
    refine .tagged ⟨(r₁ limit).fits, (r₂ limit).fits, (r₃ limit).fits, (r₄ limit).fits, trivial⟩
      (by decide) (by simp) fun _ => ?_
    simp [slots, withDefault_some, Recovers.eq r₁, Recovers.eq r₂, Recovers.eq r₃, Recovers.eq r₄]

theorem recovers_emission {t : TextureSpec α} (h : ∀ x ∈ t.scalars, ReadsBack x) (nested : Bool)
    (limit : Nat) : Recovers limit (emission nested) (Encode.emission t) t := by
  have r := recovers_texture h
  refine .tagged ⟨(r limit).fits, trivial⟩ (by decide) (by simp) fun _ => ?_
  simp [slots, required_some, Recovers.eq r]

/-! ## Shapes -/

section

variable {binding : BindingSpec α} {s : ShapeSpec α}

theorem recovers_inst
    (hshape : ∀ nested limit, Recovers limit (shape limit nested) (Encode.shape s) s)
    (hbinding : ∀ x ∈ binding.scalars, ReadsBack x) (nested : Bool) (limit : Nat) :
    Recovers limit (inst limit nested) (Encode.inst (.mk s binding)) (.mk s binding) := by
  simp only [BindingSpec.scalars, BindingSpec.textures, List.flatMap_append,
    List.forall_mem_append] at hbinding
  obtain ⟨⟨⟨hbsdf, hemission⟩, hnormal⟩, htransform⟩ := hbinding
  have rbsdf (limit : Nat) : Recovers limit (fun v => optional (bsdf nested) (some v))
      (.opt Encode.bsdf binding.bsdf) binding.bsdf :=
    .optional rfl fun b hb =>
      recovers_bsdf (by simpa [Option.mem_def.1 hb] using hbsdf) nested limit
  have remission (limit : Nat) : Recovers limit (fun v => optional (emission nested) (some v))
      (.opt Encode.emission binding.emission) binding.emission :=
    .optional rfl fun t ht =>
      recovers_emission (by simpa [Option.mem_def.1 ht] using hemission) nested limit
  have rnormal (limit : Nat) : Recovers limit (fun v => optional texture (some v))
      (.opt Encode.texture binding.normal) binding.normal :=
    .optional rfl fun t ht => recovers_texture (by simpa [Option.mem_def.1 ht] using hnormal) limit
  have rtransform := recovers_transform htransform
  have hfits : (Encode.inst (.mk s binding)).Fits :=
    ⟨(hshape nested limit).fits, (rbsdf limit).fits, (remission limit).fits,
      (rtransform limit).fits, (rnormal limit).fits, trivial⟩
  cases limit with
  | zero => exact ⟨hfits, nofun, nofun⟩
  | succ limit =>
    refine .record hfits (fun hlt => ?_) rfl fun {n y} hy => ?_
    · have hle : (Encode.shape s).depth ≤ limit := by
        simp only [Json.fieldsDepth] at hlt
        omega
      simp [inst, slots, required_some, withDefault_some, (hshape nested limit).eq_some hle,
        Recovers.eq rbsdf, Recovers.eq remission, Recovers.eq rtransform, Recovers.eq rnormal]
    · change (do
        let what ← shape limit nested ((Encode.shape s).clip n)
        let material ← optional (bsdf nested) (some _)
        let glow ← optional (emission nested) (some _)
        let steps ← transform _
        let normal ← optional texture (some _)
        return InstanceSpec.mk what ⟨material, glow, steps, normal⟩) = some y at hy
      simp only [Option.bind_eq_bind, Option.bind_eq_some_iff] at hy
      obtain ⟨_, h₁, _, h₂, _, h₃, _, h₄, _, h₅, -⟩ := hy
      simp only [Json.fieldsDepth, Nat.max_le]
      exact ⟨(hshape nested limit).depth_le h₁, (rbsdf n).depth_le h₂, (remission n).depth_le h₃,
        (rtransform n).depth_le h₄, (rnormal n).depth_le h₅, Nat.zero_le n⟩

omit [Scalar α] in
theorem instances_eq (children : List (InstanceSpec α)) :
    Encode.instances children = children.map Encode.inst := by
  induction children with
  | nil => rfl
  | cons child children ih => rw [Encode.instances, ih, List.map_cons]

/-- Without any level left there is no shape to recover. -/
theorem recovers_shape_of_succ {nested : Bool}
    (h : ∀ limit, Recovers (limit + 1) (shape (limit + 1) nested) (Encode.shape s) s)
    (limit : Nat) : Recovers limit (shape limit nested) (Encode.shape s) s := by
  have hdepth : (Encode.shape s).depth ≠ 0 := by
    cases s <;> exact Nat.succ_ne_zero _
  cases limit with
  | zero => exact ⟨(h 0).fits, fun hle => absurd (Nat.le_zero.1 hle) hdepth, nofun⟩
  | succ limit => exact h limit

theorem recovers_shape (h : ∀ x ∈ s.scalars, ReadsBack x) (nested : Bool) (limit : Nat) :
    Recovers limit (shape limit nested) (Encode.shape s) s := by
  induction s using ShapeSpec.induct generalizing nested limit with
  | sphere =>
    refine recovers_shape_of_succ (fun _ => ?_) limit
    exact .tagged trivial (by decide) (by simp) fun _ => rfl
  | rectangle =>
    refine recovers_shape_of_succ (fun _ => ?_) limit
    exact .tagged trivial (by decide) (by simp) fun _ => rfl
  | mesh filename smooth =>
    refine recovers_shape_of_succ (fun _ => ?_) limit
    exact .tagged ⟨trivial, trivial, trivial⟩ (by decide) (by simp) fun _ => rfl
  | group children ih =>
    rw [ShapeSpec.scalars, InstanceSpec.forall_mem_allScalars] at h
    have rchildren (limit : Nat) :
        Recovers limit (list (inst limit true)) (.arr (Encode.instances children)) children := by
      rw [instances_eq]
      refine .list fun child hchild => ?_
      obtain ⟨s, binding⟩ := child
      obtain ⟨hs, hbinding⟩ := h _ hchild
      exact recovers_inst (ih _ hchild hs) hbinding true limit
    refine recovers_shape_of_succ (fun limit => ?_) limit
    refine .tagged ⟨(rchildren limit).fits, trivial⟩ (by decide) (by simp) fun hlt => ?_
    have hle : (Json.arr (Encode.instances children)).depth ≤ limit := by
      simp only [Json.fieldsDepth] at hlt
      omega
    simp [slots, required_some, (rchildren limit).eq_some hle]
  | ref id =>
    refine recovers_shape_of_succ (fun _ => ?_) limit
    exact .tagged ⟨trivial, trivial⟩ (by decide) (by simp) fun _ => rfl

theorem recovers_instances {instances : List (InstanceSpec α)}
    (h : ∀ x ∈ InstanceSpec.allScalars instances, ReadsBack x) (nested : Bool) (limit : Nat) :
    Recovers limit (list (inst limit nested)) (.arr (Encode.instances instances)) instances := by
  rw [InstanceSpec.forall_mem_allScalars] at h
  rw [instances_eq]
  refine .list fun i hi => ?_
  obtain ⟨s, binding⟩ := i
  exact recovers_inst (recovers_shape (h _ hi).1) (h _ hi).2 nested limit

end

/-! ## The other parts -/

-- Whole numbers are abstracted from here: comparing them with the bounds of a word unfolds badly.

theorem camera_obj {width height fov axis steps aperture focus : Json} {c : CameraSpec α}
    (hfits : Json.FieldsFit [("width", width), ("height", height), ("fov", fov),
      ("fov_axis", axis), ("transform", steps), ("aperture_radius", aperture),
      ("focus_distance", focus)])
    (hwidth : uint32 width = some c.width) (hheight : uint32 height = some c.height)
    (hfov : scalar fov = some c.fov) (haxis : fovAxis axis = some c.fovAxis)
    (hsteps : transform steps = some c.transform)
    (haperture : scalar aperture = some c.apertureRadius)
    (hfocus : scalar focus = some c.focusDistance) (limit : Nat) :
    Recovers limit camera (.obj [("type", .str "perspective"), ("width", width),
      ("height", height), ("fov", fov), ("fov_axis", axis), ("transform", steps),
      ("aperture_radius", aperture), ("focus_distance", focus)]) c := by
  refine .tagged hfits (by decide) (by simp) fun _ => ?_
  simp [slots, required_some, withDefault_some, hwidth, hheight, hfov, haxis, hsteps, haperture,
    hfocus]

theorem recovers_camera {c : CameraSpec α} (h : ∀ x ∈ c.scalars, ReadsBack x) (limit : Nat) :
    Recovers limit camera (Encode.camera c) c := by
  simp only [CameraSpec.scalars, List.forall_mem_append, List.forall_mem_cons] at h
  obtain ⟨⟨hfov, haperture, hfocus, -⟩, htransform⟩ := h
  have rwidth := recovers_uint32 c.width
  have rheight := recovers_uint32 c.height
  have rfov := recovers_scalar hfov
  have raxis := recovers_fovAxis c.fovAxis
  have rtransform := recovers_transform htransform
  have raperture := recovers_scalar haperture
  have rfocus := recovers_scalar hfocus
  exact camera_obj ⟨(rwidth limit).fits, (rheight limit).fits, (rfov limit).fits,
    (raxis limit).fits, (rtransform limit).fits, (raperture limit).fits, (rfocus limit).fits,
    trivial⟩ (Recovers.eq rwidth) (Recovers.eq rheight) (Recovers.eq rfov) (Recovers.eq raxis)
    (Recovers.eq rtransform) (Recovers.eq raperture) (Recovers.eq rfocus) limit

theorem sampler_obj {count seed : Json} {c : UInt32} {k : UInt64}
    (hfits : Json.FieldsFit [("count", count), ("seed", seed)]) (hcount : uint32 count = some c)
    (hseed : uint64 seed = some k) (kind : SamplerKind) (limit : Nat) :
    Recovers limit sampler (.obj [("type", .str (match kind with
        | .independent => "independent"
        | .halton => "halton")), ("count", count), ("seed", seed)]) ⟨kind, c, k⟩ := by
  cases kind with
  | independent =>
    refine .tagged hfits (by decide) (by simp) fun _ => ?_
    simp [slots, withDefault_some, hcount, hseed]
  | halton =>
    refine .tagged hfits (by decide) (by simp) fun _ => ?_
    simp [slots, withDefault_some, hcount, hseed]

theorem recovers_sampler (s : SamplerSpec) (limit : Nat) :
    Recovers limit sampler (Encode.sampler s) s := by
  have rcount := recovers_uint32 s.count
  have rseed := recovers_uint64 s.seed
  exact sampler_obj ⟨(rcount limit).fits, (rseed limit).fits, trivial⟩ (Recovers.eq rcount)
    (Recovers.eq rseed) s.kind limit

theorem pathTracer_obj {depth : Json} {maxDepth : UInt32}
    (hfits : Json.FieldsFit [("depth", depth)]) (h : uint32 depth = some maxDepth) (limit : Nat) :
    Recovers limit integrator (.obj [("type", .str "pathtracer"), ("depth", depth)])
      (.pathTracer maxDepth : Integrator α) := by
  refine .tagged hfits (by decide) (by simp) fun _ => ?_
  simp [slots, withDefault_some, h]

theorem recovers_integrator {i : Integrator α} (h : ∀ x ∈ i.scalars, ReadsBack x) (limit : Nat) :
    Recovers limit integrator (Encode.integrator i) i := by
  cases i with
  | pathTracer depth =>
    have r := recovers_uint32 depth
    exact pathTracer_obj ⟨(r limit).fits, trivial⟩ (Recovers.eq r) limit
  | direct => exact .tagged trivial (by decide) (by simp) fun _ => rfl
  | normals remap => exact .tagged ⟨trivial, trivial⟩ (by decide) (by simp) fun _ => rfl
  | albedo => exact .tagged trivial (by decide) (by simp) fun _ => rfl
  | traversal unit =>
    have r := recovers_scalar (List.forall_mem_singleton.1 h)
    refine .tagged ⟨(r limit).fits, trivial⟩ (by decide) (by simp) fun _ => ?_
    simp [slots, withDefault_some, Recovers.eq r]

theorem recovers_light {l : LightSpec α} (h : ∀ x ∈ l.scalars, ReadsBack x) (limit : Nat) :
    Recovers limit light (Encode.light l) l := by
  cases l with
  | point position power =>
    rw [LightSpec.scalars, List.forall_mem_append] at h
    have r₁ := recovers_vec3 h.1
    have r₂ := recovers_vec3 h.2
    refine .tagged ⟨(r₁ limit).fits, (r₂ limit).fits, trivial⟩ (by decide) (by simp) fun _ => ?_
    simp [slots, required_some, Recovers.eq r₁, Recovers.eq r₂]
  | directional direction intensity =>
    rw [LightSpec.scalars, List.forall_mem_append] at h
    have r₁ := recovers_vec3 h.1
    have r₂ := recovers_vec3 h.2
    refine .tagged ⟨(r₁ limit).fits, (r₂ limit).fits, trivial⟩ (by decide) (by simp) fun _ => ?_
    simp [slots, required_some, Recovers.eq r₁, Recovers.eq r₂]
  | envmap image steps =>
    rw [LightSpec.scalars, List.forall_mem_append] at h
    have r₁ := recovers_texture h.1
    have r₂ := recovers_transform h.2
    refine .tagged ⟨(r₁ limit).fits, (r₂ limit).fits, trivial⟩ (by decide) (by simp) fun _ => ?_
    simp [slots, required_some, withDefault_some, Recovers.eq r₁, Recovers.eq r₂]

end Decode

namespace Description

open Decode JsonScalar

variable [Scalar α] [JsonScalar α] {d : Description α}

theorem ofJson?_obj (camera sampler integrator output shared instances lights : Json) :
    (ofJson? (.obj [("camera", camera), ("sampler", sampler), ("integrator", integrator),
      ("output", output), ("shared", shared), ("instances", instances), ("lights", lights)]) :
        Option (Description α)) = do
      let camera ← Decode.camera camera
      let sampler ← Decode.sampler sampler
      let integrator ← Decode.integrator integrator
      let output ← optional string (some output)
      let shared ← table (shape Json.maxDepth false) shared
      let instances ← list (inst Json.maxDepth false) instances
      let lights ← list light lights
      return { camera, sampler, integrator, output, shared, instances, lights } := by
  simp [ofJson?, slots, required_some, withDefault_some]

theorem recovers_ofJson? (hsorted : d.shared.Pairwise fun a b => a.1 < b.1)
    (h : ∀ x ∈ d.scalars, ReadsBack x) : Recovers Json.maxDepth ofJson? d.toJson d := by
  simp only [scalars, List.forall_mem_append, List.forall_mem_flatMap] at h
  obtain ⟨⟨⟨⟨hcamera, hintegrator⟩, hshared⟩, hinstances⟩, hlights⟩ := h
  have rcamera := recovers_camera hcamera
  have rsampler := recovers_sampler d.sampler
  have rintegrator := recovers_integrator hintegrator
  have routput (limit : Nat) : Recovers limit (fun v => optional string (some v))
      (.opt .str d.output) d.output := .optional rfl fun s _ => recovers_string s limit
  have rshared : Recovers Json.maxDepth (table (shape Json.maxDepth false))
      (.obj (d.shared.map fun entry => (entry.1, Encode.shape entry.2))) d.shared :=
    .table hsorted fun entry hentry => recovers_shape (hshared entry hentry) false _
  have rinstances := recovers_instances hinstances false Json.maxDepth
  have rlights (limit : Nat) : Recovers limit (list light) (.list Encode.light d.lights) d.lights :=
    .list fun l hl => recovers_light (hlights l hl) limit
  refine .record ⟨(rcamera 0).fits, (rsampler 0).fits, (rintegrator 0).fits, (routput 0).fits,
    rshared.fits, rinstances.fits, (rlights 0).fits, trivial⟩ (fun hlt => ?_) rfl fun {n y} hy => ?_
  · simp only [Json.fieldsDepth, Nat.max_lt] at hlt
    obtain ⟨-, -, -, -, hshared, hinstances, -⟩ := hlt
    rw [ofJson?_obj, Recovers.eq rcamera, Recovers.eq rsampler, Recovers.eq rintegrator,
      Recovers.eq routput, rshared.eq_some hshared.le, rinstances.eq_some hinstances.le,
      Recovers.eq rlights]
    rfl
  · simp only [Json.clipFields] at hy
    rw [ofJson?_obj] at hy
    simp only [Option.bind_eq_bind, Option.bind_eq_some_iff] at hy
    obtain ⟨_, h₁, _, h₂, _, h₃, _, h₄, _, h₅, _, h₆, _, h₇, -⟩ := hy
    simp only [Json.fieldsDepth, Nat.max_le]
    exact ⟨(rcamera n).depth_le h₁, (rsampler n).depth_le h₂, (rintegrator n).depth_le h₃,
      (routput n).depth_le h₄, rshared.depth_le h₅, rinstances.depth_le h₆,
      (rlights n).depth_le h₇, Nat.zero_le n⟩

theorem parse_of_recovers (r : Recovers Json.maxDepth ofJson? d.toJson d) :
    parse d.toJson.text = if d.toJson.depth ≤ Json.maxDepth then .ok d else .error .malformed := by
  rw [parse, Json.parse?_text r.fits, Option.bind_some]
  by_cases hdepth : d.toJson.depth ≤ Json.maxDepth
  · rw [Json.clip_eq_self hdepth, r.eq_some hdepth, if_pos hdepth]
  · rw [if_neg hdepth]
    cases hread : (ofJson? (d.toJson.clip Json.maxDepth) : Option (Description α)) with
    | none => rfl
    | some y => exact absurd (r.depth_le hread) hdepth

/-- A description whose numbers read back is read back from its text, unless its parts lie too deep
inside one another. -/
theorem parse_text_toJson (d : Description α) (hsorted : d.shared.Pairwise fun a b => a.1 < b.1)
    (h : ∀ x ∈ d.scalars, ReadsBack x) :
    parse d.toJson.text = if d.toJson.depth ≤ Json.maxDepth then .ok d else .error .malformed :=
  parse_of_recovers (recovers_ofJson? hsorted h)

/-- A description with a value of every kind. -/
def assorted : Description Float32 where
  camera := ⟨640, 480, 62.5, .y, [.lookAt ⟨0, 1, -4⟩ ⟨0, 0.1, 0⟩ ⟨0, 1, 0⟩], 0.05, 4.25⟩
  sampler := ⟨.halton, 4294967295, 18446744073709551615⟩
  integrator := .traversal 3.5
  output := some "out/\"é\"\n.png"
  shared := [("a", .mesh "bunny.obj" false), ("b", .group [.mk (.ref "a") ⟨none, none, [], none⟩])]
  instances :=
    [.mk .sphere ⟨some (.roughDielectric (.scalar 1.5) (.color ⟨1, 0.5, 1e-7⟩)
        (.constant ⟨0.25, 0, 1⟩) (.checkerboard ⟨0, 0, 0⟩ ⟨1, 1, 1⟩ ⟨10, 2.5⟩)),
        none, [.translate ⟨1, 2, 3⟩, .scale ⟨2, 2, -2⟩], some (.image "n.png" 1 .clamp .nearest)⟩,
      .mk (.group [.mk .rectangle ⟨some (.principled (.scalar 0.8) (.scalar 0.3) (.scalar 0)
        (.scalar 0.5)), some (.scalar 12), [.rotate ⟨0, 0, 1⟩ 33.3], none⟩]) ⟨none, none,
        [.matrix ⟨⟨1, 0, 0, 0⟩, ⟨0, 1, 0, 0⟩, ⟨0, 0, 1, 0⟩, ⟨0.5, 3.4e38, -1e-45, 1⟩⟩], none⟩,
      .mk (.ref "b") ⟨some (.dielectric (.scalar 1.33) (.scalar 1) (.scalar 1)), none, [], none⟩,
      .mk .sphere ⟨some (.roughConductor (.scalar 0.9) (.scalar 0.1)), none, [], none⟩,
      .mk .sphere ⟨some (.diffuse (.image "w.png" 2 .tile .bilinear)), none, [], none⟩]
  lights := [.point ⟨0, 5, 0⟩ ⟨10, 10, 10⟩, .directional ⟨0, 1, 0⟩ ⟨1, 1, 1⟩,
    .envmap (.scalar 0.1) [.rotate ⟨0, 1, 0⟩ 90]]

theorem parse_text_assorted :
    assorted.shared.Pairwise (fun a b => a.1 < b.1) ∧ (∀ x ∈ assorted.scalars, ReadsBack x) ∧
      parse assorted.toJson.text = .ok assorted := by
  have hsorted : assorted.shared.Pairwise fun a b => a.1 < b.1 := by decide
  have hread : ∀ x ∈ assorted.scalars, ReadsBack x := by decide +kernel
  have hdepth : assorted.toJson.depth ≤ Json.maxDepth := by decide +kernel
  refine ⟨hsorted, hread, ?_⟩
  rw [parse_text_toJson assorted hsorted hread, if_pos hdepth]

/-- Groups inside one another around a sphere. -/
def nestedGroups : Nat → ShapeSpec α
  | 0 => .sphere
  | n + 1 => .group [.mk (nestedGroups n) ⟨none, none, [], none⟩]

/-- A description with a single instance and the default of every setting. -/
def ofShape (shape : ShapeSpec Float32) : Description Float32 where
  camera := ⟨4, 3, 40, .x, [], 0, 1⟩
  sampler := .standard
  integrator := .pathTracer 2
  output := some "o.png"
  shared := []
  instances := [.mk shape ⟨none, none, [], none⟩]
  lights := []

/-- Of groups inside one another only 41 are read back, though all their numbers are. -/
theorem parse_text_nestedGroups :
    (ofShape (nestedGroups 42)).shared.Pairwise (fun a b => a.1 < b.1) ∧
      (∀ x ∈ (ofShape (nestedGroups 42)).scalars, ReadsBack x ∧ x.isFinite = true) ∧
      (parse (ofShape (nestedGroups 42)).toJson.text : Except _ (Description Float32)) =
        .error .malformed := by
  have hread : ∀ x ∈ (ofShape (nestedGroups 42)).scalars, ReadsBack x ∧ x.isFinite = true := by
    decide +kernel
  have hdeep : ¬(ofShape (nestedGroups 42)).toJson.depth ≤ Json.maxDepth := by decide +kernel
  refine ⟨.nil, hread, ?_⟩
  rw [parse_of_recovers (recovers_ofJson? .nil fun x hx => (hread x hx).1), if_neg hdeep]

end Description

end Radiance
