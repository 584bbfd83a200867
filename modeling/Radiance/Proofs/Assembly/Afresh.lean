import Radiance.Proofs.Assembly.Sound
import Radiance.Proofs.Files.Agreement

/-!
# Building without a memory

A builder that keeps nothing: every mesh and every image is read again wherever it is named.  Where
all files can be read and all placements can be undone, each step of an assembly gives what it gives
to this builder, whatever has been read before.

## Main definitions

* `Plan.afresh`: what a step gives if nothing has been read before it.
* `Plan.freshShape`, `Plan.freshScene`: shapes and scenes with every file read again.
* `Plan.Loads`: all files of a shape can be read, and all of its placements undone.
* `Stock.IsGenuine`: the meshes and images kept so far are those of the files.
* `Assemble.Matches`: a step gives the same from every genuine stock.

## Main statements

* `Plan.matches_binding`, `Plan.matches_mesh`, `Plan.matches_light`: the steps that read files.
-/

namespace Radiance

variable {α β γ : Type}

/-! ## Steps that leave the shared shapes alone -/

namespace Assemble

theorem run_bind_of_ok {m : Assemble α β} {f : β → Assemble α γ} {stock after : Stock α} {x : β}
    (h : m.run stock = (.ok x, after)) : (m >>= f).run stock = (f x).run after := by
  change ExceptT.bindCont f (m.run stock).1 (m.run stock).2 = _
  rw [h]
  rfl

theorem run_bind_of_error {m : Assemble α β} {f : β → Assemble α γ} {stock after : Stock α}
    {e : LoadError α} (h : m.run stock = (.error e, after)) :
    (m >>= f).run stock = (.error e, after) := by
  change ExceptT.bindCont f (m.run stock).1 (m.run stock).2 = _
  rw [h]
  rfl

theorem run_get_bind (f : Stock α → Assemble α β) (stock : Stock α) :
    (get >>= f).run stock = (f stock).run stock := rfl

/-- A step that keeps no shared shape. -/
def KeepsShared (m : Assemble α β) : Prop :=
  ∀ table, m.Yields (fun stock => stock.shared = table) fun _ => True

namespace KeepsShared

theorem shared_run {m : Assemble α β} (h : m.KeepsShared) (stock : Stock α) :
    (m.run stock).2.shared = stock.shared := (h stock.shared stock rfl).1

theorem pure (x : β) : KeepsShared (Pure.pure x : Assemble α β) := fun _ => .pure trivial

theorem throw (e : LoadError α) : KeepsShared (throw e : Assemble α β) := fun _ => .throw e

theorem bind {m : Assemble α β} {f : β → Assemble α γ} (hm : m.KeepsShared)
    (hf : ∀ x, (f x).KeepsShared) : (m >>= f).KeepsShared :=
  fun table => (hm table).bind fun x _ => hf x table

theorem get : KeepsShared (get : Assemble α (Stock α)) :=
  fun _ => Yields.get.mono fun _ _ => trivial

theorem modify {f : Stock α → Stock α} (hf : ∀ stock, (f stock).shared = stock.shared) :
    KeepsShared (modify f : Assemble α Unit) :=
  fun _ => .modify fun stock h => (hf stock).trans h

theorem foldlM {f : γ → β → Assemble α γ} (hf : ∀ c b, (f c b).KeepsShared) (l : List β) (c : γ) :
    (l.foldlM f c).KeepsShared :=
  fun table => .foldlM (fun c b _ => hf c b table) l trivial

end KeepsShared

end Assemble

theorem Stock.ofShapes_shared {table : List (String × Shape α)} :
    Stock.OfShapes fun stock => stock.shared = table :=
  fun _ _ _ hshared h => hshared.trans h

namespace Plan

open Assemble (KeepsShared)

theorem keepsShared_note (events : List (Event α)) : (note events).KeepsShared :=
  fun _ => yields_note Stock.ofShapes_shared events

variable (plan : Plan α)

variable [Scalar α]

theorem keepsShared_binding (spec : BindingSpec α) (owner : String) :
    (plan.binding spec owner).KeepsShared :=
  fun _ => (yields_binding Stock.ofShapes_shared owner (P := fun _ => True)
    fun _ _ _ => trivial).mono fun _ _ => trivial

theorem keepsShared_mesh (filename : String) (smooth : Bool) :
    (plan.mesh filename smooth).KeepsShared := by
  unfold mesh
  refine KeepsShared.get.bind fun stock => ?_
  dsimp only
  split
  · exact .pure _
  · split
    · exact .throw _
    · exact (keepsShared_note _).bind fun _ => (KeepsShared.modify fun _ => rfl).bind
        fun _ => .pure _

theorem keepsShared_group (children : List (Shape α)) : (group children).KeepsShared :=
  (keepsShared_note _).bind fun _ => .pure _

theorem keepsShared_camera (spec : CameraSpec α) : (camera spec).KeepsShared :=
  fun _ => yields_camera Stock.ofShapes_shared spec

theorem keepsShared_light (scene : Scene α) (spec : LightSpec α) :
    (plan.light scene spec).KeepsShared :=
  fun _ => (yields_light Stock.ofShapes_shared scene spec).mono fun _ _ => trivial

/-! ## Reading everything again -/

/-- The stock of a plan before anything has been read. -/
def start : Stock α := { images := { base := some plan.base } }

/-- What a step gives if nothing has been read before it. -/
def afresh (m : Assemble α β) : Except (LoadError α) β := (m.run plan.start).1

/-- The texture of its description, with its image read again. -/
def freshTexture (spec : TextureSpec α) : Except (LoadError α) (Texture α) :=
  plan.afresh (plan.texture spec)

def freshTexture? : Option (TextureSpec α) → Except (LoadError α) (Option (Texture α))
  | none => return none
  | some spec => return some (← plan.freshTexture spec)

/-- What an instance gives to its shape, with all images read again. -/
def freshBinding (spec : BindingSpec α) (owner : String) : Except (LoadError α) (Binding α) := do
  let bsdf ←
    match spec.bsdf with
    | none => pure none
    | some b => pure (some (← b.mapM plan.freshTexture))
  let emission ← plan.freshTexture? spec.emission
  let normalMap ← plan.freshTexture? spec.normal
  let transform ← plan.afresh (transform spec.transform owner)
  return { bsdf, emission, transform, normalMap }

/-- An instance of a shape, with all images read again. -/
def freshPlaced (inner : Shape α) (spec : BindingSpec α) (owner : String) :
    Except (LoadError α) (Shape α) :=
  return .placed inner (← plan.freshBinding spec owner)

mutual

/-- The shape of a description without references, with all files read again. -/
def freshShape : ShapeSpec α → Except (LoadError α) (Shape α)
  | .sphere => return .sphere
  | .rectangle => return .rectangle
  | .mesh filename smooth => plan.afresh (plan.mesh filename smooth)
  | .group children => do
    let shapes ← freshShapes (fun i => s!"group child {i}") 0 children
    return .ofChildren .midpoint shapes.toArray
  | .ref id => throw (.config (.unknownReference id))

/-- The instances of a description without references, numbered from `i`, with all files read
again. -/
def freshShapes (owner : Nat → String) (i : Nat) :
    List (InstanceSpec α) → Except (LoadError α) (List (Shape α))
  | [] => return []
  | .mk shape binding :: rest => do
    let first ← plan.freshPlaced (← freshShape shape) binding (owner i)
    return first :: (← freshShapes owner (i + 1) rest)

end

/-- The scene with a light added, with its image read again. -/
def freshLight (scene : Scene α) : LightSpec α → Except (LoadError α) (Scene α)
  | .point position power => return scene.withLight (.ofPower position power)
  | .directional direction intensity =>
    return scene.withLight (.ofDirection direction intensity)
  | .envmap textureSpec steps => do
    let texture ← plan.freshTexture textureSpec
    return scene.withEnvironment ⟨texture, ← plan.afresh (transform steps "envmap")⟩

/-- The scene of a description with other instances, none of which has references, with all files
read again. -/
def freshScene (d : Description α) (instances : List (InstanceSpec α)) :
    Except (LoadError α) (Scene α) := do
  let camera ← plan.afresh (camera d.camera)
  let shapes ← plan.freshShapes (fun i => s!"instance {i}") 0 instances
  d.lights.foldlM plan.freshLight (.ofShapes camera shapes.toArray)

/-! ## Files that can be read -/

/-- There is an image of a file name. -/
def LoadsImage (filename : String) : Prop :=
  (plan.assets.image (PathName.join plan.base filename)).isOk = true

/-- There is a mesh of a file name. -/
def LoadsMesh (filename : String) : Prop :=
  (plan.assets.mesh (PathName.join plan.base filename)).isOk = true

/-- The placement of some steps can be undone. -/
def CanUndo (steps : List (TransformStep α)) : Prop :=
  (TransformStep.compose? steps).all Transform.isInvertible = true

/-- All images of a binding can be read, and its placement can be undone. -/
structure LoadsBinding (b : BindingSpec α) : Prop where
  images : ∀ name ∈ b.fileNames, plan.LoadsImage name
  transform : CanUndo b.transform

mutual

/-- All files of a shape can be read, and all placements in it can be undone. -/
def Loads : ShapeSpec α → Prop
  | .mesh filename _ => plan.LoadsMesh filename
  | .group children => LoadsAll children
  | _ => True

def LoadsAll : List (InstanceSpec α) → Prop
  | [] => True
  | .mk shape binding :: rest => Loads shape ∧ plan.LoadsBinding binding ∧ LoadsAll rest

end

/-- All images of a light can be read, and its placement can be undone. -/
def LoadsLight : LightSpec α → Prop
  | .envmap texture steps =>
    (∀ name ∈ texture.fileNames, plan.LoadsImage name) ∧ CanUndo steps
  | _ => True

/-- All files of a description can be read, and all of its placements can be undone. -/
structure LoadsScene (d : Description α) : Prop where
  camera : CanUndo d.camera.transform
  shared : ∀ entry ∈ plan.shared, plan.Loads entry.2
  instances : plan.LoadsAll d.instances
  lights : ∀ light ∈ d.lights, plan.LoadsLight light

end Plan

/-! ## Genuine stocks -/

/-- The meshes and images kept so far are those of files with the same path components. -/
structure Stock.IsGenuine [Scalar α] (plan : Plan α) (stock : Stock α) : Prop where
  base : stock.images.base = some plan.base
  images : ∀ key image, stock.images.images.lookup key = some image →
    ∃ path, PathName.components path = key ∧ plan.assets.image path = .ok image
  meshes : ∀ key smooth shape, stock.meshes.lookup (key, smooth) = some shape →
    ∃ path mesh, PathName.components path = key ∧ plan.assets.mesh path = .ok mesh ∧
      shape = .mesh (.ofMesh mesh smooth .midpoint)

theorem Plan.isGenuine_start [Scalar α] (plan : Plan α) : plan.start.IsGenuine plan :=
  ⟨rfl, by simp [Plan.start], by simp [Plan.start]⟩

/-- A step gives a result from every genuine stock, and leaves a genuine one. -/
def Assemble.Matches [Scalar α] (plan : Plan α) (x : Except (LoadError α) β) (m : Assemble α β) :
    Prop :=
  ∃ v, x = .ok v ∧ ∀ stock, stock.IsGenuine plan →
    ∃ after, m.run stock = (.ok v, after) ∧ after.IsGenuine plan

namespace Assemble.Matches

variable [Scalar α] {plan : Plan α} {x : Except (LoadError α) β} {m : Assemble α β}

theorem pure (v : β) : Matches plan (Pure.pure v) (Pure.pure v : Assemble α β) :=
  ⟨v, rfl, fun stock hstock => ⟨stock, rfl, hstock⟩⟩

theorem bind {f : β → Assemble α γ} {g : β → Except (LoadError α) γ} (hm : Matches plan x m)
    (hf : ∀ v, Matches plan (g v) (f v)) : Matches plan (x >>= g) (m >>= f) := by
  obtain ⟨v, rfl, hrun⟩ := hm
  obtain ⟨w, hw, hrun'⟩ := hf v
  refine ⟨w, hw, fun stock hstock => ?_⟩
  obtain ⟨middle, hmiddle, hgenuine⟩ := hrun stock hstock
  obtain ⟨after, hafter, hgenuine'⟩ := hrun' middle hgenuine
  exact ⟨after, (run_bind_of_ok hmiddle).trans hafter, hgenuine'⟩

theorem foldlM {f : γ → β → Assemble α γ} {g : γ → β → Except (LoadError α) γ} {l : List β}
    (hf : ∀ c, ∀ b ∈ l, Matches plan (g c b) (f c b)) (c : γ) :
    Matches plan (l.foldlM g c) (l.foldlM f c) := by
  induction l generalizing c with
  | nil => exact .pure c
  | cons b l ih =>
    rw [List.foldlM_cons, List.foldlM_cons]
    exact (hf c b List.mem_cons_self).bind
      fun c => ih (fun c b hb => hf c b (List.mem_cons_of_mem _ hb)) c

/-- What a step gives from every genuine stock, it gives afresh. -/
theorem afresh (h : Matches plan x m) : Matches plan (plan.afresh m) m := by
  obtain ⟨v, rfl, hrun⟩ := h
  refine ⟨v, ?_, hrun⟩
  obtain ⟨after, hafter, -⟩ := hrun plan.start plan.isGenuine_start
  rw [Plan.afresh, hafter]

end Assemble.Matches

namespace Plan

open Assemble (Matches)

variable [Scalar α] {plan : Plan α}

theorem matches_note (events : List (Event α)) :
    Matches plan (Pure.pure ()) (note events : Assemble α Unit) :=
  ⟨(), rfl, fun stock hstock => ⟨{ stock with log := stock.log ++ events }, rfl,
    hstock.base, hstock.images, hstock.meshes⟩⟩

theorem matches_transform {steps : List (TransformStep α)} (h : CanUndo steps) (owner : String) :
    Matches plan (plan.afresh (transform steps owner)) (transform steps owner) := by
  unfold transform
  split
  · exact (Matches.pure none).afresh
  next t ht =>
    have hinvertible : t.isInvertible = true := by simpa [CanUndo, ht] using h
    rw [if_pos hinvertible]
    exact (Matches.pure (some t)).afresh

theorem exists_eq_ok_of_isOk {ε : Type} {x : Except ε β} (h : x.isOk = true) :
    ∃ v, x = .ok v := by
  cases x with
  | error e => cases h
  | ok v => exact ⟨v, rfl⟩

theorem matches_image (hagree : plan.assets.Agree) {filename : String}
    (h : plan.LoadsImage filename) :
    Matches plan (plan.afresh (plan.image filename)) (plan.image filename) := by
  obtain ⟨image, himage⟩ := exists_eq_ok_of_isOk h
  refine Matches.afresh (x := .ok image) ⟨image, rfl, fun stock hstock => ?_⟩
  have hresolve : stock.images.resolve filename = PathName.join plan.base filename := by
    rw [ImageCache.resolve, hstock.base]
  rw [Plan.image, Assemble.run_get_bind]
  dsimp only [ImageCache.load]
  cases hfound : stock.images.find? filename with
  | some kept =>
    -- A path with the same components has been read, so its image is the same.
    obtain ⟨path, hpath, hkept⟩ := hstock.images _ kept hfound
    rw [ImageCache.key, hresolve] at hpath
    obtain rfl := hagree.image hpath hkept himage
    exact ⟨stock, rfl, hstock⟩
  | none =>
    rw [hresolve, himage]
    refine ⟨_, rfl, hstock.base, fun key kept hfound => ?_, hstock.meshes⟩
    dsimp only [ImageCache.insert] at hfound
    rw [List.lookup_append, Option.or_eq_some_iff] at hfound
    rcases hfound with hold | ⟨-, hnew⟩
    · exact hstock.images key kept hold
    · obtain ⟨rfl, rfl⟩ : key = stock.images.key filename ∧ image = kept := by grind
      exact ⟨_, rfl, hresolve ▸ himage⟩

theorem matches_texture (hagree : plan.assets.Agree) {spec : TextureSpec α}
    (h : ∀ name ∈ spec.fileNames, plan.LoadsImage name) :
    Matches plan (plan.freshTexture spec) (plan.texture spec) := by
  cases spec with
  | image filename exposure border filter =>
    exact ((matches_image hagree (h filename (by simp [TextureSpec.fileNames]))).bind
      fun _ => .pure _).afresh
  | _ => exact (Matches.pure _).afresh

theorem matches_texture? (hagree : plan.assets.Agree) {spec : Option (TextureSpec α)}
    (h : ∀ name ∈ spec.toList.flatMap TextureSpec.fileNames, plan.LoadsImage name) :
    Matches plan (plan.freshTexture? spec) (plan.texture? spec) := by
  cases spec with
  | none => exact .pure none
  | some spec => exact (matches_texture hagree (by simpa using h)).bind fun _ => .pure _

theorem matches_bsdf {f : TextureSpec α → Assemble α β} {g : TextureSpec α → Except (LoadError α) β}
    {bsdf : Bsdf (TextureSpec α)} (h : ∀ spec ∈ bsdf.textures, Matches plan (g spec) (f spec)) :
    Matches plan (bsdf.mapM g) (bsdf.mapM f) := by
  cases bsdf with
  | diffuse albedo =>
    exact (h _ (by simp [Bsdf.textures])).bind fun _ => .pure _
  | roughConductor reflectance roughness =>
    exact (h _ (by simp [Bsdf.textures])).bind fun _ =>
      (h _ (by simp [Bsdf.textures])).bind fun _ => .pure _
  | dielectric ior reflectance transmittance =>
    exact (h _ (by simp [Bsdf.textures])).bind fun _ =>
      (h _ (by simp [Bsdf.textures])).bind fun _ =>
        (h _ (by simp [Bsdf.textures])).bind fun _ => .pure _
  | _ =>
    exact (h _ (by simp [Bsdf.textures])).bind fun _ =>
      (h _ (by simp [Bsdf.textures])).bind fun _ =>
        (h _ (by simp [Bsdf.textures])).bind fun _ =>
          (h _ (by simp [Bsdf.textures])).bind fun _ => .pure _

theorem matches_binding (hagree : plan.assets.Agree) {spec : BindingSpec α}
    (h : plan.LoadsBinding spec) (owner : String) :
    Matches plan (plan.freshBinding spec owner) (plan.binding spec owner) := by
  obtain ⟨himages, hplacement⟩ := h
  simp only [BindingSpec.fileNames, List.flatMap_append, List.mem_append, or_imp,
    forall_and] at himages
  obtain ⟨⟨hbsdf, hemission⟩, hnormal⟩ := himages
  have hrest (bsdf : Option (Bsdf (Texture α))) : Matches plan
      (do
        let emission ← plan.freshTexture? spec.emission
        let normalMap ← plan.freshTexture? spec.normal
        let transform ← plan.afresh (transform spec.transform owner)
        return ({ bsdf, emission, transform, normalMap } : Binding α))
      (do
        let emission ← plan.texture? spec.emission
        let normalMap ← plan.texture? spec.normal
        let transform ← transform spec.transform owner
        return ({ bsdf, emission, transform, normalMap } : Binding α)) :=
    (matches_texture? hagree hemission).bind fun _ => (matches_texture? hagree hnormal).bind
      fun _ => (matches_transform hplacement owner).bind fun _ => .pure _
  unfold freshBinding binding
  cases hspec : spec.bsdf with
  | none => exact hrest none
  | some b =>
    rw [hspec] at hbsdf
    have hb : Matches plan (b.mapM plan.freshTexture) (b.mapM plan.texture) :=
      matches_bsdf fun spec hmem => matches_texture hagree fun name hname =>
        hbsdf name (List.mem_flatMap.2 ⟨spec, hmem, hname⟩)
    exact hb.bind fun _ => hrest _

theorem matches_mesh (hagree : plan.assets.Agree) {filename : String}
    (h : plan.LoadsMesh filename) (smooth : Bool) :
    Matches plan (plan.afresh (plan.mesh filename smooth)) (plan.mesh filename smooth) := by
  obtain ⟨mesh, hmesh⟩ := exists_eq_ok_of_isOk h
  refine Matches.afresh (x := .ok (.mesh (.ofMesh mesh smooth .midpoint)))
    ⟨_, rfl, fun stock hstock => ?_⟩
  rw [Plan.mesh, Assemble.run_get_bind]
  dsimp only
  split
  next shape hfound =>
    obtain ⟨path, kept, hpath, hkept, rfl⟩ := hstock.meshes _ _ _ hfound
    obtain rfl := hagree.mesh hpath hkept hmesh
    exact ⟨stock, rfl, hstock⟩
  next =>
    rw [hmesh]
    refine ⟨_, rfl, hstock.base, hstock.images, ?_⟩
    intro key smooth' shape hfound
    dsimp only at hfound
    rw [List.lookup_cons] at hfound
    split at hfound
    next hkey =>
      cases hfound
      obtain ⟨rfl, rfl⟩ : key = _ ∧ smooth' = smooth := by simpa using hkey
      exact ⟨_, mesh, rfl, hmesh, rfl⟩
    · exact hstock.meshes key smooth' shape hfound

theorem matches_group (children : List (Shape α)) :
    Matches plan (pure (.ofChildren .midpoint children.toArray)) (group children) :=
  (matches_note _).bind fun _ => .pure _

theorem matches_camera {spec : CameraSpec α} (h : CanUndo spec.transform) :
    Matches plan (plan.afresh (camera spec)) (camera spec) :=
  ((matches_transform h "camera").bind fun _ => .pure _).afresh

theorem matches_light (hagree : plan.assets.Agree) {spec : LightSpec α} (h : plan.LoadsLight spec)
    (scene : Scene α) : Matches plan (plan.freshLight scene spec) (plan.light scene spec) := by
  cases spec with
  | envmap texture steps =>
    exact (matches_texture hagree h.1).bind fun _ =>
      (matches_transform h.2 "envmap").bind fun _ => .pure _
  | _ => exact .pure _

end Plan

end Radiance
