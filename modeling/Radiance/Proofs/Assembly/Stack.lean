import Radiance.Proofs.Assembly.Inlining

/-!
# Builders with a stack

`Plan.shape` is told which shared shapes are being built.  A builder keeps their names on a stack
instead: it puts a name on the stack before it builds the shape, and takes it off afterwards, also
if the shape cannot be built.  Nothing in its definition says that it comes to an end, so its
results are optional here.  It does come to an end, with the stack as it was, and does the same.

## Main definitions

* `Builder`: a stock and a stack of names.
* `StackPlan.shape`, `StackPlan.shared`, `Build.scene`: building with the stack.
* `Build.Follows`: a step with the stack comes to an end and does what a step without it does.

## Main statements

* `Build.follows_shared`: building a shared shape leaves the stack as it was.
* `Build.scene_eq_inlined`: scenes are built as if without references and without a memory.
-/

namespace Radiance

/-- A builder at work: what it has read and built, and the names of the shared shapes that it is
building, innermost first. -/
structure Builder (α : Type) where
  stock : Stock α
  resolving : List String := []

/-- A step of a builder, which may not come to an end. -/
abbrev Build (α β : Type) : Type := ExceptT (LoadError α) (StateT (Builder α) Option) β

namespace Build

variable {α β γ : Type}

/-- A step that has nothing to do with the stack. -/
def ofAssemble (m : Assemble α β) : Build α β :=
  fun b => some ((m.run b.stock).1, { b with stock := (m.run b.stock).2 })

theorem run_bind_of_ok {n : Build α β} {g : β → Build α γ} {b after : Builder α} {x : β}
    (h : n.run b = some (.ok x, after)) : (n >>= g).run b = (g x).run after := by
  change (n.run b >>= fun r => ExceptT.bindCont g r.1 r.2) = _
  rw [h]
  rfl

theorem run_bind_of_error {n : Build α β} {g : β → Build α γ} {b after : Builder α}
    {e : LoadError α} (h : n.run b = some (.error e, after)) :
    (n >>= g).run b = some (.error e, after) := by
  change (n.run b >>= fun r => ExceptT.bindCont g r.1 r.2) = _
  rw [h]
  rfl

theorem run_get_bind (g : Builder α → Build α β) (b : Builder α) :
    (get >>= g).run b = (g b).run b := rfl

theorem run_modify_bind (f : Builder α → Builder α) (g : Unit → Build α β) (b : Builder α) :
    (modify f >>= g).run b = (g ()).run (f b) := rfl

/-! ## Building with a stack -/

end Build

/-- A plan that is followed with a stack. -/
abbrev StackPlan (α : Type) : Type := Plan α

namespace StackPlan

variable {α : Type} [Scalar α]

mutual

/-- The shape of its description. -/
def shape (plan : StackPlan α) (spec : ShapeSpec α) : Build α (Shape α) :=
  match spec with
  | .sphere => return .sphere
  | .rectangle => return .rectangle
  | .mesh filename smooth => Build.ofAssemble (plan.mesh filename smooth)
  | .group specs => do
    let shapes ← plan |>.children 0 specs
    Build.ofAssemble (Plan.group shapes)
  | .ref id => plan |>.shared id
  partial_fixpoint

/-- The instance of its description. -/
def placed (plan : StackPlan α) (spec : InstanceSpec α) (owner : String) : Build α (Shape α) :=
  match spec with
  | .mk shapeSpec bindingSpec => do
    let inner ← plan |>.shape shapeSpec
    return .placed inner (← Build.ofAssemble (plan.binding bindingSpec owner))
  partial_fixpoint

/-- The children of a group, numbered from `i`. -/
def children (plan : StackPlan α) (i : Nat) (specs : List (InstanceSpec α)) :
    Build α (List (Shape α)) :=
  match specs with
  | [] => return []
  | spec :: rest => do
    let first ← plan |>.placed spec s!"group child {i}"
    return first :: (← plan |>.children (i + 1) rest)
  partial_fixpoint

/-- What comes of a shape, whether it can be built or not. -/
def attempt (plan : StackPlan α) (spec : ShapeSpec α) :
    Build α (Except (LoadError α) (Shape α)) :=
  ((plan |>.shape spec).run >>= fun result => pure (.ok result) :
    StateT (Builder α) Option (Except (LoadError α) (Except (LoadError α) (Shape α))))
  partial_fixpoint

/-- The shared shape of a name, built only if it has not been built before. -/
def shared (plan : StackPlan α) (id : String) : Build α (Shape α) := do
  let b ← get
  match b.stock.shared.lookup id with
  | some shape => return shape
  | none =>
    if id ∈ b.resolving then throw (.config (.cyclicReference id))
    else
      match (Plan.shared plan).lookup id with
      | none => throw (.config (.unknownReference id))
      | some spec =>
        modify fun b => { b with resolving := id :: b.resolving }
        let result ← plan |>.attempt spec
        modify fun b => { b with resolving := b.resolving.tail }
        match result with
        | .error e => throw e
        | .ok shape =>
          modify fun b => { b with stock := b.stock.keep id shape }
          return shape
  partial_fixpoint

end

end StackPlan

namespace Build

open StackPlan

variable [Scalar α]

/-- The instances of a description, numbered from `i`. -/
def instances (plan : Plan α) (i : Nat) : List (InstanceSpec α) → Build α (List (Shape α))
  | [] => return []
  | spec :: rest => do
    let first ← placed plan spec s!"instance {i}"
    return first :: (← instances plan (i + 1) rest)

/-- The scene of a description: the camera, the instances, then the lights. -/
def scene (plan : Plan α) (d : Description α) : Build α (Scene α) := do
  let camera ← ofAssemble (Plan.camera d.camera)
  let shapes ← instances plan 0 d.instances
  let bare := Scene.ofShapes camera shapes.toArray
  if shapes.length ≠ 1 then
    ofAssemble (Plan.note (.rootGrouped shapes.length :: bare.root.buildEvents))
  ofAssemble (d.lights.foldlM plan.light bare)

/-! ## Steps that leave the stack as it was -/

/-- The shape of a name has been built, while its name was on the stack. -/
def HasBuilt (plan : Plan α) (id : String) (made : Shape α) : Prop :=
  ∃ spec way before after, plan.shared.lookup id = some spec ∧
    (shape plan spec).run ⟨before, id :: way⟩ = some (.ok made, ⟨after, id :: way⟩)

/-- A step with a stack comes to an end, does what another step does, leaves the stack as it was,
and keeps no shapes but those it has built. -/
def Follows (plan : Plan α) (way : List String) (m : Assemble α β) (n : Build α β) : Prop :=
  ∀ stock, ∃ result after, m.run stock = (result, after) ∧
    n.run ⟨stock, way⟩ = some (result, ⟨after, way⟩) ∧
    ∀ entry ∈ after.shared, entry ∈ stock.shared ∨ HasBuilt plan entry.1 entry.2

namespace Follows

variable {plan : Plan α} {way : List String} {m : Assemble α β} {n : Build α β}

theorem ofAssemble (h : m.KeepsShared) : Follows plan way m (ofAssemble m) := by
  intro stock
  have hsame := h.shared_run stock
  exact ⟨(m.run stock).1, (m.run stock).2, rfl, rfl, fun entry hentry => .inl (hsame ▸ hentry)⟩

theorem pure (x : β) : Follows plan way (Pure.pure x) (Pure.pure x) :=
  fun stock => ⟨.ok x, stock, rfl, rfl, fun _ hentry => .inl hentry⟩

theorem bind {f : β → Assemble α γ} {g : β → Build α γ} (hm : Follows plan way m n)
    (hf : ∀ x, Follows plan way (f x) (g x)) : Follows plan way (m >>= f) (n >>= g) := by
  intro stock
  obtain ⟨result, middle, hm, hn, hbuilt⟩ := hm stock
  cases result with
  | error e =>
    exact ⟨.error e, middle, Assemble.run_bind_of_error hm, run_bind_of_error hn, hbuilt⟩
  | ok x =>
    obtain ⟨result, after, hm', hn', hbuilt'⟩ := hf x middle
    refine ⟨result, after, (Assemble.run_bind_of_ok hm).trans hm', (run_bind_of_ok hn).trans hn',
      fun entry hentry => ?_⟩
    rcases hbuilt' entry hentry with hold | hnew
    · exact hbuilt entry hold
    · exact .inr hnew

end Follows

/-! ## Shapes and scenes -/

theorem run_attempt {plan : Plan α} {spec : ShapeSpec α} {b after : Builder α}
    {result : Except (LoadError α) (Shape α)} (h : (shape plan spec).run b = some (result, after)) :
    (attempt plan spec).run b = some (.ok result, after) := by
  rw [attempt]
  change ((shape plan spec).run b >>= fun r => some (Except.ok r.1, r.2)) = _
  rw [h]
  rfl

section

variable {plan : Plan α} {id : String} {b : Builder α}

theorem run_shared_of_kept {made : Shape α} (h : b.stock.shared.lookup id = some made) :
    (shared plan id).run b = some (.ok made, b) := by
  rw [shared, run_get_bind, h]
  rfl

variable (hfresh : b.stock.shared.lookup id = none)

include hfresh

theorem run_shared_of_mem (hopen : id ∈ b.resolving) :
    (shared plan id).run b = some (.error (.config (.cyclicReference id)), b) := by
  rw [shared, run_get_bind, hfresh]
  dsimp only
  rw [if_pos hopen]
  rfl

variable (hclosed : id ∉ b.resolving)

include hclosed

theorem run_shared_of_missing (hmissing : plan.shared.lookup id = none) :
    (shared plan id).run b = some (.error (.config (.unknownReference id)), b) := by
  rw [shared, run_get_bind, hfresh]
  dsimp only
  rw [if_neg hclosed, hmissing]
  rfl

/-- The name is on the stack while the shape is built, and is taken off in either case. -/
theorem run_shared_of_found {spec : ShapeSpec α} {result : Except (LoadError α) (Shape α)}
    {after : Builder α} (hfound : plan.shared.lookup id = some spec)
    (hrun : (shape plan spec).run { b with resolving := id :: b.resolving } =
      some (result, after)) :
    (shared plan id).run b =
      match result with
      | .error e => some (.error e, { after with resolving := after.resolving.tail })
      | .ok made => some (.ok made, ⟨after.stock.keep id made, after.resolving.tail⟩) := by
  rw [shared, run_get_bind, hfresh]
  dsimp only
  rw [if_neg hclosed, hfound, run_modify_bind, run_bind_of_ok (run_attempt hrun), run_modify_bind]
  cases result <;> rfl

end

mutual

theorem follows_shape (plan : Plan α) (way : List String) (spec : ShapeSpec α) :
    Follows plan way (plan.shape way spec) (shape plan spec) :=
  match spec with
  | .sphere => by
    rw [Plan.shape, shape]
    exact .pure _
  | .rectangle => by
    rw [Plan.shape, shape]
    exact .pure _
  | .mesh filename smooth => by
    rw [Plan.shape, shape]
    exact .ofAssemble (plan.keepsShared_mesh filename smooth)
  | .group specs => by
    rw [Plan.shape, shape]
    exact (follows_children plan way 0 specs).bind
      fun shapes => .ofAssemble (Plan.keepsShared_group shapes)
  | .ref id => by
    rw [Plan.shape, shape]
    exact follows_shared plan way id
  termination_by ((plan.unopened way).length, sizeOf spec)

theorem follows_placed (plan : Plan α) (way : List String) (spec : InstanceSpec α)
    (owner : String) : Follows plan way (plan.placed way spec owner) (placed plan spec owner) :=
  match spec with
  | .mk shapeSpec bindingSpec => by
    rw [Plan.placed, placed]
    exact (follows_shape plan way shapeSpec).bind fun inner =>
      (Follows.ofAssemble (plan.keepsShared_binding bindingSpec owner)).bind fun _ => .pure _
  termination_by ((plan.unopened way).length, sizeOf spec)

theorem follows_children (plan : Plan α) (way : List String) (i : Nat)
    (specs : List (InstanceSpec α)) :
    Follows plan way (plan.children way i specs) (children plan i specs) :=
  match specs with
  | [] => by
    rw [Plan.children, children]
    exact .pure _
  | spec :: rest => by
    rw [Plan.children, children]
    exact (follows_placed plan way spec _).bind fun first =>
      (follows_children plan way (i + 1) rest).bind fun _ => .pure _
  termination_by ((plan.unopened way).length, sizeOf specs)

/-- Building a shared shape leaves the stack as it was, also if the shape cannot be built. -/
theorem follows_shared (plan : Plan α) (way : List String) (id : String) :
    Follows plan way (plan.reference way id) (shared plan id) := by
  intro stock
  rw [Plan.reference, Assemble.run_get_bind]
  split
  next made hkept =>
    exact ⟨.ok made, stock, rfl, run_shared_of_kept hkept, fun _ hentry => .inl hentry⟩
  next hfresh =>
    split
    next hopen =>
      exact ⟨_, stock, rfl, run_shared_of_mem hfresh hopen, fun _ hentry => .inl hentry⟩
    next hclosed =>
      split
      next hmissing =>
        exact ⟨_, stock, rfl, run_shared_of_missing hfresh hclosed hmissing,
          fun _ hentry => .inl hentry⟩
      next spec hfound =>
        have hless := Plan.length_unopened_cons hclosed hfound
        obtain ⟨result, middle, hm, hn, hbuilt⟩ := follows_shape plan (id :: way) spec stock
        have hshared := run_shared_of_found (b := ⟨stock, way⟩) hfresh hclosed hfound hn
        cases result with
        | error e => exact ⟨.error e, middle, Assemble.run_bind_of_error hm, hshared, hbuilt⟩
        | ok made =>
          refine ⟨.ok made, middle.keep id made, Assemble.run_bind_of_ok hm, hshared, ?_⟩
          rintro entry (_ | ⟨_, hentry⟩)
          · exact .inr ⟨spec, way, stock, middle, hfound, hn⟩
          · exact hbuilt entry hentry
  termination_by ((plan.unopened way).length, 0)
  decreasing_by exact Prod.Lex.left _ _ (by assumption)

end

theorem follows_instances (plan : Plan α) (i : Nat) (specs : List (InstanceSpec α)) :
    Follows plan [] (plan.instances i specs) (instances plan i specs) := by
  induction specs generalizing i with
  | nil => exact .pure _
  | cons spec rest ih =>
    exact (follows_placed plan [] spec _).bind fun _ => (ih (i + 1)).bind fun _ => .pure _

/-- The scene of a description is built in finitely many steps, with nothing left on the stack. -/
theorem follows_scene (plan : Plan α) (d : Description α) :
    Follows plan [] (plan.scene d) (scene plan d) := by
  refine (Follows.ofAssemble (Plan.keepsShared_camera d.camera)).bind fun camera =>
    (follows_instances plan 0 d.instances).bind fun shapes => ?_
  have hlights (bare : Scene α) : Follows plan [] (d.lights.foldlM plan.light bare)
      (ofAssemble (d.lights.foldlM plan.light bare)) :=
    .ofAssemble (.foldlM plan.keepsShared_light d.lights bare)
  dsimp only
  split
  · exact (Follows.ofAssemble (Plan.keepsShared_note _)).bind fun _ => hlights _
  · exact hlights _

/-! ## Scenes as if from scratch -/

/-- Where all files of a description can be read and all of its placements undone, building its
scene comes to an end with nothing on the stack.  It fails because of a reference exactly if a name
without a shape or a cycle can be reached, and then with the first offence in depth-first order.
Otherwise the scene is the one built without references and with every file read again.  The same
holds for all shapes kept on the way.  Building a shared shape leaves the stack as it was and keeps
only shapes that could be built, from whatever has been kept before. -/
theorem scene_eq_inlined (t : FileTree) (base : String) (d : Description Float32)
    (hloads : (Plan.mk t.assets base d.shared).LoadsScene d) :
    let plan : Plan Float32 := ⟨t.assets, base, d.shared⟩
    (∃ result after, (scene plan d).run ⟨plan.start, []⟩ = some (result, ⟨after, []⟩) ∧
      (plan.scene d).run plan.start = (result, after) ∧
      ((∃ id, result = .error (.config (.unknownReference id)) ∨
        result = .error (.config (.cyclicReference id))) ↔ plan.ReachesBad d.mentions) ∧
      (∀ e, (d.mentions.flatMap (plan.offences [])).head? = some e →
        result = .error (.config e)) ∧
      (¬ plan.ReachesBad d.mentions → ∃ flats made, plan.inlineAll [] d.instances = .ok flats ∧
        plan.freshScene d flats = .ok made ∧ result = .ok made) ∧
      ∀ id kept, after.shared.lookup id = some kept →
        ∃ flat, plan.inline [] (.ref id) = .ok flat ∧ plan.freshShape flat = .ok kept) ∧
    ∀ id b, ∃ result after, (shared plan id).run b = some (result, ⟨after, b.resolving⟩) ∧
      ∀ entry ∈ after.shared, entry ∈ b.stock.shared ∨ HasBuilt plan entry.1 entry.2 := by
  intro plan
  have hagree : plan.assets.Agree := t.agree_assets
  have hplan : plan.LoadsScene d := hloads
  clear_value plan
  refine ⟨?_, fun id b => ?_⟩
  · obtain ⟨result, after, hm, hn, -⟩ := follows_scene plan d plan.start
    obtain ⟨result', after', hm', hfaithful, hresult⟩ := Plan.run_scene hagree hplan
    obtain ⟨rfl, rfl⟩ := Prod.mk.inj (hm.symm.trans hm')
    have hkept : ∀ id kept, after.shared.lookup id = some kept →
        ∃ flat, plan.inline [] (.ref id) = .ok flat ∧ plan.freshShape flat = .ok kept := by
      intro id kept hlookup
      obtain ⟨flat, hflat, hinline⟩ := hfaithful.shared id kept hlookup
      exact ⟨flat, hinline [] hfaithful.avoids, hflat⟩
    rw [← Plan.offences_ne_nil_iff, not_not]
    refine ⟨result, after, hn, hm, ?_⟩
    split at hresult
    next hnone =>
      obtain ⟨flats, made, hflats, hmade, rfl⟩ := hresult
      rw [hnone]
      exact ⟨by simp, by simp, fun _ => ⟨flats, made, hflats, hmade, rfl⟩, hkept⟩
    next e rest hoffences =>
      subst hresult
      have hkind := Plan.exists_eq_of_mem_offences (hoffences ▸ List.mem_cons_self)
      rw [hoffences]
      exact ⟨by simpa using hkind, by simp, by simp, hkept⟩
  · obtain ⟨result, after, -, hn, hbuilt⟩ := follows_shared plan b.resolving id b.stock
    exact ⟨result, after, hn, hbuilt⟩

/-- A triangle. -/
def wallText : String := "v 0 0 0\nv 1 0 0\nv 0 1 0\nf 1 2 3"

def wallModel : ObjectModel Float32 where
  positions := #[0, 0, 0, 1, 0, 0, 0, 1, 0]
  indices := #[0, 1, 2]

def villageFiles : FileTree where
  files := [(["scenes", "wall.obj"], .text wallText),
    (["scenes", "sky.exr"], .linear 1 1 #[⟨0.5, 0.5, 1⟩])]

/-- Two huts, each with two walls, under a sky that is named in two ways. -/
def village : Description Float32 where
  camera := ⟨4, 3, 40, .x, [.translate ⟨0, 0, -5⟩], 0, 1⟩
  sampler := .standard
  integrator := .pathTracer 2
  output := some "village.png"
  shared :=
    [("hut", .group [.mk (.ref "wall") ⟨none, none, [], none⟩,
      .mk (.ref "wall") ⟨none, none, [.translate ⟨1, 0, 0⟩], none⟩]),
     ("wall", .mesh "wall.obj" false)]
  instances :=
    [.mk (.ref "hut") ⟨some (.diffuse (.image "sky.exr" 1 .tile .nearest)), none, [], none⟩,
     .mk (.group [.mk (.ref "hut") ⟨none, none, [.scale ⟨2, 2, 2⟩], none⟩])
       ⟨none, none, [.translate ⟨0, 3, 0⟩], none⟩]
  lights := [.envmap (.image ".//sky.exr" 2 .clamp .bilinear) []]

def villagePlan : Plan Float32 := ⟨villageFiles.assets, "scenes", village.shared⟩

theorem models_wallText : Wavefront.models wallText = .ok [wallModel] := by
  have hlines : (Wavefront.parts '\n' wallText).foldlM Wavefront.State.line {} =
      .ok { positions := #[⟨0, 0, 0⟩, ⟨1, 0, 0⟩, ⟨0, 1, 0⟩]
            faces := #[[⟨0, -1, -1⟩, ⟨1, -1, -1⟩, ⟨2, -1, -1⟩]] } := rfl
  rw [Wavefront.models, hlines]
  simp [Wavefront.State.close, Wavefront.State.addFace, Wavefront.triangles,
    Wavefront.State.addCorner, Wavefront.at?, bind, Except.bind, pure, Except.pure,
    Std.HashMap.size_insert, wallModel]

theorem loadsMesh_wall : villagePlan.LoadsMesh "wall.obj" := by
  have hpath : PathName.join villagePlan.base "wall.obj" = "scenes/wall.obj" := by decide +kernel
  have hread : villageFiles.readGeometry "scenes/wall.obj" = .ok wallText := rfl
  have hmesh : (Mesh.ofModels "scenes/wall.obj" [wallModel]).isOk = true := by decide +kernel
  rw [Plan.LoadsMesh, hpath]
  simp [villagePlan, FileTree.assets, FileTree.readMesh, hread, models_wallText, hmesh, bind,
    Except.bind]

theorem loadsScene_village : villagePlan.LoadsScene village := by
  have hsky : ∀ name ∈ ["sky.exr", ".//sky.exr"], villagePlan.LoadsImage name := by
    unfold Plan.LoadsImage
    decide +kernel
  have hsteps : ∀ steps ∈ [[], [.translate ⟨0, 0, -5⟩], [.translate ⟨1, 0, 0⟩], [.scale ⟨2, 2, 2⟩],
      [.translate ⟨0, 3, 0⟩]], Plan.CanUndo (α := Float32) steps := by
    unfold Plan.CanUndo
    decide +kernel
  have hbare : ∀ steps ∈ [[], [.translate ⟨1, 0, 0⟩], [.scale ⟨2, 2, 2⟩], [.translate ⟨0, 3, 0⟩]],
      villagePlan.LoadsBinding ⟨none, none, steps, none⟩ :=
    fun steps h => ⟨by simp [BindingSpec.fileNames], hsteps steps (by grind)⟩
  constructor
  · exact hsteps _ (by simp [village])
  · refine List.forall_mem_cons.2 ⟨?_, List.forall_mem_cons.2 ⟨loadsMesh_wall, by simp⟩⟩
    exact ⟨trivial, hbare _ (by simp), trivial, hbare _ (by simp), trivial⟩
  · refine ⟨trivial, ⟨?_, hsteps _ (by simp)⟩, ⟨trivial, hbare _ (by simp), trivial⟩,
      hbare _ (by simp), trivial⟩
    simpa [BindingSpec.fileNames, Bsdf.textures, TextureSpec.fileNames] using hsky _ (by simp)
  · refine List.forall_mem_cons.2 ⟨⟨?_, hsteps _ (by simp)⟩, by simp⟩
    simpa [TextureSpec.fileNames] using hsky _ (by simp)

/-- A shape that is used twice is built once, and the village is the one with two huts of its
own. -/
theorem scene_eq_inlined_village : villagePlan.LoadsScene village ∧
    ∃ flats made after, villagePlan.inlineAll [] village.instances = .ok flats ∧
      villagePlan.freshScene village flats = .ok made ∧
      (scene villagePlan village).run ⟨villagePlan.start, []⟩ = some (.ok made, ⟨after, []⟩) := by
  refine ⟨loadsScene_village, ?_⟩
  obtain ⟨⟨result, after, hrun, -, -, -, hmade, -⟩, -⟩ :=
    scene_eq_inlined villageFiles "scenes" village loadsScene_village
  have hgood : ¬ villagePlan.ReachesBad village.mentions := by
    have hwall : villagePlan.offences ["hut"] "wall" = [] := by
      rw [Plan.offences_of_lookup (by decide : "wall" ∉ ["hut"]) rfl]
      rfl
    have hhut : villagePlan.offences [] "hut" = [] := by
      rw [Plan.offences_of_lookup (by decide : "hut" ∉ []) rfl]
      simp [ShapeSpec.mentions, InstanceSpec.allMentions, hwall]
    rw [← Plan.offences_ne_nil_iff, not_not]
    simp [Description.mentions, InstanceSpec.allMentions, ShapeSpec.mentions, village, hhut]
  obtain ⟨flats, made, hflats, hfresh, rfl⟩ := hmade hgood
  exact ⟨flats, made, after, hflats, hfresh, hrun⟩

end Build

end Radiance
