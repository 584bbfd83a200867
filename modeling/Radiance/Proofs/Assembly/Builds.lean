import Radiance.Job
import Radiance.Proofs.Assembly.Steps

/-!
# Properties of assembled shapes

What is known of the shapes of a description becomes something known of the shapes built of them, if
it does so at spheres, rectangles and meshes and in every step through groups and instances.  The
shapes of references are those that have been kept, or come from the shared table.

## Main definitions

* `Stock.Keeps`: all shapes kept so far have a property.
* `Plan.Builds`: what is known of descriptions becomes something known of shapes.

## Main statements

* `Plan.Builds.yields_shape`: the recursion through groups, instances and references.
* `Plan.Builds.root_job`: what is known of the root of the scene of a job.
-/

namespace Radiance

open Assemble (Yields)

variable {α : Type}

/-- All meshes and shared shapes kept so far have a property. -/
structure Stock.Keeps (P : Shape α → Prop) (stock : Stock α) : Prop where
  meshes : ∀ entry ∈ stock.meshes, P entry.2
  shared : ∀ entry ∈ stock.shared, P entry.2

theorem Stock.ofShapes_keeps {P : Shape α → Prop} : Stock.OfShapes (Stock.Keeps P) :=
  fun _ _ hmeshes hshared h => ⟨hmeshes ▸ h.meshes, hshared ▸ h.shared⟩

variable [Scalar α]

namespace Plan

/-- What is known of descriptions of shapes (`A`) and instances (`B`) becomes something known of the
shapes (`P`) and instances (`Q`) that a plan builds of them. -/
structure Builds (plan : Plan α) (A : ShapeSpec α → Prop) (B : InstanceSpec α → Prop)
    (P Q : Shape α → Prop) : Prop where
  table : ∀ entry ∈ plan.shared, A entry.2
  inner : ∀ spec, B spec → A spec.shape
  child : ∀ children, A (.group children) → ∀ spec ∈ children, B spec
  sphere : P .sphere
  rectangle : P .rectangle
  mesh : ∀ filename smooth mesh, A (.mesh filename smooth) →
    plan.assets.mesh (PathName.join plan.base filename) = .ok mesh →
      P (.mesh (.ofMesh mesh smooth .midpoint))
  group : ∀ children (shapes : List (Shape α)), A (.group children) →
    shapes.length = children.length → (∀ s ∈ shapes, Q s) → P (.ofChildren .midpoint shapes.toArray)
  placed : ∀ spec inner binding, B spec → P inner →
    (∀ t ∈ binding.transform,
      TransformStep.compose? spec.binding.transform = some t ∧ t.isInvertible = true) →
      Q (.placed inner binding)

namespace Builds

variable {plan : Plan α} {A : ShapeSpec α → Prop} {B : InstanceSpec α → Prop}
  {P Q : Shape α → Prop}

theorem yields_mesh (h : plan.Builds A B P Q) {filename : String} {smooth : Bool}
    (hspec : A (.mesh filename smooth)) :
    Yields (Stock.Keeps P) P (plan.mesh filename smooth) := by
  unfold Plan.mesh
  refine Yields.get.bind fun stock hstock => ?_
  dsimp only
  split
  next shape hlookup =>
    obtain ⟨key, hentry⟩ := exists_mem_of_lookup hlookup
    exact .pure (hstock.meshes _ hentry)
  next =>
    split
    · exact .throw _
    next mesh hmesh =>
      have hshape := h.mesh filename smooth mesh hspec hmesh
      refine (yields_note Stock.ofShapes_keeps _).bind fun _ _ =>
        (Yields.modify fun s hs => ?_).bind fun _ _ => .pure hshape
      exact ⟨List.forall_mem_cons.2 ⟨hshape, hs.meshes⟩, hs.shared⟩

mutual

theorem yields_shape (h : plan.Builds A B P Q) (resolving : List String) (spec : ShapeSpec α)
    (hspec : A spec) : Yields (Stock.Keeps P) P (plan.shape resolving spec) :=
  match spec with
  | .sphere => by
    rw [Plan.shape]
    exact .pure h.sphere
  | .rectangle => by
    rw [Plan.shape]
    exact .pure h.rectangle
  | .mesh filename smooth => by
    rw [Plan.shape]
    exact h.yields_mesh hspec
  | .group children => by
    rw [Plan.shape]
    refine (yields_children h resolving 0 children (h.child children hspec)).bind
      fun shapes ⟨hlength, hshapes⟩ => ?_
    exact (yields_note Stock.ofShapes_keeps _).bind
      fun _ _ => .pure (h.group children shapes hspec hlength hshapes)
  | .ref id => by
    rw [Plan.shape]
    exact yields_reference h resolving id
  termination_by ((plan.unopened resolving).length, sizeOf spec)

theorem yields_placed (h : plan.Builds A B P Q) (resolving : List String) (spec : InstanceSpec α)
    (hspec : B spec) (owner : String) :
    Yields (Stock.Keeps P) Q (plan.placed resolving spec owner) :=
  match spec with
  | .mk shapeSpec bindingSpec => by
    rw [Plan.placed]
    refine (yields_shape h resolving shapeSpec (h.inner _ hspec)).bind fun inner hinner => ?_
    exact (yields_binding Stock.ofShapes_keeps owner fun _ => And.intro).bind
      fun binding hbinding => .pure (h.placed _ inner binding hspec hinner hbinding)
  termination_by ((plan.unopened resolving).length, sizeOf spec)

theorem yields_children (h : plan.Builds A B P Q) (resolving : List String) (i : Nat)
    (specs : List (InstanceSpec α)) (hspecs : ∀ spec ∈ specs, B spec) :
    Yields (Stock.Keeps P) (fun shapes => shapes.length = specs.length ∧ ∀ s ∈ shapes, Q s)
      (plan.children resolving i specs) :=
  match specs with
  | [] => by
    rw [Plan.children]
    exact .pure ⟨rfl, nofun⟩
  | spec :: rest => by
    rw [Plan.children]
    obtain ⟨hspec, hrest⟩ := List.forall_mem_cons.1 hspecs
    refine (yields_placed h resolving spec hspec _).bind fun first hfirst =>
      (yields_children h resolving (i + 1) rest hrest).bind fun shapes ⟨hlength, hshapes⟩ => ?_
    exact .pure ⟨congrArg (· + 1) hlength, List.forall_mem_cons.2 ⟨hfirst, hshapes⟩⟩
  termination_by ((plan.unopened resolving).length, sizeOf specs)

theorem yields_reference (h : plan.Builds A B P Q) (resolving : List String) (id : String) :
    Yields (Stock.Keeps P) P (plan.reference resolving id) := by
  rw [Plan.reference]
  refine Yields.get.bind fun stock hstock => ?_
  split
  next shape hlookup =>
    obtain ⟨key, hentry⟩ := exists_mem_of_lookup hlookup
    exact .pure (hstock.shared _ hentry)
  · split
    · exact .throw _
    next hclosed =>
      split
      · exact .throw _
      next spec hfound =>
        obtain ⟨key, hentry⟩ := exists_mem_of_lookup hfound
        have hless := length_unopened_cons hclosed hfound
        refine (yields_shape h (id :: resolving) spec (h.table _ hentry)).bind fun shape hshape =>
          (Yields.modify fun s hs => ?_).bind fun _ _ => .pure hshape
        exact ⟨hs.meshes, List.forall_mem_cons.2 ⟨hshape, hs.shared⟩⟩
  termination_by ((plan.unopened resolving).length, 0)
  decreasing_by exact Prod.Lex.left _ _ (by assumption)

end

theorem yields_instances (h : plan.Builds A B P Q) (i : Nat) (specs : List (InstanceSpec α))
    (hspecs : ∀ spec ∈ specs, B spec) :
    Yields (Stock.Keeps P) (fun shapes => shapes.length = specs.length ∧ ∀ s ∈ shapes, Q s)
      (plan.instances i specs) := by
  induction specs generalizing i with
  | nil => exact .pure ⟨rfl, nofun⟩
  | cons spec rest ih =>
    obtain ⟨hspec, hrest⟩ := List.forall_mem_cons.1 hspecs
    refine (yields_placed h [] spec hspec _).bind fun first hfirst =>
      (ih (i + 1) hrest).bind fun shapes ⟨hlength, hshapes⟩ => ?_
    exact .pure ⟨congrArg (· + 1) hlength, List.forall_mem_cons.2 ⟨hfirst, hshapes⟩⟩

variable {R : Shape α → Prop} {d : Description α}

/-- The lights and the camera do not matter for the root of a scene. -/
theorem yields_scene (h : plan.Builds A B P Q) (hd : ∀ spec ∈ d.instances, B spec)
    (hroot : ∀ shapes : List (Shape α), shapes.length = d.instances.length →
      (∀ s ∈ shapes, Q s) → R (Scene.rootOf shapes.toArray)) :
    Yields (Stock.Keeps P) (fun scene => R scene.root) (plan.scene d) := by
  unfold scene
  refine (yields_camera Stock.ofShapes_keeps _).bind fun camera _ =>
    (h.yields_instances 0 d.instances hd).bind fun shapes ⟨hlength, hshapes⟩ => ?_
  have hlights : Yields (Stock.Keeps P) (fun scene => R scene.root)
      (d.lights.foldlM plan.light (Scene.ofShapes camera shapes.toArray)) := by
    refine .foldlM (fun scene spec hscene => ?_) d.lights (hroot shapes hlength hshapes)
    exact (yields_light Stock.ofShapes_keeps scene spec).mono fun lit hlit => hlit ▸ hscene
  dsimp only
  split
  · exact (yields_note Stock.ofShapes_keeps _).bind fun _ _ => hlights
  · exact hlights

theorem root_job {assets : Assets α} {base : String}
    (h : (Plan.mk assets base d.shared).Builds A B P Q) (hd : ∀ spec ∈ d.instances, B spec)
    (hroot : ∀ shapes : List (Shape α), shapes.length = d.instances.length →
      (∀ s ∈ shapes, Q s) → R (Scene.rootOf shapes.toArray))
    {job : Job α} (hjob : (Job.ofDescription assets base d).1 = .ok job) :
    R job.scene.root := by
  have hassemble : Yields (Stock.Keeps P) (fun job : Job α => R job.scene.root)
      (Job.assemble assets base d) := by
    unfold Job.assemble
    split
    · exact .throw _
    · split
      · exact .throw _
      · exact (h.yields_scene hd hroot).bind fun scene hscene => Yields.get.bind fun _ _ =>
          (yields_note Stock.ofShapes_keeps _).bind fun _ _ => .pure hscene
  exact (hassemble { images := { base := some base } } ⟨by simp, by simp⟩).2 job hjob

end Builds

end Plan

/-- Only descriptions that pass all checks are made into jobs. -/
theorem Job.validate_of_ofDescription {assets : Assets α} {base : String} {d : Description α}
    {job : Job α} (hjob : (ofDescription assets base d).1 = .ok job) : d.validate = .ok () := by
  cases hvalid : d.validate with
  | ok => rfl
  | error e =>
    simp only [ofDescription, assemble, hvalid] at hjob
    cases hjob

end Radiance
