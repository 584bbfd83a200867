import Radiance.Description.References
import Radiance.Proofs.Assembly.Builds
import Radiance.Proofs.Assembly.Placement
import Radiance.Proofs.Shape.Limit

/-!
# Scenes of affine placements are sound

A scene assembled from real meshes and affine placements is made of sound shapes, and all of its
hits show the binding of an instance.

## Main definitions

* `Description.steps`: the steps of all placements of shapes.
* `Plan.Takes`: some steps are affine, and some files hold real meshes.

## Main statements

* `Plan.builds_sound`: affine placements and real meshes make sound shapes.
* `Job.isSound_root`: the root of every assembled scene is sound.
-/

namespace Radiance

/-! ## Placements -/

section

variable {α : Type}

mutual

/-- The steps of all placements inside a shape. -/
def ShapeSpec.steps : ShapeSpec α → List (TransformStep α)
  | .group children => InstanceSpec.allSteps children
  | _ => []

def InstanceSpec.allSteps : List (InstanceSpec α) → List (TransformStep α)
  | [] => []
  | .mk shape binding :: rest => shape.steps ++ binding.transform ++ InstanceSpec.allSteps rest

end

/-- The steps of all placements of shapes. -/
def Description.steps (d : Description α) : List (TransformStep α) :=
  d.shared.flatMap (·.2.steps) ++ InstanceSpec.allSteps d.instances

end

open Exact

variable {z : ZeroSign}

/-! ## Shapes of an assembly -/

namespace Plan

variable {plan : Plan (Exact z)}

/-- Some steps are affine, and some names are of real meshes, as far as they are of meshes. -/
structure Takes (plan : Plan (Exact z)) (steps : List (TransformStep (Exact z)))
    (names : List String) : Prop where
  steps : ∀ step ∈ steps, step.toMatrix.IsAffine
  meshes : ∀ name ∈ names, ∀ mesh,
    plan.assets.mesh (PathName.join plan.base name) = .ok mesh → mesh.IsReal

theorem Takes.mono {steps steps' : List (TransformStep (Exact z))} {names names' : List String}
    (h : plan.Takes steps names) (hsteps : steps' ⊆ steps) (hnames : names' ⊆ names) :
    plan.Takes steps' names' :=
  ⟨fun step hstep => h.steps step (hsteps hstep), fun name hname => h.meshes name (hnames hname)⟩

theorem Takes.of_mem {specs : List (InstanceSpec (Exact z))}
    (h : plan.Takes (InstanceSpec.allSteps specs) (InstanceSpec.allFileNames specs))
    {spec : InstanceSpec (Exact z)} (hspec : spec ∈ specs) :
    plan.Takes (spec.shape.steps ++ spec.binding.transform) spec.shape.fileNames := by
  induction specs with
  | nil => cases hspec
  | cons first rest ih =>
    obtain ⟨shape, binding⟩ := first
    rw [InstanceSpec.allSteps, InstanceSpec.allFileNames] at h
    cases hspec with
    | head =>
      exact h.mono (List.subset_append_left _ _)
        (List.Subset.trans (List.subset_append_left _ _) (List.subset_append_left _ _))
    | tail _ hmem =>
      exact ih (h.mono (List.subset_append_right _ _) (List.subset_append_right _ _)) hmem

/-- The shared table of a plan has affine steps and real meshes. -/
def IsAffine (plan : Plan (Exact z)) : Prop :=
  ∀ entry ∈ plan.shared, plan.Takes entry.2.steps entry.2.fileNames

/-- Affine placements and real meshes make sound shapes.  All hits of a shape show the same kind of
binding, and those of an instance show that of an instance. -/
theorem builds_sound (hplan : plan.IsAffine) :
    plan.Builds (fun spec => plan.Takes spec.steps spec.fileNames)
      (fun spec => plan.Takes (spec.shape.steps ++ spec.binding.transform) spec.shape.fileNames)
      (fun s => s.IsSound ∧ s.IsUniform) (fun s => s.IsSound ∧ s.HasLook .bound) where
  table := hplan
  inner _ hspec := hspec.mono (List.subset_append_left _ _) (List.Subset.refl _)
  child children hspec spec hmem := by
    rw [ShapeSpec.steps, ShapeSpec.fileNames] at hspec
    exact hspec.of_mem hmem
  sphere := ⟨.sphere, .bare, by decide, .sphere⟩
  rectangle := ⟨.rectangle, .bare, by decide, .rectangle⟩
  mesh filename smooth mesh hspec hmesh := by
    have hreal := hspec.meshes filename (by simp [ShapeSpec.fileNames]) mesh hmesh
    exact ⟨.mesh smooth .midpoint hreal, .bare, by decide, .mesh⟩
  group children shapes _ _ hshapes :=
    ⟨.group _ fun s hs => (hshapes s hs).1, .bound, by decide,
      .group fun s hs => (hshapes s hs).2⟩
  placed spec inner b hspec hinner hb := by
    obtain ⟨hsound, look, hne, hlook⟩ := hinner
    have haffine : ∀ t ∈ b.transform, t.IsAffine := by
      intro t ht
      obtain ⟨hcompose, hinvertible⟩ := hb t ht
      exact TransformStep.isAffine_compose?
        (fun step hstep => hspec.steps step (List.mem_append_right _ hstep)) hcompose hinvertible
    have hbound : look.placed b = .bound := by simp [Look.placed, hne]
    exact ⟨.placed haffine hsound, hbound ▸ .placed hlook⟩

theorem isSound_rootOf {shapes : Array (Shape (Exact z))}
    (h : ∀ s ∈ shapes.toList, s.IsSound ∧ s.HasLook .bound) :
    (Scene.rootOf shapes).IsSound ∧ (Scene.rootOf shapes).HasLook .bound := by
  have hgroup : (Shape.ofChildren .midpoint shapes).IsSound ∧
      (Shape.ofChildren .midpoint shapes).HasLook .bound :=
    ⟨.group _ fun s hs => (h s hs).1, .group fun s hs => (h s hs).2⟩
  obtain ⟨_ | ⟨s, _ | ⟨t, rest⟩⟩⟩ := shapes
  · exact hgroup
  · exact h s (by simp)
  · exact hgroup

end Plan

/-- The root of a scene assembled from real meshes and affine placements is sound, and its hits show
the bindings of instances. -/
theorem Job.isSound_root {assets : Assets (Exact z)} {base : String} {d : Description (Exact z)}
    {job : Job (Exact z)} (hjob : (Job.ofDescription assets base d).1 = .ok job)
    (hsteps : ∀ step ∈ d.steps, step.toMatrix.IsAffine)
    (hmeshes : ∀ name ∈ d.fileNames, ∀ mesh,
      assets.mesh (PathName.join base name) = .ok mesh → mesh.IsReal) :
    job.scene.root.IsSound ∧ job.scene.root.HasLook .bound := by
  have htakes : (Plan.mk assets base d.shared).Takes d.steps d.fileNames := ⟨hsteps, hmeshes⟩
  have hplan : (Plan.mk assets base d.shared).IsAffine := fun entry hentry => htakes.mono
    (fun step hstep => List.mem_append_left _ (List.mem_flatMap.2 ⟨entry, hentry, hstep⟩))
    fun name hname => List.mem_append_left _
      (List.mem_append_left _ (List.mem_flatMap.2 ⟨entry, hentry, hname⟩))
  have hinstances : (Plan.mk assets base d.shared).Takes (InstanceSpec.allSteps d.instances)
      (InstanceSpec.allFileNames d.instances) := htakes.mono (List.subset_append_right _ _)
    (List.Subset.trans (List.subset_append_right _ _) (List.subset_append_left _ _))
  exact (Plan.builds_sound hplan).root_job (R := fun root => root.IsSound ∧ root.HasLook .bound)
    (fun spec hmem => hinstances.of_mem hmem)
    (fun shapes _ hshapes => Plan.isSound_rootOf hshapes) hjob

end Radiance
