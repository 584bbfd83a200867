import Radiance.Proofs.Assembly.Builds
import Radiance.Proofs.Description.Checks

/-!
# No group of a scene is without children

The checks refuse groups without children in the instances and in the shared table.  Every group
that is built comes from one of these or holds the instances of the scene, so only the root of a
scene without instances is a group without children.

## Main definitions

* `Shape.Occurs`: a shape occurs in another one, at any depth of groups and instances.
* `Shape.IsFilled`: no group without children occurs in a shape.

## Main statements

* `Plan.builds_filled`: descriptions without empty groups make shapes without empty groups.
* `Job.size_pos_or_eq_root`: in the scene of a job only the root can be a group without children.
* `Description.validate_exact`: which descriptions are accepted, why the others are not, and what
  this means for the groups of a scene.
-/

namespace Radiance

variable {α : Type}

/-! ## Filled shapes -/

namespace Shape

/-- A shape occurs in another one if it is that shape, or occurs in a child of it or in the shape
that it places. -/
inductive Occurs (part : Shape α) : Shape α → Prop
  | refl : Occurs part part
  | child {children : Array (Shape α)} {hierarchy : Hierarchy α} {c : Shape α}
    (hmem : c ∈ children.toList) (hpart : Occurs part c) : Occurs part (.group children hierarchy)
  | placed {inner : Shape α} {b : Binding α} (hpart : Occurs part inner) :
    Occurs part (.placed inner b)

/-- All groups that occur in a shape have children. -/
def IsFilled (s : Shape α) : Prop :=
  ∀ children hierarchy, (group children hierarchy).Occurs s → 0 < children.size

theorem isFilled_sphere : (sphere : Shape α).IsFilled := nofun

theorem isFilled_rectangle : (rectangle : Shape α).IsFilled := nofun

theorem isFilled_mesh (m : TriangleMesh α) : (mesh m).IsFilled := nofun

theorem isFilled_group {children : Array (Shape α)} {hierarchy : Hierarchy α}
    (hsize : 0 < children.size) (h : ∀ c ∈ children.toList, c.IsFilled) :
    (group children hierarchy).IsFilled := by
  intro parts partsHierarchy hpart
  cases hpart with
  | refl => exact hsize
  | child hmem hpart => exact h _ hmem _ _ hpart

theorem isFilled_placed {inner : Shape α} (h : inner.IsFilled) (b : Binding α) :
    (placed inner b).IsFilled := by
  intro parts partsHierarchy hpart
  cases hpart with
  | placed hpart => exact h _ _ hpart

end Shape

variable [Scalar α]

/-! ## Groups of an assembly -/

/-- Descriptions of shapes without empty groups make shapes without empty groups. -/
theorem Plan.builds_filled {plan : Plan α}
    (htable : ∀ entry ∈ plan.shared, ¬(ShapeSpec.group []).Occurs entry.2) :
    plan.Builds (fun spec => ¬(ShapeSpec.group []).Occurs spec)
      (fun spec => ¬(ShapeSpec.group []).Occurs spec.shape) Shape.IsFilled Shape.IsFilled where
  table := htable
  inner _ hspec := hspec
  child _ hspec _ hmem hoccurs := hspec (.child hmem hoccurs)
  sphere := Shape.isFilled_sphere
  rectangle := Shape.isFilled_rectangle
  mesh _ _ _ _ _ := Shape.isFilled_mesh _
  group children shapes hspec hlength hshapes := by
    refine Shape.isFilled_group ?_ hshapes
    rw [List.size_toArray, hlength]
    refine List.length_pos_iff.2 fun hnil => hspec ?_
    exact hnil ▸ .refl
  placed _ _ b _ hinner _ := Shape.isFilled_placed hinner b

theorem Scene.isFilled_rootOf {shapes : Array (Shape α)} (hsize : 0 < shapes.size)
    (h : ∀ s ∈ shapes.toList, s.IsFilled) : (rootOf shapes).IsFilled := by
  obtain ⟨_ | ⟨s, _ | ⟨t, rest⟩⟩⟩ := shapes
  · cases hsize
  · exact h s List.mem_cons_self
  · exact Shape.isFilled_group hsize h

/-- A group without children in the scene of a job can only be the root, for want of instances. -/
theorem Job.size_pos_or_eq_root {assets : Assets α} {base : String} {d : Description α}
    {job : Job α} (hjob : (Job.ofDescription assets base d).1 = .ok job)
    {children : Array (Shape α)} {hierarchy : Hierarchy α}
    (hgroup : (Shape.group children hierarchy).Occurs job.scene.root) :
    0 < children.size ∨ d.instances = [] ∧ .group children hierarchy = job.scene.root := by
  have hd := Description.validate_eq_ok_iff.1 (Job.validate_of_ofDescription hjob)
  have hbuilds : (Plan.mk assets base d.shared).Builds _ _ _ _ := Plan.builds_filled hd.shared
  by_cases hnone : d.instances = []
  · -- Without instances the root is the group of no shapes, and nothing else occurs in it.
    have hroot : job.scene.root = .ofChildren .midpoint #[] := by
      refine hbuilds.root_job (R := fun root => root = .ofChildren .midpoint #[]) hd.instances
        (fun shapes hlength _ => ?_) hjob
      rw [hnone] at hlength
      rw [List.eq_nil_of_length_eq_zero hlength]
      rfl
    rw [hroot] at hgroup ⊢
    cases hgroup with
    | refl => exact .inr ⟨hnone, rfl⟩
    | child hmem => cases hmem
  · have hfilled : job.scene.root.IsFilled := by
      refine hbuilds.root_job hd.instances (fun shapes hlength hshapes => ?_) hjob
      refine Scene.isFilled_rootOf ?_ hshapes
      rw [List.size_toArray, hlength]
      exact List.length_pos_iff.2 hnone
    exact .inl (hfilled children hierarchy hgroup)

/-! ## What the checks are worth -/

/-- A description is accepted if it is all that the checks ask for, and refused with the error of
the first check that fails.  An undefined angle of view is always refused.  No group in the scene of
an accepted description is without children, but for the root of a scene without instances. -/
theorem Description.validate_exact [Scalar.IsOrdered α] {d : Description α}
    (hsorted : d.shared.Pairwise fun a b => a.1 < b.1) :
    (d.validate = .ok () ↔ d.IsWellFormed) ∧
      (∀ e, d.validate = .error e ↔
        ∃ c, d.Fault c e ∧ ∀ c' e', c'.Before c → ¬d.Fault c' e') ∧
      (Scalar.isNaN d.camera.fov = true → d.Fault .angle (.invalidFov d.camera.fov)) ∧
      ∀ (assets : Assets α) (base : String) (job : Job α),
        (Job.ofDescription assets base d).1 = .ok job →
          ∀ children hierarchy, (Shape.group children hierarchy).Occurs job.scene.root →
            0 < children.size ∨ d.instances = [] ∧ .group children hierarchy = job.scene.root := by
  refine ⟨validate_eq_ok_iff, validate_eq_error_iff hsorted, fun hnan => .angle fun hfov => ?_, ?_⟩
  · have hdefined := (Scalar.IsOrdered.isNaN_of_lt hfov.1).2
    rw [hnan] at hdefined
    cases hdefined
  · intro assets base job hjob children hierarchy hgroup
    exact Job.size_pos_or_eq_root hjob hgroup

/-- A description of shapes and lights alone, with nothing else to refuse. -/
def Description.ofShapes (shared : List (String × ShapeSpec Float32))
    (shapes : List (ShapeSpec Float32)) (lights : List (LightSpec Float32)) :
    Description Float32 where
  camera := ⟨1, 1, 90, .x, [], 0, 1⟩
  sampler := .standard
  integrator := .pathTracer 5
  output := some "image.png"
  shared := shared
  instances := shapes.map fun shape => .mk shape ⟨none, none, [], none⟩
  lights := lights

/-- A group without children inside another one, in the second instance, is found before one in the
shared table and before a second environment map.  If each of the groups has a rectangle and there
is one environment map, the description is accepted and all groups of its scene have children. -/
theorem Description.validate_exact_nested :
    let nested (children : List (InstanceSpec Float32)) (lights : List (LightSpec Float32)) :=
      ofShapes [("arch", .group children), ("stair", .sphere)]
        [.sphere, .group [.mk (.group children) ⟨none, none, [], none⟩]] lights
    let sky : LightSpec Float32 := .envmap (.scalar 1) []
    let refused := nested [] [sky, sky]
    let accepted := nested [.mk .rectangle ⟨none, none, [], none⟩] [sky]
    (¬refused.IsWellFormed ∧ ∃ c, refused.Fault c (.emptyGroup "instance 1") ∧
      ∀ c' e', c'.Before c → ¬refused.Fault c' e') ∧
    accepted.IsWellFormed ∧
      ∃ job, (Job.ofDescription ⟨fun _ => .error "", fun _ => .error default,
          fun _ => .error default⟩ "." accepted).1 = .ok job ∧
        ∀ children hierarchy, (Shape.group children hierarchy).Occurs job.scene.root →
          0 < children.size := by
  intro nested sky refused accepted
  obtain ⟨hok, herror, -, -⟩ := validate_exact (d := refused) (by decide)
  obtain ⟨hok', -, -, hgroups⟩ := validate_exact (d := accepted) (by decide)
  have hvalid : accepted.validate = .ok () := by decide +kernel
  have hinvalid : refused.validate = .error (.emptyGroup "instance 1") := by decide +kernel
  refine ⟨⟨fun hwell => ?_, (herror _).1 hinvalid⟩, hok'.1 hvalid, ?_⟩
  · have hboth := hinvalid.symm.trans (hok.2 hwell)
    cases hboth
  · have hjob : ∃ job, (Job.ofDescription ⟨fun _ => .error "", fun _ => .error default,
        fun _ => .error default⟩ "." accepted).1 = .ok job := by
      unfold Job.ofDescription Job.assemble
      rw [hvalid]
      simp only [accepted, nested, ofShapes, List.map, Plan.scene, Plan.camera, Plan.transform,
        Plan.instances, Plan.placed, Plan.shape, Plan.children, Plan.binding, Plan.texture?]
      exact ⟨_, rfl⟩
    obtain ⟨job, hjob⟩ := hjob
    refine ⟨job, hjob, fun children hierarchy hgroup => ?_⟩
    exact (hgroups _ _ _ hjob children hierarchy hgroup).resolve_right fun h => nomatch h.1

end Radiance
