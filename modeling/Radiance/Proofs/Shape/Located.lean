import Radiance.Proofs.Geometry.Images
import Radiance.Proofs.Shape.Record

/-!
# Hits lie on the ray and in the box

In exact arithmetic a query reports the point of the ray at the distance it reports, and that point
lies in the box of the shape.  This is what lets a hierarchy skip a box.

## Main definitions

* `Shape.IsSound`: real geometry under hierarchies built from it and invertible affine transforms.
* `Reports`: a query leaves the record, or a hit with a given property.

## Main statements

* `Shape.IsSound.reports_liesOn`: where the hits of a sound shape lie.
* `Shape.position_on_ray_in_box`: the same of a found record.
-/

namespace Radiance

open Hierarchy (Sequential Untouched)

/-- A miss leaves the record alone, and a hit has a property. -/
structure Reports {α : Type} (P : α → Surface α → Prop) (before : Hit α) (result : Bool × Hit α) :
    Prop where
  miss : result.1 = false → Untouched before result.2
  found : result.1 = true → P result.2.t result.2.surface

section

variable {α : Type} {P Q : α → Surface α → Prop}

theorem Reports.sequential : Sequential (Reports P) where
  skip hit := ⟨fun _ => .refl hit, by simp⟩
  countNode hit r h := ⟨fun hr => (Hierarchy.untouched_countNode hit).trans (h.miss hr), h.found⟩
  countPrimitive hit r h :=
    ⟨fun hr => (Hierarchy.untouched_countPrimitive hit).trans (h.miss hr), h.found⟩
  seq hit r s hr hs := by
    constructor
    · intro hnone
      obtain ⟨hrnone, hsnone⟩ := Bool.or_eq_false_iff.1 hnone
      exact (hr.miss hrnone).trans (hs.miss hsnone)
    · intro hfound
      cases hsfound : s.1 with
      | true => exact hs.found hsfound
      | false =>
        -- The second query leaves the hit of the first one in place.
        have hkept := hs.miss hsfound
        have hrfound : r.1 = true := by simpa [hsfound] using hfound
        rw [hkept.t, hkept.surface]
        exact hr.found hrfound

theorem Reports.mono {before : Hit α} {result : Bool × Hit α} (h : Reports P before result)
    (hPQ : ∀ t s, P t s → Q t s) : Reports Q before result :=
  ⟨h.miss, fun hr => hPQ _ _ (h.found hr)⟩

variable [Scalar α]

theorem Encounter.reports_answer {e : Option (Encounter α)} (he : ∀ d ∈ e, P d.t d.surface)
    (hit : Hit α) : Reports P hit (answer e hit) := by
  refine ⟨(kept_answer e hit).untouched, fun hfound => ?_⟩
  unfold answer at hfound ⊢
  split at hfound
  · simp at hfound
  next d =>
    split at hfound
    · simp at hfound
    next hnear => simpa [hnear] using he d rfl

theorem Binding.applyNormalMap_position (b : Binding α) (s : Surface α) :
    (b.applyNormalMap s).position = s.position := by
  unfold applyNormalMap
  split
  · rfl
  · dsimp only
    split <;> rfl

theorem Binding.placeSurface_position {b : Binding α} {t : Transform α}
    (hb : b.transform = some t) (s : Surface α) :
    (b.placeSurface s).1.position = t.applyPoint s.position := by
  simp only [placeSurface, hb, applyNormalMap_position]

end

open Exact

variable {z : ZeroSign}

/-- Real geometry under hierarchies that are built from it and transforms that are affine and
invertible. -/
inductive Shape.IsSound : Shape (Exact z) → Prop
  | sphere : IsSound .sphere
  | rectangle : IsSound .rectangle
  | mesh {mesh : Mesh (Exact z)} (smooth : Bool) (method : SplitMethod) :
      mesh.IsReal → IsSound (.mesh (.ofMesh mesh smooth method))
  | group (method : SplitMethod) {children : Array (Shape (Exact z))} :
      (∀ c ∈ children.toList, IsSound c) → IsSound (.ofChildren method children)
  | placed {inner : Shape (Exact z)} {b : Binding (Exact z)} :
      (∀ t ∈ b.transform, t.IsAffine) → IsSound inner → IsSound (.placed inner b)

theorem LiesOn.mono {ray : Ray (Exact z)} {a b : Box (Exact z)} {t : Exact z}
    {s : Surface (Exact z)} (hab : ∀ p, a.HasPoint p → b.HasPoint p) (h : LiesOn ray a t s) :
    LiesOn ray b t s :=
  ⟨h.1, h.2.1, hab _ h.2.2⟩

/-- The hits of a built hierarchy lie in its box if those of each item lie in the item's. -/
theorem Hierarchy.reports_liesOn {method : SplitMethod} {items : Array (Item (Exact z))}
    {ray : Ray (Exact z)} {q : Query (Exact z)}
    (hq : ∀ i < items.size, ∀ hit, Reports (LiesOn ray (item items i).bounds) hit (q i hit))
    (hit : Hit (Exact z)) :
    Reports (LiesOn ray (build method items).boundingBox) hit
      ((build method items).intersect ray q hit) :=
  Reports.sequential.intersect_build method items ray
    (fun i hi hit => (hq i hi hit).mono fun _ _ =>
      LiesOn.mono fun _ => hasPoint_boundingBox_build hi) hit

/-! ## Instances -/

namespace Binding

variable {b : Binding (Exact z)} {inner : Ray (Exact z) → Hit (Exact z) → Bool × Hit (Exact z)}
  {ray : Ray (Exact z)} {box : Box (Exact z)}

theorem reports_intersect_of_none (hb : b.transform = none)
    (hkept : ∀ ray hit, Kept hit (inner ray hit))
    (hinner : ∀ hit, Reports (LiesOn ray box) hit (inner ray hit)) (hit : Hit (Exact z)) :
    Reports (LiesOn ray box) hit (b.intersect inner ray hit) := by
  refine ⟨(kept_intersect inner ray hit hkept).untouched, fun hfound => ?_⟩
  rw [intersect_of_none inner ray hit hb] at hfound ⊢
  have h := hinner { hit with binding := none }
  generalize inner ray { hit with binding := none } = r at h hfound
  obtain ⟨found, after⟩ := r
  cases found with
  | false => simp at hfound
  | true =>
    obtain ⟨hreal, hposition, hbox⟩ := h.found rfl
    simp only [if_true, claim_eq, LiesOn, applyNormalMap_position]
    exact ⟨hreal, hposition, hbox⟩

/-- A hit at a distance along the local ray is a hit at the distance in the scale of the ray. -/
theorem reports_intersect_of_some {t : Transform (Exact z)} (hb : b.transform = some t)
    (ht : t.IsAffine) (hray : ray.IsProper) (hkept : ∀ ray hit, Kept hit (inner ray hit))
    (hinner : ∀ hit, Reports (LiesOn (t.localRay ray) box) hit (inner (t.localRay ray) hit))
    (hit : Hit (Exact z)) :
    Reports (LiesOn ray (t.applyBox box)) hit (b.intersect inner ray hit) := by
  refine ⟨(kept_intersect inner ray hit hkept).untouched, fun hfound => ?_⟩
  rw [intersect_of_some inner ray hit hb] at hfound ⊢
  have h := hinner { hit with binding := none, t := hit.t * t.rayScale ray }
  generalize inner (t.localRay ray) { hit with binding := none, t := hit.t * t.rayScale ray } = r
    at h hfound
  obtain ⟨found, after⟩ := r
  cases found with
  | false => simp at hfound
  | true =>
    obtain ⟨⟨τ, hτ⟩, hposition, hbox⟩ := h.found rfl
    obtain ⟨s, hs, hscale⟩ := ht.exists_rayScale hray
    simp only [if_true, claim_eq, LiesOn, placeSurface_position hb]
    simp only at hτ hposition hbox
    rw [hposition, hτ]
    refine ⟨⟨τ / s, by rw [hscale, number_div _ _ hs.ne']⟩, ht.applyPoint_pointAt hray τ, ?_⟩
    rw [hposition, hτ] at hbox
    exact Transform.hasPoint_applyBox ht.matrix ((ht.isUnit_localRay hray).toIsReal.pointAt τ) hbox

end Binding

/-! ## Shapes -/

theorem TriangleMesh.item_items {α : Type} [Scalar α] {mesh : Mesh α} {i : Nat}
    (hi : i < (items mesh).size) :
    Hierarchy.item (items mesh) i = ⟨mesh.triangleBounds i, mesh.triangleCentroid i⟩ := by
  have hi' : i < mesh.triangleCount := by simpa [items] using hi
  simp [Hierarchy.item, items, hi']

theorem TriangleMesh.reports_liesOn {mesh : Mesh (Exact z)} {ray : Ray (Exact z)} (smooth : Bool)
    (method : SplitMethod) (hmesh : mesh.IsReal) (hray : ray.IsReal) (hit : Hit (Exact z)) :
    Reports (LiesOn ray (ofMesh mesh smooth method).hierarchy.boundingBox) hit
      ((ofMesh mesh smooth method).intersect ray hit) := by
  refine Hierarchy.reports_liesOn (fun i hi hit => ?_) hit
  have hmeets : ∀ d ∈ (ofMesh mesh smooth method).encounter? ray i,
      LiesOn ray (mesh.triangleBounds i) d.t d.surface := fun d hd =>
    liesOn (m := ofMesh mesh smooth method) hmesh hray hd
  rw [queryTriangle_eq, item_items hi]
  exact Encounter.reports_answer hmeets hit

namespace Shape

variable {ray : Ray (Exact z)}

/-- Every child of a group has its item in the hierarchy. -/
theorem item_map {α : Type} [Scalar α] {children : Array (Shape α)} {i : Nat}
    (hi : i < children.size) : Hierarchy.item (children.map item) i = children[i].item := by
  simp [Hierarchy.item, hi]

section

variable {α : Type} [Scalar α] (method : SplitMethod) (ray : Ray α)

theorem intersect_ofChildren (children : Array (Shape α)) :
    (ofChildren method children).intersect ray =
      (Hierarchy.build method (children.map item)).intersect ray fun i hit =>
        if h : i < children.size then children[i].intersect ray hit else (false, hit) := by
  funext hit
  rw [ofChildren, Shape.intersect]

/-- A group of few children asks them one after the other, unless their box is too far away. -/
theorem intersect_ofChildren_of_size_le {children : Array (Shape α)} (hpos : 0 < children.size)
    (hsize : children.size ≤ Hierarchy.leafSize) (hit : Hit α) :
    (ofChildren method children).intersect ray hit =
      if hit.t ≤ (ofChildren method children).boundingBox.rayEntry ray ray.direction.recip then
        (false, hit)
      else Hierarchy.queryAll (fun i hit =>
        if h : i < children.size then children[i].intersect ray hit else (false, hit))
        (List.range children.size) hit.countNode := by
  rw [intersect_ofChildren, Hierarchy.intersect_build_of_size_le (by simpa using hpos)
    (by simpa using hsize), Array.size_map]
  simp only [ofChildren, boundingBox]

end

/-- The box of a group has the points of the boxes of its children. -/
theorem hasPoint_ofChildren {α : Type} [Scalar α] [Scalar.IsOrdered α] {method : SplitMethod}
    {children : Array (Shape α)} {p : Vec3 α} {i : Nat} (hi : i < children.size)
    (hp : children[i].boundingBox.HasPoint p) :
    (ofChildren method children).boundingBox.HasPoint p := by
  rw [ofChildren, boundingBox]
  refine Hierarchy.hasPoint_boundingBox_build (i := i) (by simpa using hi) ?_
  rw [item_map hi]
  exact hp

theorem reports_liesOn_placed {inner : Shape (Exact z)} {b : Binding (Exact z)}
    (hb : ∀ t ∈ b.transform, t.IsAffine)
    (hinner : ∀ ray : Ray (Exact z), ray.IsUnit → ∀ hit,
      Reports (LiesOn ray inner.boundingBox) hit (inner.intersect ray hit))
    (hray : ray.IsProper) (hunit : b.transform = none → ray.IsUnit) (hit : Hit (Exact z)) :
    Reports (LiesOn ray (placed inner b).boundingBox) hit ((placed inner b).intersect ray hit) := by
  rw [Shape.intersect]
  cases ht : b.transform with
  | none =>
    simp only [boundingBox, ht]
    exact Binding.reports_intersect_of_none ht inner.kept_intersect (hinner ray (hunit ht)) hit
  | some t =>
    have haffine := hb t ht
    simp only [boundingBox, ht]
    exact Binding.reports_intersect_of_some ht haffine hray inner.kept_intersect
      (hinner _ (haffine.isUnit_localRay hray)) hit

/-- Every hit of a sound shape lies on the ray and in the box of the shape. -/
theorem IsSound.reports_liesOn {s : Shape (Exact z)} (hs : s.IsSound) (hray : ray.IsUnit)
    (hit : Hit (Exact z)) : Reports (LiesOn ray s.boundingBox) hit (s.intersect ray hit) := by
  induction hs generalizing ray hit with
  | sphere =>
    rw [Shape.intersect, Sphere.intersect_eq]
    exact Encounter.reports_answer (fun d hd => Sphere.liesOn hray hd) hit
  | rectangle =>
    rw [Shape.intersect, Rectangle.intersect_eq]
    exact Encounter.reports_answer (fun d hd => Rectangle.liesOn hray.toIsReal hd) hit
  | mesh smooth method hreal =>
    rw [Shape.intersect]
    exact TriangleMesh.reports_liesOn smooth method hreal hray.toIsReal hit
  | @group method children _ ih =>
    rw [intersect_ofChildren]
    refine Hierarchy.reports_liesOn (fun i hi hit => ?_) hit
    rw [Array.size_map] at hi
    have hchild := ih children[i] (by simp) hray hit
    simp only [dif_pos hi, item_map hi]
    exact hchild
  | placed hb _ ih => exact reports_liesOn_placed hb (fun _ => ih) hray.isProper (fun _ => hray) hit

/-- Whenever a query of a sound shape finds a hit, the position is the point of the ray at the
reported distance, and it lies in the bounding box on all three axes. -/
theorem position_on_ray_in_box (s : Shape (Exact z)) (hs : s.IsSound) (ray : Ray (Exact z))
    (hray : ray.IsUnit) (hit : Hit (Exact z)) (hfound : (s.intersect ray hit).1 = true) :
    (s.intersect ray hit).2.surface.position = ray.pointAt (s.intersect ray hit).2.t ∧
      s.boundingBox.HasPoint (s.intersect ray hit).2.surface.position :=
  ((hs.reports_liesOn hray hit).found hfound).2

/-- A sphere of radius two is hit at its nearest point. -/
theorem position_on_ray_in_box_sphere :
    let s : Shape (Exact .plus) := placed .sphere { transform := some (.stretch 2) }
    let result := s.intersect (.towardsOrigin ⟨0, 0, 1⟩ 4) (.unbounded .zero)
    result.1 = true ∧ result.2.surface.position = .ofReal ⟨0, 0, -2⟩ ∧
      s.boundingBox.HasPoint (.ofReal ⟨0, 0, -2⟩) := by
  intro s result
  have hd : (0 : ℝ) * 0 + 0 * 0 + 1 * 1 = 1 := by norm_num
  have haffine := Transform.isAffine_stretch (z := .plus) (s := 2) two_ne_zero
  have hs : s.IsSound := .placed (by rintro t ⟨⟩; exact haffine) .sphere
  have hhit : result.1 = true ∧ result.2.t = number (4 - 2) :=
    intersect_stretched_sphere rfl two_pos (by norm_num) hd (lt_infinity _)
  have hpoint : (Ray.towardsOrigin ⟨0, 0, 1⟩ 4).pointAt result.2.t = .ofReal ⟨0, 0, -2⟩ := by
    rw [hhit.2]
    simp only [Ray.towardsOrigin, Ray.pointAt, Vec3.ofReal, Vec3.smul_mk, Vec3.mk_add, number_mul,
      number_add, Vec3.mk.injEq, number_inj]
    norm_num
  obtain ⟨hposition, hbox⟩ :=
    position_on_ray_in_box s hs _ (Ray.isUnit_towardsOrigin hd 4) (.unbounded .zero) hhit.1
  rw [hposition, hpoint] at hbox
  exact ⟨hhit.1, hposition.trans hpoint, hbox⟩

end Shape

end Radiance
