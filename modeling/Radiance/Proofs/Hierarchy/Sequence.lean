import Radiance.Proofs.Geometry.Entry
import Radiance.Proofs.Hierarchy.Nearest
import Radiance.Proofs.Hierarchy.Visits

/-!
# Queries in sequence

A hierarchy only decides which items are queried, and in which order; the record is changed by the
items alone.  So whatever relates a record to the answer of a query holds of a hierarchy as soon as
it holds of its items and survives when one query follows another.

## Main definitions

* `Sequential`: the relations that survive.

## Main statements

* `Sequential.intersect`: such a relation passes from the items to the hierarchy.
* `hasPoint_box`: the box of a node has the points of the boxes of all items below it.
-/

namespace Radiance.Hierarchy

variable {α : Type}

/-- A relation between a record and the answer of a query that no hierarchy can break. -/
structure Sequential (R : Hit α → Bool × Hit α → Prop) : Prop where
  skip : ∀ hit, R hit (false, hit)
  countNode : ∀ hit r, R hit.countNode r → R hit r
  countPrimitive : ∀ hit r, R hit.countPrimitive r → R hit r
  seq : ∀ hit r s, R hit r → R r.2 s → R hit (r.1 || s.1, s.2)

namespace Sequential

variable {R : Hit α → Bool × Hit α → Prop} {q : Query α}

/-- Nothing has to be written down for such a relation. -/
theorem sequentialLog (h : Sequential R) : SequentialLog fun hit r (_ : List Unit) => R hit r where
  skip := h.skip
  countNode hit r _ := h.countNode hit r
  countPrimitive hit r _ := h.countPrimitive hit r
  seq hit r s _ _ := h.seq hit r s

variable [Scalar α]

/-- Any hierarchy over items that all obey the relation obeys it. -/
theorem intersect (h : Sequential R) (hierarchy : Hierarchy α) (ray : Ray α)
    (hq : ∀ i hit, R hit (q i hit)) (hit : Hit α) : R hit (hierarchy.intersect ray q hit) :=
  h.sequentialLog.intersect (fun _ => []) hierarchy ray hq hit

/-- Of a built hierarchy, only the items that it was built from matter. -/
theorem intersect_build (h : Sequential R) (method : SplitMethod) (items : Array (Item α))
    (ray : Ray α) (hq : ∀ i < items.size, ∀ hit, R hit (q i hit)) (hit : Hit α) :
    R hit ((build method items).intersect ray q hit) :=
  h.sequentialLog.intersect_build (fun _ => []) method items ray hq hit

end Sequential

/-! ## Boxes -/

variable [Scalar α] {items : Array (Item α)} {method : SplitMethod}

variable [Scalar.IsOrdered α] {p : Vec3 α} {i : Nat}

/-- A node holds the boxes of the items below it.  The box was taken when the build came to the
range of the node; what the build did to the range since only changed its order. -/
theorem hasPoint_box {s : Tree α} (hs : IsSubtree (built items method).1 s)
    (hi : i ∈ s.members (built items method).2) (hp : (item items i).bounds.HasPoint p)
    (hpos : 0 < items.size) : s.box.HasPoint p := by
  obtain ⟨first, count, before, hreached, rfl⟩ := exists_reached_of_isSubtree hs
  rw [(hreached.spans hpos).members_eq, Nat.add_sub_cancel_left,
    (hreached.range_perm hpos).mem_iff] at hi
  rw [box_subdivide]
  exact hp.union (List.mem_map.2 ⟨i, hi, rfl⟩)

theorem hasPoint_boundingBox_build (hi : i < items.size)
    (hp : (item items i).bounds.HasPoint p) : (build method items).boundingBox.HasPoint p := by
  have hpos : 0 < items.size := Nat.lt_of_le_of_lt (Nat.zero_le i) hi
  rw [build_of_pos method hpos]
  exact hasPoint_box .refl ((mem_members_built hpos i).2 hi) hp hpos

/-! ## Few items -/

omit [Scalar.IsOrdered α] in
/-- A hierarchy of few items has one leaf, which is skipped or queried in order. -/
theorem intersect_build_of_size_le (hpos : 0 < items.size) (hsize : items.size ≤ leafSize)
    (ray : Ray α) (q : Query α) (hit : Hit α) :
    (build method items).intersect ray q hit =
      if hit.t ≤ (build method items).boundingBox.rayEntry ray ray.direction.recip then (false, hit)
      else queryAll q (List.range items.size) hit.countNode := by
  have hleaf : built items method =
      (.leaf (rangeBox items (Array.range items.size) 0 items.size) 0 items.size,
        Array.range items.size) := by
    rw [built, subdivide_eq]
    simp [divide, cutPlane, hsize]
  have hrange : range (Array.range items.size) 0 items.size = List.range items.size := by
    simpa using range_all (Array.range items.size)
  rw [build_of_pos method hpos, hleaf]
  simp only [intersect, boundingBox, Tree.box, Tree.query, hrange]
  rfl

end Radiance.Hierarchy
