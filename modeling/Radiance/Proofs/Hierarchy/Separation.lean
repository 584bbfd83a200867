import Radiance.Proofs.Hierarchy.Bins
import Radiance.Proofs.Hierarchy.Bounds

/-!
# The planes of the branches

A range is cut by moving the items in front of a plane to its front.  Later steps move items only
inside the two parts, so the plane still tells the two children of the branch apart when the
hierarchy is finished.

## Main definitions

* `IsCut`: how a branch was made from a range, and what its children hold at the end.

## Main statements

* `exists_plane_of_divide`, `exists_divide_of_plane`: a cut comes from a plane and the partition by
  it, and a plane with items on both sides makes one.
* `exists_isCut`: every branch of the tree was made by a cut.
* `build_separates`: every branch separates the items below it by its plane.
-/

namespace Radiance.Hierarchy

variable {α : Type} [Scalar α] {items : Array (Item α)} {method : SplitMethod}

/-- How a branch with the children `l` and `r` was made, and what it is at the end.  The build came
to a range when the permutation was `before`, chose a plane across the longest axis of the box
around the range, and moved the items in front of the plane to the front of the range, which left
the permutation as `after`. -/
structure IsCut (items : Array (Item α)) (method : SplitMethod) (h : Hierarchy α) (box : Box α)
    (l r : Tree α) (first count : Nat) (before after : Array Nat) (middle : Nat) (plane : α) :
    Prop where
  reached : Reached items method first count before
  box_eq : box = rangeBox items before first count
  plane_eq : splitPlane items method box (range before first count) = some plane
  partition_eq : partition (isBelow items box.longestAxis plane) before first (first + count) =
    (after, middle)
  rearranges : Rearranges first (first + count) before after
  left_spans : l.Spans first middle
  right_spans : r.Spans middle (first + count)
  items_eq : h.itemsOf (.branch box l r) = {i | i ∈ range before first count}
  left_items : h.itemsOf l =
    {i | i ∈ h.itemsOf (.branch box l r) ∧ coordinate items box.longestAxis i < plane}
  right_items : h.itemsOf r =
    {i | i ∈ h.itemsOf (.branch box l r) ∧ ¬coordinate items box.longestAxis i < plane}

/-! ## Where a branch comes from -/

/-- A cut comes from a plane and the partition by it. -/
theorem exists_plane_of_divide {first count middle : Nat} {before after : Array Nat}
    (h : divide items method first count before = (after, some middle)) :
    ∃ plane, splitPlane items method (rangeBox items before first count)
        (range before first count) = some plane ∧
      partition (isBelow items (rangeBox items before first count).longestAxis plane) before first
        (first + count) = (after, middle) := by
  unfold divide at h
  split at h
  · cases h
  next plane hplane =>
    unfold cutPlane at hplane
    split at hplane
    · cases hplane
    · refine ⟨plane, hplane, ?_⟩
      cases hparts : partition (isBelow items (rangeBox items before first count).longestAxis plane)
        before first (first + count) with
      | mk moved start =>
        simp only [hparts, Prod.mk.injEq, Option.ite_none_right_eq_some, Option.some.injEq] at h
        rw [h.1, h.2.2]

/-! ## What hangs below it -/

section

variable {first count middle : Nat} {before after : Array Nat}

/-- Subdividing the first part of a range leaves the second part as it was. -/
theorem range_subdivide_left (hsize : first + count ≤ before.size)
    (hdivide : divide items method first count before = (after, some middle)) :
    range (subdivide items method first (middle - first) after).2 middle (first + count - middle) =
      range after middle (first + count - middle) := by
  obtain ⟨hafter, hcut⟩ := divide_spec hsize hdivide
  obtain ⟨hlo, hhi⟩ := hcut middle rfl
  have hafterSize := hafter.size_eq
  have hleft := subdivide_rearranges items method first (middle - first) after (by omega)
  exact range_congr fun p hp _ => hleft.frame p (.inr (by omega))

/-- The partition by a plane tells the items of the two parts apart. -/
theorem mem_range_parts {axis : Axis} {plane : α} (hsize : first + count ≤ before.size)
    (hparts : partition (isBelow items axis plane) before first (first + count) = (after, middle))
    (i : Nat) :
    (i ∈ range after first (middle - first) ↔
      i ∈ range before first count ∧ coordinate items axis i < plane) ∧
    (i ∈ range after middle (first + count - middle) ↔
      i ∈ range before first count ∧ ¬coordinate items axis i < plane) := by
  have hspec := partition_spec (isBelow items axis plane) before first (first + count) (by omega)
    hsize
  rw [hparts] at hspec
  obtain ⟨hleft, hright⟩ := hspec.range_perm hsize
  rw [hleft.mem_iff, hright.mem_iff, List.mem_filter, List.mem_filter]
  simp [isBelow, coordinate]

/-- A range is cut at a plane with items on both sides. -/
theorem exists_divide_of_plane {plane : α} {i j : Nat} (hsize : first + count ≤ before.size)
    (hplane : cutPlane items method first count before = some plane)
    (hi : i ∈ range before first count) (hj : j ∈ range before first count)
    (hlt : coordinate items (rangeBox items before first count).longestAxis i < plane)
    (hge : ¬coordinate items (rangeBox items before first count).longestAxis j < plane) :
    ∃ after middle, divide items method first count before = (after, some middle) ∧
      partition (isBelow items (rangeBox items before first count).longestAxis plane) before first
        (first + count) = (after, middle) := by
  obtain ⟨after, middle, hparts⟩ : ∃ after middle,
      partition (isBelow items (rangeBox items before first count).longestAxis plane) before first
        (first + count) = (after, middle) := ⟨_, _, rfl⟩
  obtain ⟨p, hp, hp', -⟩ := mem_range.1 ((mem_range_parts hsize hparts i).1.2 ⟨hi, hlt⟩)
  obtain ⟨q, hq, hq', -⟩ := mem_range.1 ((mem_range_parts hsize hparts j).2.2 ⟨hj, hge⟩)
  have hcut : first < middle ∧ middle < first + count := by omega
  exact ⟨after, middle, by simp only [divide, hplane, hparts, hcut, and_self, if_true], hparts⟩

end

/-- Every branch of the tree was made by cutting a range at its plane, and at the end its children
hold the items in front of the plane and the others. -/
theorem exists_isCut {box : Box α} {l r : Tree α} (hpos : 0 < items.size)
    (h : IsSubtree (built items method).1 (.branch box l r)) :
    ∃ first count before after middle plane, IsCut items method (build method items) box l r
      first count before after middle plane := by
  obtain ⟨first, count, before, hreached, hmade⟩ := exists_reached_of_isSubtree h
  obtain ⟨after, middle, hdivide, rfl, rfl, rfl⟩ := exists_divide_of_branch hmade.symm
  obtain ⟨plane, hplane, hparts⟩ := exists_plane_of_divide hdivide
  obtain ⟨-, -, hsize⟩ := hreached.perm hpos
  obtain ⟨hrearranges, hcut⟩ := divide_spec hsize hdivide
  obtain ⟨hlo, hhi⟩ := hcut middle rfl
  have hitems := hreached.itemsOf_eq hpos
  rw [← hmade] at hitems
  have hleft := (hreached.left hdivide).spans hpos
  have hright := (hreached.right hdivide).spans hpos
  rw [Nat.add_sub_cancel' (by omega)] at hleft hright
  have hmem := mem_range_parts hsize hparts
  refine ⟨first, count, before, after, middle, plane, hreached, rfl, hplane, hparts, hrearranges,
    hleft, hright, hitems, ?_, ?_⟩
  · rw [(hreached.left hdivide).itemsOf_eq hpos, hitems]
    exact Set.ext fun i => (hmem i).1
  · rw [(hreached.right hdivide).itemsOf_eq hpos, range_subdivide_left hsize hdivide, hitems]
    exact Set.ext fun i => (hmem i).2

/-- The link of a branch leads to nodes below which the links lead to the items of the two children,
if links can reach all nodes. -/
theorem itemsBelow_children {k lo hi first count middle : Nat} {before : Array Nat} {left : UInt32}
    {box : Box α} {l r : Tree α}
    (h : IsPart items method k (.branch box l r) lo hi first count before)
    (hl : l.Spans first middle) (hr : r.Spans middle (first + count))
    (hfits : (build method items).nodes.size ≤ maxNodes)
    (hk : (build method items).nodes[k]? = some (.branch box left)) :
    (build method items).itemsBelow left.toNat = (build method items).itemsOf l ∧
      (build method items).itemsBelow (left.toNat + 1) = (build method items).itemsOf r := by
  have hle := h.le
  have hlast := h.le_indices
  have hmiddle := hr.lt
  cases h.written with
  | branch hbranch hlt hwrittenL hwrittenR =>
    have hmid := hwrittenL.le
    have hhi := hwrittenR.le
    obtain rfl : UInt32.ofNat lo = left := by simpa [hk] using hbranch.symm
    rw [toNat_link (show lo + 1 < hi by omega) (by omega)]
    exact ⟨hwrittenL.itemsBelow_eq (by omega) (by omega) hl (by omega),
      hwrittenR.itemsBelow_eq (by omega) (by omega) hr hlast⟩

/-- Every branch separates the items below it: its left child holds those whose centroid lies in
front of its plane, and the right one all others, also those with an undefined centroid.  The plane
is the one that was chosen for the range of the branch when the build came to it, and the partition
by it moved items inside that range alone, as it does with any range of any array.  The link of the
branch leads to the two children, unless there are too many nodes for links. -/
theorem build_separates [Scalar.IsOrdered α] (method : SplitMethod) (items : Array (Item α)) :
    (∀ (k : Nat) (left : UInt32) (box : Box α),
      (build method items).nodes[k]? = some (.branch box left) →
      ∃ l r, (build method items).partAt k = some (.branch box l r) ∧
        (∃ first count before after middle plane, IsCut items method (build method items) box l r
          first count before after middle plane) ∧
        (∀ i ∈ (build method items).itemsOf (.branch box l r),
          Scalar.isNaN (coordinate items box.longestAxis i) = true →
            i ∈ (build method items).itemsOf r) ∧
        ((build method items).nodes.size ≤ maxNodes →
          (build method items).itemsBelow left.toNat = (build method items).itemsOf l ∧
            (build method items).itemsBelow (left.toNat + 1) = (build method items).itemsOf r)) ∧
    ∀ (goesLeft : Nat → Bool) (indices : Array Nat) (first last : Nat), first ≤ last →
      last ≤ indices.size →
        Partitioned goesLeft indices first last (partition goesLeft indices first last) := by
  refine ⟨fun k left box h => ?_, partition_spec⟩
  obtain ⟨s, lo, hi, first, count, before, hpart⟩ := exists_isPart h
  cases hwritten : hpart.written with
  | leaf hk => cases hk.symm.trans h
  | @branch box' l r _ _ _ _ hk =>
    obtain ⟨rfl, -⟩ : box' = box ∧ UInt32.ofNat lo = left := by simpa [h] using hk.symm
    obtain ⟨first', count', before', after, middle, plane, hcut⟩ :=
      exists_isCut hpart.pos hpart.isSubtree
    refine ⟨l, r, hpart.partAt_eq, ⟨first', count', before', after, middle, plane, hcut⟩,
      fun i hi hundefined => ?_, fun hfits => ?_⟩
    · rw [hcut.right_items]
      refine ⟨hi, fun hlt => ?_⟩
      have hdefined := (Scalar.IsOrdered.isNaN_of_lt hlt).1
      exact Bool.false_ne_true (hdefined.symm.trans hundefined)
    · obtain ⟨m, hl, hr⟩ := hpart.spans
      exact itemsBelow_children hpart hl hr hfits h

/-! ### A row with a stray box -/

/-- Four unit boxes along the first axis, the farthest one with an undefined centroid. -/
def strayRow : Array (Item Float32) :=
  #[(5, 5.5), (0, 0.5), (9, 0 / 0), (2, 2.5)].map fun (x, c) =>
    ⟨⟨⟨x, x + 1⟩, ⟨0, 1⟩, ⟨0, 1⟩⟩, ⟨c, 0.5, 0.5⟩⟩

def strayTree : Tree Float32 :=
  .branch ⟨⟨0, 10⟩, ⟨0, 1⟩, ⟨0, 1⟩⟩ (.leaf ⟨⟨0, 3⟩, ⟨0, 1⟩, ⟨0, 1⟩⟩ 0 2)
    (.leaf ⟨⟨5, 10⟩, ⟨0, 1⟩, ⟨0, 1⟩⟩ 2 2)

theorem build_strayRow : build .midpoint strayRow = ⟨some strayTree, #[3, 1, 2, 0]⟩ := by
  decide +kernel

/-- The middle of the row separates the boxes, and the stray one hangs below the right child. -/
theorem build_separates_strayRow :
    (build .midpoint strayRow).itemsBelow 1 =
        {i | i ∈ (build .midpoint strayRow).itemsBelow 0 ∧ coordinate strayRow .x i < 5} ∧
      2 ∈ (build .midpoint strayRow).itemsBelow 2 ∧
      Partitioned (isBelow strayRow .x 5) #[0, 1, 2, 3] 0 4 (#[3, 1, 2, 0], 2) := by
  obtain ⟨hbranches, hparts⟩ := build_separates .midpoint strayRow
  have hbranch : (build .midpoint strayRow).nodes[0]? =
      some (.branch ⟨⟨0, 10⟩, ⟨0, 1⟩, ⟨0, 1⟩⟩ 1) := by
    rw [build_strayRow]
    decide +kernel
  have hfits : (build .midpoint strayRow).nodes.size ≤ maxNodes := by
    rw [build_strayRow]
    decide
  obtain ⟨l, r, hpart, ⟨first, count, before, after, middle, plane, hcut⟩, hundefined, hlinks⟩ :=
    hbranches 0 1 _ hbranch
  obtain ⟨hleft, hright⟩ := hlinks hfits
  obtain ⟨s, lo, hi, first', count', before', hroot⟩ := exists_isPart hbranch
  obtain rfl : s = .branch ⟨⟨0, 10⟩, ⟨0, 1⟩, ⟨0, 1⟩⟩ l r :=
    Option.some.inj (hroot.partAt_eq.symm.trans hpart)
  have hplane : plane = 5 := by
    refine (Option.some.inj hcut.plane_eq).symm.trans ?_
    decide +kernel
  refine ⟨?_, ?_, ?_⟩
  · rw [hroot.itemsBelow_eq hfits, ← hplane]
    exact hleft.trans hcut.left_items
  · refine hright.ge (hundefined 2 ?_ (by decide +kernel))
    rw [build_strayRow] at hpart
    have htree : strayTree = .branch ⟨⟨0, 10⟩, ⟨0, 1⟩, ⟨0, 1⟩⟩ l r := Option.some.inj hpart
    rw [build_strayRow, ← htree]
    change 2 ∈ strayTree.members #[3, 1, 2, 0]
    decide
  · have hmoved : partition (isBelow strayRow .x 5) #[0, 1, 2, 3] 0 4 = (#[3, 1, 2, 0], 2) := by
      decide +kernel
    rw [← hmoved]
    exact hparts _ _ 0 4 (by decide) (by decide)

end Radiance.Hierarchy
