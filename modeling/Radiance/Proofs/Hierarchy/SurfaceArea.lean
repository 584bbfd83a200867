import Radiance.Proofs.Hierarchy.Bins
import Radiance.Proofs.Hierarchy.Layout

/-!
# Dividing by surface area

A range with a plane is partitioned as its slabs were counted, so both sides hold items and the
range becomes a branch.  The only ranges of more than two items that are left to a leaf are those
whose centroids agree along the longest axis of their box.

## Main definitions

* `DividedBySlabs`: the parts of a range hold the items of the slabs on either side of a split.

## Main statements

* `Separates.divided`: a partition by a separating plane divides a range by its slabs.
* `subdivide_of_sahSplit`: a range with a plane becomes a branch.
* `coordinate_eq_of_leaf`: the items of a large leaf have one coordinate along the longest axis.
-/

namespace Radiance.Hierarchy

open Exact

variable {z : ZeroSign} {items : Array (Item (Exact z))} {first count : Nat} {indices : Array Nat}

/-- In front of a place stand the items of the slabs in front of a split, behind it the others, and
there are some of both. -/
structure DividedBySlabs (items : Array (Item (Exact z))) (axis : Axis) (first count : Nat)
    (indices : Array Nat) (split : Nat) (after : Array Nat) (middle : Nat) : Prop where
  left : (range after first (middle - first)).Perm ((range indices first count).filter
    fun i => slabOf items (range indices first count) axis i < split)
  right : (range after middle (first + count - middle)).Perm ((range indices first count).filter
    fun i => split ≤ slabOf items (range indices first count) axis i)
  first_lt : first < middle
  lt_last : middle < first + count

theorem item_of_lt {i : Nat} (hi : i < items.size) : item items i = items[i] := by
  simp [item, Array.getD, hi]

theorem pos_of_mem_range {i : Nat} (h : i ∈ range indices first count) : 0 < count := by
  obtain ⟨p, hfirst, hlast, -⟩ := mem_range.1 h
  omega

/-- The partition by a plane finds every item where its slab was counted. -/
theorem Separates.divided {axis : Axis} {split : Nat} {plane : Exact z}
    (h : Separates items (range indices first count) axis split plane)
    (hsize : first + count ≤ indices.size) :
    DividedBySlabs items axis first count indices split
      (partition (isBelow items axis plane) indices first (first + count)).1
      (partition (isBelow items axis plane) indices first (first + count)).2 := by
  have hspec := partition_spec (isBelow items axis plane) indices first (first + count) (by omega)
    hsize
  have hbelow : ∀ i ∈ range indices first count, isBelow items axis plane i =
      decide (slabOf items (range indices first count) axis i < split) := fun i hi => by
    rw [Bool.eq_iff_iff, decide_eq_true_eq, h.isBelow_iff i hi]
  obtain ⟨hleft, hright⟩ := hspec.range_perm hsize
  rw [List.filter_congr hbelow] at hleft
  rw [List.filter_congr fun i hi => congrArg (!·) (hbelow i hi)] at hright
  simp only [← decide_not, not_lt] at hright
  obtain ⟨i, hi, hlt⟩ := h.exists_lt
  obtain ⟨j, hj, hge⟩ := h.exists_ge
  have hfirst := pos_of_mem_range (hleft.mem_iff.2 (List.mem_filter.2 ⟨hi, decide_eq_true hlt⟩))
  have hlast := pos_of_mem_range (hright.mem_iff.2 (List.mem_filter.2 ⟨hj, decide_eq_true hge⟩))
  exact ⟨hleft, hright, by omega, by omega⟩

/-- The plane that a large range is cut at is that of the heuristic, along the longest axis. -/
theorem cutPlane_sah (hcount : leafSize < count) :
    cutPlane items .sah first count indices = sahSplit items (range indices first count)
      (rangeBox items indices first count).longestAxis := by
  rw [cutPlane, if_neg (not_le.2 hcount)]
  rfl

/-- A large range with a plane becomes a branch. -/
theorem subdivide_of_sahSplit {plane : Exact z} {split middle : Nat} {after : Array Nat}
    (hcount : leafSize < count)
    (hplane : sahSplit items (range indices first count)
      (rangeBox items indices first count).longestAxis = some plane)
    (hparts : partition (isBelow items (rangeBox items indices first count).longestAxis plane)
      indices first (first + count) = (after, middle))
    (hdivided : DividedBySlabs items (rangeBox items indices first count).longestAxis first count
      indices split after middle) :
    let left := subdivide items .sah first (middle - first) after
    (subdivide items .sah first count indices).1 = .branch (rangeBox items indices first count)
      left.1 (subdivide items .sah middle (first + count - middle) left.2).1 := by
  have hdivide : divide items .sah first count indices = (after, some middle) := by
    rw [divide, cutPlane_sah hcount, hplane]
    simp only [hparts, hdivided.first_lt, hdivided.lt_last, and_self, if_true]
  rw [subdivide_eq items .sah first count indices, hdivide]

/-- A large range without a cut has one coordinate along its longest axis. -/
theorem coordinate_eq_of_divide_none {after : Array Nat}
    (hreal : ∀ i ∈ range indices first count, (item items i).IsReal)
    (hsize : first + count ≤ indices.size) (hcount : leafSize < count)
    (hdivide : divide items .sah first count indices = (after, none)) :
    ∀ i ∈ range indices first count, ∀ j ∈ range indices first count,
      coordinate items (rangeBox items indices first count).longestAxis i =
        coordinate items (rangeBox items indices first count).longestAxis j := by
  obtain ⟨-, hagree⟩ | ⟨-, s, plane, hplane, hseparates⟩ := sahSplit_cases _ hreal
  · exact hagree
  · have hdivided := hseparates.divided hsize
    rw [divide, cutPlane_sah hcount, hplane] at hdivide
    simp [hdivided.first_lt, hdivided.lt_last] at hdivide

/-- The items of a large leaf have one coordinate along the longest axis of its box. -/
theorem coordinate_eq_of_leaf (hreal : ∀ x ∈ items, x.IsReal) {k : Nat} {box : Box (Exact z)}
    (hleaf : (build .sah items).nodes[k]? = some (.leaf box first count))
    (hcount : leafSize < count) :
    ∀ i ∈ range (build .sah items).indices first count,
      ∀ j ∈ range (build .sah items).indices first count,
        coordinate items box.longestAxis i = coordinate items box.longestAxis j := by
  have hpos := pos_of_node hleaf
  rw [nodes_build hpos] at hleaf
  obtain ⟨start, size, before, hreached, hmade⟩ :=
    exists_reached_of_isSubtree (Tree.isSubtree_of_layout_leaf hleaf)
  obtain ⟨after, hdivide, rfl, rfl, rfl⟩ := exists_divide_of_leaf hmade.symm
  obtain ⟨hperm, -, hsize⟩ := hreached.perm hpos
  have hmembers (i : Nat) (hi : i ∈ range before first count) : (item items i).IsReal := by
    obtain ⟨p, -, hp, rfl⟩ := mem_range.1 hi
    have hlt : before.getD p 0 < items.size := by
      rw [← List.mem_range, ← hperm.mem_iff]
      simp [Array.getD, show p < before.size by omega]
    rw [item_of_lt hlt]
    exact hreal _ (Array.getElem_mem hlt)
  rw [build_of_pos .sah hpos]
  intro i hi j hj
  have hrange := hreached.range_perm hpos
  exact coordinate_eq_of_divide_none hmembers hsize hcount hdivide i (hrange.mem_iff.1 hi) j
    (hrange.mem_iff.1 hj)

/-- Over real items, the heuristic finds a plane unless the coordinates of a range agree.  The plane
is the one in front of a slab, and the partition moves exactly the items of the slabs in front of it
to the left; both sides hold items, so the range becomes a branch.  A leaf of more than two items
has one coordinate along the longest axis of its box. -/
theorem sah_divides_by_slabs (items : Array (Item (Exact z))) :
    (∀ (members : List Nat) (axis : Axis), (∀ i ∈ members, (item items i).IsReal) →
      (sahSplit items members axis = none ↔
        ∀ i ∈ members, ∀ j ∈ members, coordinate items axis i = coordinate items axis j)) ∧
    (∀ (first count : Nat) (indices : Array Nat), first + count ≤ indices.size →
      (∀ i ∈ range indices first count, (item items i).IsReal) →
      let box := rangeBox items indices first count
      ∀ plane, sahSplit items (range indices first count) box.longestAxis = some plane →
        let (after, middle) :=
          partition (isBelow items box.longestAxis plane) indices first (first + count)
        ∃ split, Separates items (range indices first count) box.longestAxis split plane ∧
          DividedBySlabs items box.longestAxis first count indices split after middle ∧
          (leafSize < count →
            let left := subdivide items .sah first (middle - first) after
            (subdivide items .sah first count indices).1 =
              .branch box left.1 (subdivide items .sah middle (first + count - middle) left.2).1)) ∧
    ((∀ x ∈ items, x.IsReal) → ∀ (k first count : Nat) (box : Box (Exact z)),
      (build .sah items).nodes[k]? = some (.leaf box first count) → leafSize < count →
        ∀ i ∈ range (build .sah items).indices first count,
          ∀ j ∈ range (build .sah items).indices first count,
            coordinate items box.longestAxis i = coordinate items box.longestAxis j) := by
  refine ⟨fun members axis hreal => ?_, ?_,
    fun hreal k first count box => coordinate_eq_of_leaf hreal⟩
  · obtain ⟨hnone, hagree⟩ | ⟨⟨i, hi, j, hj, hne⟩, s, plane, hplane, -⟩ :=
      sahSplit_cases axis hreal
    · exact iff_of_true hnone hagree
    · exact iff_of_false (by simp [hplane]) fun hagree => hne (hagree i hi j hj)
  · intro first count indices hsize hreal box plane hplane
    obtain ⟨hnone, -⟩ | ⟨-, s, plane', hplane', hseparates⟩ :=
      sahSplit_cases box.longestAxis hreal
    · cases hnone.symm.trans hplane
    · cases hplane'.symm.trans hplane
      have hdivided := hseparates.divided hsize
      exact ⟨s, hseparates, hdivided, fun hcount =>
        subdivide_of_sahSplit hcount hplane rfl hdivided⟩

/-- A point as an item. -/
noncomputable def bead (x : ℝ) : Item (Exact .plus) :=
  let p := Vec3.splat (number x)
  ⟨.ofPoints p p, p⟩

theorem isReal_bead (x : ℝ) : (bead x).IsReal where
  bounds :=
    { min := ⟨x, x, x, by simp [bead, Box.ofPoints, Box.min, Vec3.min, Vec3.splat, min_number]⟩
      max := ⟨x, x, x, by simp [bead, Box.ofPoints, Box.max, Vec3.max, Vec3.splat, max_number]⟩ }
  centroid := ⟨x, x, x, rfl⟩

theorem isReal_beads {x y t : ℝ} : ∀ i ∈ [0, 1, 2], (item #[bead x, bead y, bead t] i).IsReal := by
  simp [item, isReal_bead]

theorem coordinate_beads {x y t : ℝ} (axis : Axis) :
    coordinate #[bead x, bead y, bead t] axis 0 = number x ∧
      coordinate #[bead x, bead y, bead t] axis 1 = number y ∧
      coordinate #[bead x, bead y, bead t] axis 2 = number t := by
  cases axis <;> exact ⟨rfl, rfl, rfl⟩

/-- Three points on a diagonal are divided; three at one place make one leaf. -/
theorem sah_divides_by_slabs_beads :
    (∃ split after middle, DividedBySlabs #[bead 0, bead 1, bead 3]
        (rangeBox #[bead 0, bead 1, bead 3] #[0, 1, 2] 0 3).longestAxis 0 3 #[0, 1, 2] split after
        middle ∧
      ∃ l r, (subdivide #[bead 0, bead 1, bead 3] .sah 0 3 #[0, 1, 2]).1 =
        .branch (rangeBox #[bead 0, bead 1, bead 3] #[0, 1, 2] 0 3) l r) ∧
    ∃ box, (build .sah #[bead 2, bead 2, bead 2]).nodes[0]? = some (.leaf box 0 3) ∧
      ∀ i ∈ range (build .sah #[bead 2, bead 2, bead 2]).indices 0 3,
        ∀ j ∈ range (build .sah #[bead 2, bead 2, bead 2]).indices 0 3,
          coordinate #[bead 2, bead 2, bead 2] box.longestAxis i =
            coordinate #[bead 2, bead 2, bead 2] box.longestAxis j := by
  have hrange : range #[0, 1, 2] 0 3 = [0, 1, 2] := rfl
  constructor
  · obtain ⟨hnone, hdivides, -⟩ := sah_divides_by_slabs #[bead 0, bead 1, bead 3]
    have hsome (axis : Axis) :
        sahSplit #[bead 0, bead 1, bead 3] (range #[0, 1, 2] 0 3) axis ≠ none := by
      obtain ⟨hzero, hone, -⟩ := coordinate_beads (x := 0) (y := 1) (t := 3) axis
      rw [hrange, ne_eq, hnone _ axis isReal_beads]
      intro hagree
      have heq := hagree 0 (by simp) 1 (by simp)
      rw [hzero, hone, number_inj] at heq
      exact zero_ne_one heq
    obtain ⟨plane, hplane⟩ := Option.ne_none_iff_exists'.1 (hsome _)
    obtain ⟨split, -, hdivided, hbranch⟩ :=
      hdivides 0 3 #[0, 1, 2] (by decide) (hrange ▸ isReal_beads) plane hplane
    exact ⟨split, _, _, hdivided, _, _, hbranch (by decide)⟩
  · obtain ⟨hnone, -, hleaves⟩ := sah_divides_by_slabs #[bead 2, bead 2, bead 2]
    have hplane (axis : Axis) :
        sahSplit #[bead 2, bead 2, bead 2] (range (Array.range 3) 0 3) axis = none := by
      obtain ⟨hzero, hone, htwo⟩ := coordinate_beads (x := 2) (y := 2) (t := 2) axis
      have hall : ∀ i ∈ [0, 1, 2],
          coordinate #[bead 2, bead 2, bead 2] axis i = number 2 := by
        simpa using ⟨hzero, hone, htwo⟩
      exact (hnone [0, 1, 2] axis isReal_beads).2 fun i hi j hj =>
        (hall i hi).trans (hall j hj).symm
    have hdivide : divide #[bead 2, bead 2, bead 2] .sah 0 3 (Array.range 3) =
        (Array.range 3, none) := by
      rw [divide, cutPlane_sah (by decide), hplane]
    have hleaf : (build .sah #[bead 2, bead 2, bead 2]).nodes[0]? =
        some (.leaf (rangeBox #[bead 2, bead 2, bead 2] (Array.range 3) 0 3) 0 3) := by
      rw [build_of_pos .sah (by decide)]
      change (subdivide _ .sah 0 3 (Array.range 3)).1.layout[0]? = _
      rw [subdivide_eq, hdivide]
      rfl
    exact ⟨_, hleaf, hleaves (by simp [isReal_bead]) 0 0 3 _ hleaf (by decide)⟩

end Radiance.Hierarchy
