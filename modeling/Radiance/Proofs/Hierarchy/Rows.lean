import Radiance.Proofs.Hierarchy.Separation
import Radiance.Proofs.Scalar.Rational

/-!
# More nodes than links can reach

A hierarchy has up to twice as many nodes as items, so items whose numbers fit into words may have
more nodes than links, which are words, can reach.  Such items are three points in a row at each
place of a square grid.  The middle of the box around several rows falls between two of them, so
rows stay whole until they stand alone, and then they are cut once more: each has two leaves or
more.

## Main definitions

* `AreEven`: points whose boxes have middles that are not rounded.
* `IsMiddleCut`: a cut of such points, along the axis along which they are spread most.
* `rows`: three points in a row at each place of a square grid.

## Main statements

* `AreEven.exists_isMiddleCut`: points that are spread at all are cut.
* `two_mul_le_leafCount`: rows have two leaves or more each.
* `unlinked_rows`: no link leads to some of the nodes of a large grid.
-/

namespace Radiance

open Binary32 (IsWhole)

/-- No side of a box is longer than the one along its longest axis. -/
theorem Box.le_longestAxis {b : Box Float32} {extent : Axis → Int}
    (h : ∀ axis, IsWhole (b.diagonal.component axis) (extent axis)) (axis : Axis) :
    extent axis ≤ extent b.longestAxis := by
  have hlt (p q : Axis) :
      b.diagonal.component p < b.diagonal.component q ↔ extent p < extent q := (h p).lt_iff (h q)
  have hyx : b.diagonal.y < b.diagonal.x ↔ extent .y < extent .x := hlt .y .x
  have hzx : b.diagonal.z < b.diagonal.x ↔ extent .z < extent .x := hlt .z .x
  have hzy : b.diagonal.z < b.diagonal.y ↔ extent .z < extent .y := hlt .z .y
  simp only [longestAxis, hyx, hzx, hzy]
  split
  · cases axis <;> omega
  · split <;> cases axis <;> omega

namespace Hierarchy

/-! ## Points with even coordinates -/

/-- All items are points, and `half` gives half of their coordinates, which are even whole numbers
of up to 23 binary digits. -/
structure AreEven (items : Array (Item Float32)) (half : Axis → Nat → Nat) : Prop where
  min : ∀ i < items.size, ∀ axis,
    IsWhole ((item items i).bounds.min.component axis) (2 * half axis i)
  max : ∀ i < items.size, ∀ axis,
    IsWhole ((item items i).bounds.max.component axis) (2 * half axis i)
  centroid : ∀ i < items.size, ∀ axis, IsWhole (coordinate items axis i) (2 * half axis i)
  lt : ∀ i < items.size, ∀ axis, half axis i < 2 ^ 22

/-- The items `lo` and `hi` of a list stand at its two ends along an axis. -/
structure AreEnds (half : Axis → Nat → Nat) (axis : Axis) (members : List Nat) (lo hi : Nat) :
    Prop where
  lo_mem : lo ∈ members
  hi_mem : hi ∈ members
  lo_le : ∀ i ∈ members, half axis lo ≤ half axis i
  le_hi : ∀ i ∈ members, half axis i ≤ half axis hi

/-- Along no axis the items are spread more than along `axis`, between `lo` and `hi`, and those in
front of the middle are told from the others. -/
structure IsMiddleCut (half : Axis → Nat → Nat) (axis : Axis) (members left right : List Nat)
    (lo hi : Nat) : Prop extends AreEnds half axis members lo hi where
  longest : ∀ axis', ∀ i ∈ members, ∀ j ∈ members,
    half axis' j + half axis lo ≤ half axis' i + half axis hi
  left_iff : ∀ i, i ∈ left ↔ i ∈ members ∧ 2 * half axis i < half axis lo + half axis hi
  right_iff : ∀ i, i ∈ right ↔ i ∈ members ∧ ¬2 * half axis i < half axis lo + half axis hi

namespace AreEven

variable {items : Array (Item Float32)} {half : Axis → Nat → Nat} {first count : Nat}
  {before : Array Nat}

/-- The box around a range reaches from one end of the range to the other. -/
theorem exists_ends (h : AreEven items half)
    (hmembers : ∀ i ∈ range before first count, i < items.size) (hcount : 0 < count) (axis : Axis) :
    ∃ lo hi, AreEnds half axis (range before first count) lo hi ∧
      IsWhole ((rangeBox items before first count).min.component axis) (2 * half axis lo) ∧
      IsWhole ((rangeBox items before first count).max.component axis) (2 * half axis hi) := by
  have htight : (rangeBox items before first count).IsTight _ := isTight_rangeBox before first count
  have hmin := htight.min axis
  have hmax := htight.max axis
  rw [boundsIn, Set.image_image] at hmin hmax
  have hsome : {i | i ∈ range before first count}.Nonempty :=
    ⟨_, mem_range.2 ⟨first, le_rfl, by omega, rfl⟩⟩
  have hmins (i : Nat) (hi : i ∈ range before first count) := h.min i (hmembers i hi) axis
  have hmaxs (i : Nat) (hi : i ∈ range before first count) := h.max i (hmembers i hi) axis
  obtain ⟨lo, hlo, hloeq, hlole⟩ := hmin.exists_eq hsome fun i hi => (hmins i hi).defined
  obtain ⟨hi, hhi, hhieq, hhile⟩ := hmax.exists_eq hsome fun i hi => (hmaxs i hi).defined
  refine ⟨lo, hi, ⟨hlo, hhi, fun i hi => ?_, fun i hi => ?_⟩, hloeq ▸ hmins lo hlo,
    hhieq ▸ hmaxs hi hhi⟩
  · have := ((hmins lo hlo).le_iff (hmins i hi)).1 (hlole i hi)
    omega
  · have := ((hmaxs i hi).le_iff (hmaxs _ hhi)).1 (hhile i hi)
    omega

/-- The length and the middle of the box around a range are not rounded. -/
theorem exists_ends_of_box (h : AreEven items half)
    (hmembers : ∀ i ∈ range before first count, i < items.size) (hcount : 0 < count) (axis : Axis) :
    ∃ lo hi, AreEnds half axis (range before first count) lo hi ∧
      IsWhole ((rangeBox items before first count).diagonal.component axis)
        (2 * half axis hi - 2 * half axis lo) ∧
      IsWhole ((rangeBox items before first count).center.component axis)
        (half axis lo + half axis hi) := by
  obtain ⟨lo, hi, hends, hmin, hmax⟩ := h.exists_ends hmembers hcount axis
  have hlo := h.lt lo (hmembers lo hends.lo_mem) axis
  have hhi := h.lt hi (hmembers hi hends.hi_mem) axis
  have hsub := hmax.sub hmin (by omega)
  have hadd := hmin.add hmax (by omega)
  rw [← mul_add] at hadd
  have hhalf := hadd.half
  refine ⟨lo, hi, hends, ?_, ?_⟩
  · cases axis <;> exact hsub
  · cases axis <;> exact hhalf

/-- A range that is spread along some axis is cut in the middle. -/
theorem exists_isMiddleCut (h : AreEven items half) (hsize : first + count ≤ before.size)
    (hmembers : ∀ i ∈ range before first count, i < items.size) (hcount : leafSize < count)
    (spread : Axis) {i j : Nat} (hfrom : i ∈ range before first count)
    (hto : j ∈ range before first count) (hij : half spread i < half spread j) :
    ∃ after middle axis lo hi, divide items .midpoint first count before = (after, some middle) ∧
      IsMiddleCut half axis (range before first count) (range after first (middle - first))
        (range after middle (first + count - middle)) lo hi := by
  choose lo hi hends hextent hcenter using h.exists_ends_of_box hmembers (by omega)
  have hlongest (axis' : Axis) := Box.le_longestAxis hextent axis'
  have hplane : cutPlane items .midpoint first count before =
      some ((rangeBox items before first count).center.component
        (rangeBox items before first count).longestAxis) := if_neg (by omega)
  set axis := (rangeBox items before first count).longestAxis
  have hfront (i : Nat) (hmem : i ∈ range before first count) :
      coordinate items axis i < (rangeBox items before first count).center.component axis ↔
        2 * half axis i < half axis (lo axis) + half axis (hi axis) := by
    rw [(h.centroid i (hmembers i hmem) axis).lt_iff (hcenter axis)]
    omega
  -- Along the longest axis the ends are as far apart as along the axis of `i` and `j`, or farther.
  have hlt : half axis (lo axis) < half axis (hi axis) := by
    have hlo := (hends spread).lo_le i hfrom
    have hhi := (hends spread).le_hi j hto
    have hle := hlongest spread
    omega
  obtain ⟨after, middle, hdivide, hparts⟩ := exists_divide_of_plane hsize hplane
    (hends axis).lo_mem (hends axis).hi_mem ((hfront _ (hends axis).lo_mem).2 (by omega))
    ((hfront _ (hends axis).hi_mem).not.2 (by omega))
  refine ⟨after, middle, axis, lo axis, hi axis, hdivide, ?_⟩
  have hsides := mem_range_parts hsize hparts
  exact
    { toAreEnds := hends axis
      longest := fun axis' i hfrom j hto => by
        have hlo := (hends axis').lo_le i hfrom
        have hhi := (hends axis').le_hi j hto
        have hle := hlongest axis'
        omega
      left_iff := fun i => (hsides i).1.trans (and_congr_right (hfront i))
      right_iff := fun i => (hsides i).2.trans (and_congr_right fun hmem => (hfront i hmem).not) }

end AreEven

/-! ## Rows of three -/

/-- Half of the coordinates of point number `i`: three points in a row stand along the first axis at
each place of a grid in the other two. -/
def rowHalf (side : Nat) : Axis → Nat → Nat
  | .x, i => i % 3
  | .y, i => 4 * (i / 3 % side)
  | .z, i => 4 * (i / 3 / side)

/-- A whole number as a coordinate. -/
def wholeNumber (n : Nat) : Float32 := (UInt64.ofNat n).toFloat32

/-- Point number `i` as an item. -/
def rowPoint (side i : Nat) : Item Float32 :=
  let x := wholeNumber (2 * rowHalf side .x i)
  let y := wholeNumber (2 * rowHalf side .y i)
  let z := wholeNumber (2 * rowHalf side .z i)
  ⟨⟨⟨x, x⟩, ⟨y, y⟩, ⟨z, z⟩⟩, ⟨x, y, z⟩⟩

/-- The points of as many rows as there are places in a square grid. -/
def rows (side : Nat) : Array (Item Float32) := (Array.range (3 * side ^ 2)).map (rowPoint side)

variable {side : Nat}

theorem size_rows (side : Nat) : (rows side).size = 3 * side ^ 2 := by
  simp [rows]

theorem isWhole_wholeNumber {n : Nat} (h : n < 2 ^ 22) :
    IsWhole (wholeNumber (2 * n)) (2 * n) := by
  have hword : (UInt64.ofNat (2 * n)).toNat = 2 * n :=
    UInt64.toNat_ofNat_of_lt' (by change _ < 2 ^ 64; omega)
  have hwhole := Binary32.isWhole_toFloat32 (n := UInt64.ofNat (2 * n)) (by omega)
  rw [hword] at hwhole
  exact_mod_cast hwhole

theorem rowHalf_lt (hside : side ≤ 2 ^ 20) {i : Nat} (hi : i < 3 * side ^ 2) (axis : Axis) :
    rowHalf side axis i < 2 ^ 22 := by
  have hpos : 0 < side := by
    by_contra hzero
    obtain rfl : side = 0 := by omega
    simp at hi
  have hplace : i / 3 < side * side := by
    rw [← pow_two]
    omega
  cases axis with
  | x => simp only [rowHalf]; omega
  | y =>
    have := Nat.mod_lt (i / 3) hpos
    simp only [rowHalf]
    omega
  | z =>
    have := Nat.div_lt_of_lt_mul hplace
    simp only [rowHalf]
    omega

theorem item_rows {i : Nat} (hi : i < (rows side).size) : item (rows side) i = rowPoint side i := by
  have hi' : i < 3 * side ^ 2 := size_rows side ▸ hi
  simp [item, rows, Array.getD, hi']

theorem areEven_rows (hside : side ≤ 2 ^ 20) : AreEven (rows side) (rowHalf side) := by
  have hlt (i : Nat) (hi : i < (rows side).size) (axis : Axis) : rowHalf side axis i < 2 ^ 22 :=
    rowHalf_lt hside (size_rows side ▸ hi) axis
  refine
    { min := fun i hi axis => ?_
      max := fun i hi axis => ?_
      centroid := fun i hi axis => ?_
      lt := hlt }
  · rw [item_rows hi]
    cases axis <;> exact isWhole_wholeNumber (hlt i hi _)
  · rw [item_rows hi]
    cases axis <;> exact isWhole_wholeNumber (hlt i hi _)
  · rw [coordinate, item_rows hi]
    cases axis <;> exact isWhole_wholeNumber (hlt i hi _)

/-- The numbers of a list are those of whole rows. -/
structure HasWholeRows (side : Nat) (members : List Nat) : Prop where
  nodup : members.Nodup
  lt : ∀ i ∈ members, i < (rows side).size
  row : ∀ i ∈ members, ∀ j, j / 3 = i / 3 → j ∈ members

namespace HasWholeRows

variable {members part : List Nat}

theorem row_subset {i : Nat} (h : HasWholeRows side members) (hi : i ∈ members) :
    [3 * (i / 3), 3 * (i / 3) + 1, 3 * (i / 3) + 2] ⊆ members := by
  intro j hj
  simp only [List.mem_cons, List.not_mem_nil, or_false] at hj
  exact h.row i hi j (by omega)

/-- There are three numbers in a row, and in more rows more. -/
theorem three_le_length {i : Nat} (h : HasWholeRows side members) (hi : i ∈ members) :
    3 ≤ members.length :=
  (List.subperm_of_subset (by simp) (h.row_subset hi)).length_le

theorem length_le_three {i : Nat} (h : HasWholeRows side members)
    (hrow : ∀ j ∈ members, j / 3 = i / 3) : members.length ≤ 3 := by
  have hsubset : members ⊆ [3 * (i / 3), 3 * (i / 3) + 1, 3 * (i / 3) + 2] := by
    intro j hj
    have := hrow j hj
    simp only [List.mem_cons, List.not_mem_nil, or_false]
    omega
  exact (List.subperm_of_subset h.nodup hsubset).length_le

/-- A part that tells rows apart but not the points of one row. -/
theorem of_mem_iff {p : Nat → Prop} (h : HasWholeRows side members) (hnodup : part.Nodup)
    (hmem : ∀ i, i ∈ part ↔ i ∈ members ∧ p i) (hp : ∀ i j, j / 3 = i / 3 → (p i ↔ p j)) :
    HasWholeRows side part where
  nodup := hnodup
  lt i hi := h.lt i ((hmem i).1 hi).1
  row i hi j hij :=
    (hmem j).2 ⟨h.row i ((hmem i).1 hi).1 j hij, (hp i j hij).1 ((hmem i).1 hi).2⟩

end HasWholeRows

theorem rowHalf_congr {axis : Axis} (haxis : axis ≠ .x) {i j : Nat} (h : j / 3 = i / 3) :
    rowHalf side axis j = rowHalf side axis i := by
  cases axis with
  | x => exact absurd rfl haxis
  | y | z => simp only [rowHalf, h]

namespace IsMiddleCut

variable {axis : Axis} {members left right : List Nat} {lo hi i j : Nat}

/-- The places of two rows are farther apart than the ends of a row. -/
theorem axis_ne (h : IsMiddleCut (rowHalf side) axis members left right lo hi) (hi : i ∈ members)
    (hj : j ∈ members) (hrow : j / 3 ≠ i / 3) : axis ≠ .x := by
  rintro rfl
  -- Rows differ by four or more in a coordinate of their places, the ends of a row by two.
  have hy := h.longest .y i hi j hj
  have hy' := h.longest .y j hj i hi
  have hz := h.longest .z i hi j hj
  have hz' := h.longest .z j hj i hi
  simp only [rowHalf] at hy hy' hz hz'
  refine hrow ?_
  rw [← Nat.div_add_mod (j / 3) side, ← Nat.div_add_mod (i / 3) side,
    show j / 3 / side = i / 3 / side by omega, show j / 3 % side = i / 3 % side by omega]

/-- Between the rows the cut leaves every row whole. -/
theorem hasWholeRows (h : IsMiddleCut (rowHalf side) axis members left right lo hi)
    (haxis : axis ≠ .x) (hrows : HasWholeRows side members) (hleft : left.Nodup)
    (hright : right.Nodup) : HasWholeRows side left ∧ HasWholeRows side right := by
  constructor
  · exact hrows.of_mem_iff hleft h.left_iff fun i j hij => by rw [rowHalf_congr haxis hij]
  · exact hrows.of_mem_iff hright h.right_iff fun i j hij => by rw [rowHalf_congr haxis hij]

end IsMiddleCut

/-- One step cuts a range of whole rows: several rows into two parts of whole rows, or one row. -/
theorem exists_divide_rows {first count : Nat} {before : Array Nat} (hside : side ≤ 2 ^ 20)
    (hsize : first + count ≤ before.size) (hcount : 0 < count)
    (hrows : HasWholeRows side (range before first count)) :
    ∃ after middle, divide (rows side) .midpoint first count before = (after, some middle) ∧
      (count = 3 ∨ HasWholeRows side (range after first (middle - first)) ∧
        HasWholeRows side (range after middle (first + count - middle))) := by
  have hlength : (range before first count).length = count := by simp [range]
  obtain ⟨i, hi⟩ : ∃ i, i ∈ range before first count :=
    ⟨_, mem_range.2 ⟨first, le_rfl, by omega, rfl⟩⟩
  have hthree := hrows.three_le_length hi
  have hstart := hrows.row i hi (3 * (i / 3)) (by omega)
  have hend := hrows.row i hi (3 * (i / 3) + 2) (by omega)
  obtain ⟨after, middle, axis, lo, hi', hdivide, hcut⟩ :=
    (areEven_rows hside).exists_isMiddleCut hsize hrows.lt (by unfold leafSize; omega) .x hstart
      hend (by simp only [rowHalf]; omega)
  obtain ⟨hafter, hinside⟩ := divide_spec hsize hdivide
  obtain ⟨hlo, hhi⟩ := hinside middle rfl
  have hnodup := (hafter.range_perm hsize).nodup_iff.2 hrows.nodup
  rw [range_append after (show first ≤ middle by omega) (by omega), List.nodup_append] at hnodup
  refine ⟨after, middle, hdivide, ?_⟩
  by_cases hone : ∀ j ∈ range before first count, j / 3 = i / 3
  · have := hrows.length_le_three hone
    omega
  · push Not at hone
    obtain ⟨j, hj, hrow⟩ := hone
    exact .inr (hcut.hasWholeRows (hcut.axis_ne hi hj hrow) hrows hnodup.1 hnodup.2.1)

/-- There are two leaves or more to three points. -/
theorem two_mul_le_leafCount {first count : Nat} {before : Array Nat} (hside : side ≤ 2 ^ 20)
    (hsize : first + count ≤ before.size) (hcount : 0 < count)
    (hrows : HasWholeRows side (range before first count)) :
    2 * count ≤ 3 * (subdivide (rows side) .midpoint first count before).1.leafCount := by
  revert hrows
  refine subdivide_induction (rows side) .midpoint
    (motive := fun first count before t =>
      HasWholeRows side (range before first count) → 2 * count ≤ 3 * t.leafCount)
    ?_ ?_ first count before hsize hcount
  · intro first count before after hsize hcount hdivide hrows
    obtain ⟨after', middle, hcut, -⟩ := exists_divide_rows hside hsize hcount hrows
    simp [hdivide] at hcut
  · intro first count before after middle hsize hdivide hlo hhi left right hleft hright hrows
    obtain ⟨after', middle', hcut, hcases⟩ := exists_divide_rows hside hsize (by omega) hrows
    obtain ⟨rfl, rfl⟩ : after = after' ∧ middle = middle' := by simpa [hdivide] using hcut
    have hposL := left.1.leafCount_pos
    have hposR := right.1.leafCount_pos
    simp only [Tree.leafCount]
    -- A row that stands alone is cut through, so nothing is known of its parts but that they have
    -- leaves.
    obtain rfl | ⟨hrowsL, hrowsR⟩ := hcases
    · omega
    · rw [← range_subdivide_left hsize hdivide] at hrowsR
      have := hleft hrowsL
      have := hright hrowsR
      omega

theorem hasWholeRows_root (side : Nat) :
    HasWholeRows side (range (Array.range (rows side).size) 0 (rows side).size) := by
  have hall : range (Array.range (rows side).size) 0 (rows side).size =
      List.range (3 * side ^ 2) := by
    simpa [size_rows] using range_all (Array.range (rows side).size)
  rw [hall]
  refine ⟨List.nodup_range, fun i hi => ?_, fun i hi j hij => ?_⟩
  · rw [size_rows]
    exact List.mem_range.1 hi
  · rw [List.mem_range] at hi ⊢
    omega

/-- A grid of rows has four nodes, but one in all, or more to each place. -/
theorem le_size_nodes_rows (hside : side ≤ 2 ^ 20) :
    4 * side ^ 2 ≤ (build .midpoint (rows side)).nodes.size + 1 := by
  have hitems := size_rows side
  obtain hzero | hpos := Nat.eq_zero_or_pos (rows side).size
  · omega
  · have hleaves : 2 * (rows side).size ≤ 3 * (built (rows side) .midpoint).1.leafCount :=
      two_mul_le_leafCount hside (by simp) hpos (hasWholeRows_root side)
    have hsize := (built (rows side) .midpoint).1.size_add_one
    rw [nodes_build hpos, Tree.size_layout]
    omega

/-- The points of a grid of 36000 by 36000 rows can be numbered with words, but they have more nodes
than links can reach, so the links make no tree of the nodes. -/
theorem unlinked_rows :
    (rows 36000).size < 2 ^ 32 ∧
      ¬Linked (rows 36000) .midpoint (build .midpoint (rows 36000)).nodes
        (build .midpoint (rows 36000)).indices ∧
      ∃ c, 0 < c ∧ c < (build .midpoint (rows 36000)).nodes.size ∧
        ¬∃ k, IsChild (build .midpoint (rows 36000)).nodes k c := by
  have hitems := size_rows 36000
  have hnodes : 4 * 36000 ^ 2 ≤ (build .midpoint (rows 36000)).nodes.size + 1 :=
    le_size_nodes_rows (by norm_num)
  have hmany : maxNodes < (build .midpoint (rows 36000)).nodes.size := by
    unfold maxNodes
    omega
  refine ⟨by omega, fun h => absurd h.size_le hmany.not_ge, maxNodes, by decide, hmany, ?_⟩
  rintro ⟨k, hchild⟩
  exact lt_irrefl maxNodes hchild.lt_maxNodes

end Hierarchy

end Radiance
