import Radiance.Proofs.Hierarchy.Build
import Radiance.Proofs.Scalar.Extremes
import Radiance.Proofs.Scalar.Sign

/-!
# The slabs of the surface area heuristic

The heuristic counts the items of a range in slabs, by a coordinate that is scaled and cut to a
whole number, and looks for the slab in front of which a division costs least.  The plane in front
of that slab is another computation, and the items are then compared with it.  Over exact scalars
the comparison finds every item on the side that it was counted on, also on the border of a slab and
at the far end of the range, where the slab is clamped.

## Main definitions

* `spread`: the interval that the coordinates of some items fill.
* `slabOf`, `slabStart`: the slab of an item, and the plane in front of a slab.
* `Fills`: the least and the greatest coordinate of some real items.
* `Remains`: what remains of the splits that have been looked at.
* `Separates`: a plane divides items as their slabs do, with some on each side.

## Main statements

* `binOf_lt_iff`: which coordinates belong to the slabs in front of a plane.
* `splitCost?_slabs_eq_none_iff`: a split has no cost exactly if a side of it is empty.
* `Remains.cheaper`, `Remains.foldl`: looking at one more split, and at all of them.
* `sahSplit_cases`: everything that the heuristic can do.
-/

namespace Radiance

open Exact

variable {z : ZeroSign}

/-! ## Real boxes and items -/

theorem Vec3.isReal_iff_component {v : Vec3 (Exact z)} :
    v.IsReal ↔ ∀ axis, (v.component axis).IsReal := by
  constructor
  · rintro ⟨x, y, t, rfl⟩ axis
    cases axis <;> exact isReal_number _
  · intro h
    obtain ⟨x, hx⟩ := h .x
    obtain ⟨y, hy⟩ := h .y
    obtain ⟨t, ht⟩ := h .z
    exact ⟨x, y, t, Vec3.ext hx hy ht⟩

/-- All ends are real numbers, in whatever order. -/
structure Box.IsReal (b : Box (Exact z)) : Prop where
  min : b.min.IsReal
  max : b.max.IsReal

/-- The bounds and the centroid consist of real numbers. -/
structure Item.IsReal (x : Item (Exact z)) : Prop where
  bounds : x.bounds.IsReal
  centroid : x.centroid.IsReal

theorem Scalar.IsFirst.mem {α : Type} [Scalar α] {r : α → α → Prop} {last m : α} {values : Set α}
    (h : IsFirst r last values m) (hsome : ∃ v ∈ values, isNaN v = false) : m ∈ values := by
  refine h.mem_or.resolve_right fun ⟨hnone, _⟩ => ?_
  obtain ⟨v, hv, hdefined⟩ := hsome
  exact Bool.false_ne_true (hdefined.symm.trans (hnone v hv))

theorem Exact.IsReal.isNaN {a : Exact z} (h : a.IsReal) : Scalar.isNaN a = false := by
  obtain ⟨x, rfl⟩ := h
  simp

/-- The first of some numbers is real if one of them is, as long as the others are real or come
last. -/
theorem Exact.isReal_of_isFirst {r : Exact z → Exact z → Prop} {last m : Exact z}
    {pick : Exact z → Exact z → Exact z} {values : Set (Exact z)} (h : Scalar.Selects r last pick)
    (hlast : ¬last.IsReal) (hm : Scalar.IsFirst r last values m)
    (hvalues : ∀ v ∈ values, v = last ∨ v.IsReal) (hsome : ∃ v ∈ values, v.IsReal) : m.IsReal := by
  obtain ⟨v, hv, hreal⟩ := hsome
  refine (hvalues m (hm.mem ⟨v, hv, hreal.isNaN⟩)).resolve_left ?_
  rintro rfl
  exact hlast (h.eq_last (hm.first v hv hreal.isNaN) ▸ hreal)

namespace Box

theorem IsReal.surfaceArea {b : Box (Exact z)} (h : b.IsReal) : b.surfaceArea.IsReal := by
  obtain ⟨x, y, t, hdiagonal⟩ := h.max.sub h.min
  rw [Box.surfaceArea]
  split
  · exact ⟨0, zero_eq⟩
  · simp only [diagonal, hdiagonal, ofNat_eq, number_mul, number_add]
    exact isReal_number _

/-- An end of a union is selected among the ends of its parts. -/
theorem isReal_union_end {r : Exact z → Exact z → Prop} {last : Exact z}
    {pick : Exact z → Exact z → Exact z} (f : Box (Exact z) → Exact z)
    {boxes : List (Box (Exact z))} (h : Scalar.Selects r last pick) (hlast : ¬last.IsReal)
    (hstart : f .empty = last) (hop : ∀ b c, f (b.surrounding c) = pick (f b) (f c))
    (hf : ∀ b, b.IsReal → (f b).IsReal) (hparts : ∀ b ∈ boxes, b = .empty ∨ b.IsReal)
    (hsome : ∃ b ∈ boxes, b.IsReal) :
    (f (union boxes)).IsReal := by
  refine isReal_of_isFirst h hlast (h.isFirst_foldl_of_hom f f hstart hop boxes) ?_ ?_
  · rintro _ ⟨b, hb, rfl⟩
    obtain rfl | hreal := hparts b hb
    · exact .inl hstart
    · exact .inr (hf b hreal)
  · obtain ⟨b, hb, hreal⟩ := hsome
    exact ⟨f b, ⟨b, hb, rfl⟩, hf b hreal⟩

/-- Empty boxes change nothing beside a real one. -/
theorem isReal_union {boxes : List (Box (Exact z))} (hparts : ∀ b ∈ boxes, b = .empty ∨ b.IsReal)
    (hsome : ∃ b ∈ boxes, b.IsReal) : (union boxes).IsReal where
  min := Vec3.isReal_iff_component.2 fun axis =>
    isReal_union_end (fun b : Box (Exact z) => b.min.component axis) selects_min
      (by rintro ⟨_, ⟨⟩⟩) (by cases axis <;> rfl) (fun b c => by cases axis <;> rfl)
      (fun b hb => Vec3.isReal_iff_component.1 hb.min axis) hparts hsome
  max := Vec3.isReal_iff_component.2 fun axis =>
    isReal_union_end (fun b : Box (Exact z) => b.max.component axis) selects_max
      (by rintro ⟨_, ⟨⟩⟩) (by cases axis <;> rfl) (fun b c => by cases axis <;> rfl)
      (fun b hb => Vec3.isReal_iff_component.1 hb.max axis) hparts hsome

end Box

namespace Hierarchy

/-! ## Slabs -/

section

variable {α : Type} [Scalar α]

/-- The coordinate of the centroid of an item. -/
def coordinate (items : Array (Item α)) (axis : Axis) (i : Nat) : α :=
  (item items i).centroid.component axis

/-- The interval that the coordinates of some items fill. -/
def spread (items : Array (Item α)) (members : List Nat) (axis : Axis) : Interval α :=
  members.foldl (fun s i => s.extend (coordinate items axis i)) .empty

/-- The slab of an item when the spread of some items is cut into slabs. -/
def slabOf (items : Array (Item α)) (members : List Nat) (axis : Axis) (i : Nat) : Nat :=
  let s := spread items members axis
  binOf s.min s.size (coordinate items axis i)

/-- The items in one of these slabs, counted and boxed. -/
def slab (items : Array (Item α)) (members : List Nat) (axis : Axis) (b : Nat) : Bin α :=
  let mine := members.filter fun i => slabOf items members axis i = b
  ⟨mine.length, boundsOf items mine⟩

def slabs (items : Array (Item α)) (members : List Nat) (axis : Axis) : List (Bin α) :=
  (List.range binCount).map (slab items members axis)

/-- The plane in front of a slab. -/
def slabStart (items : Array (Item α)) (members : List Nat) (axis : Axis) (split : Nat) : α :=
  let s := spread items members axis
  s.min + s.size * Scalar.ofNat split / Scalar.ofNat binCount

/-- The split that remains when all of them have been looked at. -/
def cheapest? (bs : List (Bin α)) : Option Nat :=
  (((List.range (binCount - 1)).map (· + 1)).foldl (cheaper bs) (none, Scalar.infinity)).1

theorem sahSplit_eq (items : Array (Item α)) (members : List Nat) (axis : Axis) :
    sahSplit items members axis =
      let s := spread items members axis
      if 0 < s.size ∧ Scalar.isFinite s.size then
        (cheapest? (slabs items members axis)).map (slabStart items members axis)
      else none := rfl

variable {items : Array (Item α)} {members : List Nat} {axis : Axis}

theorem slabOf_lt (i : Nat) : slabOf items members axis i < binCount :=
  (Nat.min_le_right _ _).trans_lt (by decide)

/-- Slabs together count nothing exactly if none of the items is in one of them. -/
theorem Bin.merge_count_eq_zero_iff {bs : List (Bin α)} :
    (merge bs).count = 0 ↔ ∀ b ∈ bs, b.count = 0 := by
  have hfold (n : Nat) :
      bs.foldl (fun n b => n + b.count) n = 0 ↔ n = 0 ∧ ∀ b ∈ bs, b.count = 0 := by
    induction bs generalizing n with
    | nil => simp
    | cons b bs ih => simp [ih, and_assoc]
  simpa [merge] using hfold 0

theorem merge_slabs_count_eq_zero_iff (which : List Nat) :
    (Bin.merge (which.map (slab items members axis))).count = 0 ↔
      ∀ i ∈ members, slabOf items members axis i ∉ which := by
  simp only [Bin.merge_count_eq_zero_iff, List.forall_mem_map, slab, List.length_eq_zero_iff,
    List.filter_eq_nil_iff, decide_eq_true_eq]
  exact ⟨fun h i hi hwhich => h _ hwhich i hi rfl, fun h b hb i hi heq => h i hi (heq ▸ hb)⟩

theorem take_slabs (split : Nat) : (slabs items members axis).take split =
    (List.range (min split binCount)).map (slab items members axis) := by
  rw [slabs, ← List.map_take, List.take_range]

theorem drop_slabs (split : Nat) : (slabs items members axis).drop split =
    (List.range' split (binCount - split)).map (slab items members axis) := by
  rw [slabs, ← List.map_drop, List.range_eq_range', List.drop_range', Nat.zero_add, Nat.mul_one]

/-- A split has no cost exactly if all items are on one side of it. -/
theorem splitCost?_slabs_eq_none_iff {split : Nat} (hs : split ≤ binCount) :
    splitCost? (slabs items members axis) split = none ↔
      (∀ i ∈ members, split ≤ slabOf items members axis i) ∨
        ∀ i ∈ members, slabOf items members axis i < split := by
  have hnone : splitCost? (slabs items members axis) split = none ↔
      (Bin.merge ((slabs items members axis).take split)).count = 0 ∨
        (Bin.merge ((slabs items members axis).drop split)).count = 0 := by
    simp [splitCost?, or_iff_not_imp_left]
  rw [hnone, take_slabs, min_eq_left hs, drop_slabs, merge_slabs_count_eq_zero_iff,
    merge_slabs_count_eq_zero_iff]
  refine or_congr (forall₂_congr fun i _ => ?_) (forall₂_congr fun i _ => ?_)
  · simp
  · have hlt : slabOf items members axis i < binCount := slabOf_lt i
    rw [List.mem_range'_1]
    omega

end

/-! ## Slabs of real items -/

variable {items : Array (Item (Exact z))} {members : List Nat} {axis : Axis}

/-- A coordinate is counted in front of a split exactly if it lies in front of the plane there: on
the border of two slabs, both put it into the later one. -/
theorem binOf_lt_iff {lo extent c : ℝ} {s : Nat} (hextent : 0 < extent) (hlo : lo ≤ c)
    (hhi : c ≤ lo + extent) (hs : s < binCount) :
    binOf (number lo : Exact z) (number extent) (number c) < s ↔
      c < lo + extent * s / binCount := by
  have hscaled : ((number c - number lo) / number extent * Scalar.ofNat binCount : Exact z) =
      number ((c - lo) / extent * binCount) := by
    rw [number_sub, number_div _ _ hextent.ne']
    rfl
  have hpart : 0 ≤ (c - lo) / extent := div_nonneg (sub_nonneg.2 hlo) hextent.le
  have hwhole : (c - lo) / extent ≤ 1 := (div_le_one hextent).2 (by linarith)
  have hcount : (binCount : ℝ) = 16 := by norm_num [binCount]
  have hnonneg : 0 ≤ (c - lo) / extent * binCount := by positivity
  have hbound : (c - lo) / extent * binCount < 2 ^ 63 := by
    rw [hcount]
    linarith
  -- Splits are in front of the last slab, where the clamp changes nothing.
  have hclamp (n : Nat) : Nat.min n (binCount - 1) < s ↔ n < s := by
    rw [show Nat.min n (binCount - 1) = min n (binCount - 1) from rfl]
    omega
  rw [binOf, hscaled, toNat_number _ hnonneg hbound, hclamp, Nat.floor_lt hnonneg, hcount,
    div_mul_eq_mul_div, div_lt_iff₀ hextent]
  constructor <;> intro h <;> linarith

/-- The coordinates of some items are real and reach from `lo` to `hi`. -/
structure Fills (items : Array (Item (Exact z))) (members : List Nat) (axis : Axis) (lo hi : ℝ) :
    Prop where
  spread_eq : spread items members axis = ⟨number lo, number hi⟩
  exists_lo : ∃ i ∈ members, coordinate items axis i = number lo
  exists_hi : ∃ i ∈ members, coordinate items axis i = number hi
  between : ∀ i ∈ members, ∃ c : ℝ, coordinate items axis i = number c ∧ lo ≤ c ∧ c ≤ hi

/-- The spread of real coordinates reaches from the least to the greatest of them. -/
theorem exists_fills (hne : members ≠ [])
    (hreal : ∀ i ∈ members, (coordinate items axis i).IsReal) :
    ∃ lo hi : ℝ, Fills items members axis lo hi := by
  obtain ⟨i, hi⟩ := List.exists_mem_of_ne_nil members hne
  have hsome : ∃ c ∈ coordinate items axis '' {i | i ∈ members}, Scalar.isNaN c = false :=
    ⟨_, ⟨i, hi, rfl⟩, (hreal i hi).isNaN⟩
  have hmin : Scalar.IsLeastDefined (coordinate items axis '' {i | i ∈ members})
      (spread items members axis).min :=
    selects_min.isFirst_foldl_of_hom Interval.min _ rfl (fun _ _ => rfl) members
  have hmax : Scalar.IsGreatestDefined (coordinate items axis '' {i | i ∈ members})
      (spread items members axis).max :=
    selects_max.isFirst_foldl_of_hom Interval.max _ rfl (fun _ _ => rfl) members
  obtain ⟨first, hfirst, hleast⟩ := hmin.mem hsome
  obtain ⟨last, hlast, hgreatest⟩ := hmax.mem hsome
  obtain ⟨lo, hlo⟩ := hreal first hfirst
  obtain ⟨hi, hhi⟩ := hreal last hlast
  refine ⟨lo, hi, ?_, ⟨first, hfirst, hlo⟩, ⟨last, hlast, hhi⟩, fun i hi => ?_⟩
  · rw [← hlo, ← hhi, hleast, hgreatest]
  · obtain ⟨c, hc⟩ := hreal i hi
    have hle := hmin.first _ ⟨i, hi, rfl⟩ (hreal i hi).isNaN
    have hge := hmax.first _ ⟨i, hi, rfl⟩ (hreal i hi).isNaN
    rw [← hleast, hlo, hc, number_le] at hle
    rw [← hgreatest, hhi, hc, number_le] at hge
    exact ⟨c, hc, hle, hge⟩

theorem box_slab_of_count_eq_zero {b : Nat} (h : (slab items members axis b).count = 0) :
    (slab items members axis b).box = .empty := by
  simp [slab, List.length_eq_zero_iff.1 h, boundsOf, Box.union]

/-- The box of a slab that holds some real items is real. -/
theorem isReal_box_slab (hreal : ∀ i ∈ members, (item items i).IsReal) {b : Nat}
    (hne : (slab items members axis b).count ≠ 0) : (slab items members axis b).box.IsReal := by
  have hmine : ∀ i ∈ members.filter fun i => slabOf items members axis i = b,
      (item items i).bounds.IsReal := fun i hi => (hreal i (List.mem_filter.1 hi).1).bounds
  obtain ⟨i, hi⟩ := List.exists_mem_of_length_pos (Nat.pos_of_ne_zero hne)
  refine Box.isReal_union (fun c hc => .inr ?_) ⟨_, List.mem_map.2 ⟨i, hi, rfl⟩, hmine i hi⟩
  obtain ⟨j, hj, rfl⟩ := List.mem_map.1 hc
  exact hmine j hj

/-- So is the box of slabs together, empty ones among them. -/
theorem isReal_merge_slabs (hreal : ∀ i ∈ members, (item items i).IsReal) {which : List Nat}
    (hsome : (Bin.merge (which.map (slab items members axis))).count ≠ 0) :
    (Bin.merge (which.map (slab items members axis))).box.IsReal := by
  rw [ne_eq, Bin.merge_count_eq_zero_iff] at hsome
  push Not at hsome
  obtain ⟨_, hb, hne⟩ := hsome
  obtain ⟨b, hwhich, rfl⟩ := List.mem_map.1 hb
  refine Box.isReal_union (fun c hc => ?_) ⟨_, List.mem_map.2 ⟨_, hb, rfl⟩,
    isReal_box_slab hreal hne⟩
  simp only [List.map_map, List.mem_map] at hc
  obtain ⟨b', -, rfl⟩ := hc
  by_cases hzero : (slab items members axis b').count = 0
  · exact .inl (box_slab_of_count_eq_zero hzero)
  · exact .inr (isReal_box_slab hreal hzero)

/-- The cost of a split is real. -/
theorem isReal_of_splitCost? (hreal : ∀ i ∈ members, (item items i).IsReal) {split : Nat}
    {cost : Exact z} (hcost : splitCost? (slabs items members axis) split = some cost) :
    cost.IsReal := by
  have hterm {bin : Bin (Exact z)} (hbox : bin.box.IsReal) :
      (Scalar.ofNat bin.count * bin.box.surfaceArea).IsReal := by
    obtain ⟨x, hx⟩ := hbox.surfaceArea
    exact ⟨bin.count * x, by rw [hx]; rfl⟩
  rw [splitCost?, take_slabs, drop_slabs] at hcost
  split at hcost
  next => cases hcost
  next hsides =>
    push Not at hsides
    cases hcost
    exact (hterm (isReal_merge_slabs hreal hsides.1)).add
      (hterm (isReal_merge_slabs hreal hsides.2))

/-! ## Looking at the splits -/

section

variable {bs : List (Bin (Exact z))} {seen : List Nat} {best : Option Nat × Exact z}

/-- What remains of the splits that have been looked at: nothing as long as none of them has a cost,
and one of the cheapest from then on. -/
inductive Remains (bs : List (Bin (Exact z))) (seen : List Nat) : Option Nat × Exact z → Prop
  | nothing : (∀ s ∈ seen, splitCost? bs s = none) → Remains bs seen (none, Scalar.infinity)
  | split {s : Nat} {cost : Exact z} : s ∈ seen → splitCost? bs s = some cost →
      (∀ t ∈ seen, ∀ c ∈ splitCost? bs t, cost ≤ c) → Remains bs seen (some s, cost)

/-- What remains after one more split. -/
theorem Remains.cheaper (h : Remains bs seen best) (s : Nat)
    (hreal : ∀ t, ∀ c ∈ splitCost? bs t, c.IsReal) :
    Remains bs (seen ++ [s]) (cheaper bs best s) := by
  have hseen {p : Nat → Prop} (hp : ∀ t ∈ seen, p t) (hs : p s) : ∀ t ∈ seen ++ [s], p t := by
    simpa [or_imp, forall_and] using ⟨hp, hs⟩
  rw [Hierarchy.cheaper]
  cases hcost : splitCost? bs s with
  | none =>
    cases h with
    | nothing hnone => exact .nothing (hseen hnone hcost)
    | split ht hc hle => exact .split (List.mem_append_left _ ht) hc (hseen hle (by simp [hcost]))
  | some cost =>
    obtain ⟨x, rfl⟩ := hreal s cost hcost
    cases h with
    | nothing hnone =>
      simp only [show (number x : Exact z) < Scalar.infinity from lt_infinity x, if_true]
      refine .split (by simp) hcost (hseen (fun t ht c hc => ?_) fun c hc => ?_)
      · simp [hnone t ht] at hc
      · cases hcost.symm.trans hc
        simp
    | @split t kept ht hkept hle =>
      obtain ⟨y, rfl⟩ := hreal t kept hkept
      simp only [number_lt]
      split
      next hlt =>
        refine .split (by simp) hcost (hseen (fun u hu c hc => ?_) fun c hc => ?_)
        · exact Scalar.le_trans ((number_le x y).2 hlt.le) (hle u hu c hc)
        · cases hcost.symm.trans hc
          simp
      next hge =>
        refine .split (List.mem_append_left _ ht) hkept (hseen hle fun c hc => ?_)
        cases hcost.symm.trans hc
        exact (number_le y x).2 (not_lt.1 hge)

theorem Remains.foldl (h : Remains bs seen best) (splits : List Nat)
    (hreal : ∀ t, ∀ c ∈ splitCost? bs t, c.IsReal) :
    Remains bs (seen ++ splits) (splits.foldl (Hierarchy.cheaper bs) best) := by
  induction splits generalizing seen best with
  | nil => simpa using h
  | cons s splits ih => simpa using ih (h.cheaper s hreal)

/-- A split of least cost, among those that leave no side empty. -/
structure IsCheapest (bs : List (Bin (Exact z))) (s : Nat) : Prop where
  pos : 0 < s
  lt : s < binCount
  exists_cost : ∃ cost, splitCost? bs s = some cost ∧
    ∀ t, 0 < t → t < binCount → ∀ c ∈ splitCost? bs t, cost ≤ c

theorem cheapest?_cases (hreal : ∀ t, ∀ c ∈ splitCost? bs t, c.IsReal) :
    (cheapest? bs = none ∧ ∀ t, 0 < t → t < binCount → splitCost? bs t = none) ∨
      ∃ s, cheapest? bs = some s ∧ IsCheapest bs s := by
  have hsplits (t : Nat) : t ∈ (List.range (binCount - 1)).map (· + 1) ↔ 0 < t ∧ t < binCount := by
    simp only [List.mem_map, List.mem_range]
    exact ⟨by rintro ⟨k, hk, rfl⟩; omega, fun ht => ⟨t - 1, by omega, by omega⟩⟩
  have hremains : Remains bs ((List.range (binCount - 1)).map (· + 1))
      (((List.range (binCount - 1)).map (· + 1)).foldl (Hierarchy.cheaper bs)
        (none, Scalar.infinity)) := by
    have hstart : Remains bs [] (none, Scalar.infinity) := .nothing (by simp)
    simpa using hstart.foldl _ hreal
  rw [cheapest?]
  generalize (List.range (binCount - 1)).map (· + 1) = splits at hsplits hremains
  generalize splits.foldl (Hierarchy.cheaper bs) (none, Scalar.infinity) = best at hremains
  cases hremains with
  | nothing hnone => exact .inl ⟨rfl, fun t hpos hlt => hnone t ((hsplits t).2 ⟨hpos, hlt⟩)⟩
  | @split s cost hs hcost hle =>
    obtain ⟨hpos, hlt⟩ := (hsplits s).1 hs
    exact .inr ⟨s, rfl, hpos, hlt, cost, hcost, fun t hpos hlt => hle t ((hsplits t).2 ⟨hpos, hlt⟩)⟩

end

/-! ## The plane -/

/-- A plane divides items as their slabs do: it is the one in front of the slab that the search
ends at, which is one of the cheapest, the items below it are those of the slabs in front of it, and
there are some on each side. -/
structure Separates (items : Array (Item (Exact z))) (members : List Nat) (axis : Axis) (s : Nat)
    (plane : Exact z) : Prop where
  chosen : cheapest? (slabs items members axis) = some s
  cheapest : IsCheapest (slabs items members axis) s
  plane_eq : plane = slabStart items members axis s
  isBelow_iff : ∀ i ∈ members, isBelow items axis plane i = true ↔ slabOf items members axis i < s
  exists_lt : ∃ i ∈ members, slabOf items members axis i < s
  exists_ge : ∃ i ∈ members, s ≤ slabOf items members axis i

theorem Fills.slabStart_eq {lo hi : ℝ} (h : Fills items members axis lo hi) (s : Nat) :
    slabStart items members axis s = number (lo + (hi - lo) * s / binCount) := by
  have hcount : (binCount : ℝ) ≠ 0 := by norm_num [binCount]
  simp only [slabStart, h.spread_eq, Interval.size, number_sub]
  change (number lo + number ((hi - lo) * s) / number binCount : Exact z) = _
  rw [number_div _ _ hcount, number_add]

theorem Fills.slabOf_lt_iff {lo hi c : ℝ} {i s : Nat} (h : Fills items members axis lo hi)
    (hlt : lo < hi) (hc : coordinate items axis i = number c) (hlo : lo ≤ c) (hhi : c ≤ hi)
    (hs : s < binCount) :
    slabOf items members axis i < s ↔ c < lo + (hi - lo) * s / binCount := by
  simp only [slabOf, h.spread_eq, hc, Interval.size, number_sub]
  exact binOf_lt_iff (sub_pos.2 hlt) hlo (by linarith) hs

/-- Items lie in front of a plane as their slabs do. -/
theorem Fills.isBelow_iff {lo hi : ℝ} {i s : Nat} (h : Fills items members axis lo hi)
    (hlt : lo < hi) (hs : s < binCount) (hmem : i ∈ members) :
    isBelow items axis (slabStart items members axis s) i = true ↔
      slabOf items members axis i < s := by
  obtain ⟨c, hc, hloc, hchi⟩ := h.between i hmem
  rw [h.slabOf_lt_iff hlt hc hloc hchi hs, h.slabStart_eq, isBelow, decide_eq_true_eq]
  change coordinate items axis i < _ ↔ _
  rw [hc, number_lt]

/-- The least coordinate is in front of every plane. -/
theorem Fills.exists_slabOf_lt {lo hi : ℝ} {s : Nat} (h : Fills items members axis lo hi)
    (hlt : lo < hi) (hpos : 0 < s) (hs : s < binCount) :
    ∃ i ∈ members, slabOf items members axis i < s := by
  obtain ⟨first, hfirst, hlo⟩ := h.exists_lo
  refine ⟨first, hfirst, ?_⟩
  rw [h.slabOf_lt_iff hlt hlo le_rfl hlt.le hs]
  have : (0 : ℝ) < s := by exact_mod_cast hpos
  have : (0 : ℝ) < binCount := by norm_num [binCount]
  have : 0 < hi - lo := sub_pos.2 hlt
  have : 0 < (hi - lo) * s / binCount := by positivity
  linarith

/-- The greatest coordinate is in front of none. -/
theorem Fills.exists_le_slabOf {lo hi : ℝ} {s : Nat} (h : Fills items members axis lo hi)
    (hlt : lo < hi) (hs : s < binCount) : ∃ i ∈ members, s ≤ slabOf items members axis i := by
  obtain ⟨last, hlast, hhi⟩ := h.exists_hi
  refine ⟨last, hlast, ?_⟩
  rw [← not_lt, h.slabOf_lt_iff hlt hhi hlt.le le_rfl hs, not_lt]
  have hle : (s : ℝ) ≤ binCount := by exact_mod_cast hs.le
  have hcount : (0 : ℝ) < binCount := by norm_num [binCount]
  have : (hi - lo) * s / binCount ≤ hi - lo := by
    rw [div_le_iff₀ hcount]
    exact mul_le_mul_of_nonneg_left hle (sub_pos.2 hlt).le
  linarith

/-- So every split in front of a slab but the first has a cost. -/
theorem Fills.splitCost?_ne_none {lo hi : ℝ} {s : Nat} (h : Fills items members axis lo hi)
    (hlt : lo < hi) (hpos : 0 < s) (hs : s < binCount) :
    splitCost? (slabs items members axis) s ≠ none := by
  rw [ne_eq, splitCost?_slabs_eq_none_iff hs.le]
  rintro (hall | hall)
  · obtain ⟨i, hi, hfront⟩ := h.exists_slabOf_lt hlt hpos hs
    exact (hall i hi).not_gt hfront
  · obtain ⟨i, hi, hback⟩ := h.exists_le_slabOf hlt hs
    exact (hall i hi).not_ge hback

/-- Real items whose coordinates differ are separated by the plane in front of a slab. -/
theorem Fills.exists_separates {lo hi : ℝ} (h : Fills items members axis lo hi) (hlt : lo < hi)
    (hreal : ∀ i ∈ members, (item items i).IsReal) :
    ∃ s, Separates items members axis s (slabStart items members axis s) := by
  have hcosts (t : Nat) : ∀ c ∈ splitCost? (slabs items members axis) t, c.IsReal :=
    fun c hc => isReal_of_splitCost? hreal hc
  obtain ⟨-, hnone⟩ | ⟨s, hs, hcheapest⟩ := cheapest?_cases hcosts
  · have hone : splitCost? (slabs items members axis) 1 ≠ none :=
      h.splitCost?_ne_none hlt (by decide) (by decide)
    exact absurd (hnone 1 (by decide) (by decide)) hone
  · exact ⟨s, hs, hcheapest, rfl, fun i hi => h.isBelow_iff hlt hcheapest.lt hi,
      h.exists_slabOf_lt hlt hcheapest.pos hcheapest.lt, h.exists_le_slabOf hlt hcheapest.lt⟩

/-- Real items have a plane that separates them, unless their coordinates agree. -/
theorem sahSplit_cases (axis : Axis) (hreal : ∀ i ∈ members, (item items i).IsReal) :
    (sahSplit items members axis = none ∧
        ∀ i ∈ members, ∀ j ∈ members, coordinate items axis i = coordinate items axis j) ∨
      (∃ i ∈ members, ∃ j ∈ members, coordinate items axis i ≠ coordinate items axis j) ∧
        ∃ s plane, sahSplit items members axis = some plane ∧
          Separates items members axis s plane := by
  obtain rfl | hne := eq_or_ne members []
  · left
    have hspread : ¬(number 0 : Exact z) < (spread items [] axis).size := by
      change ¬lt (number 0) (add negInfinity negInfinity)
      simp [lt, add]
    simp [sahSplit_eq, hspread]
  obtain ⟨lo, hi, hfills⟩ :=
    exists_fills hne fun i hi => Vec3.isReal_iff_component.1 (hreal i hi).centroid axis
  have hsize : (spread items members axis).size = number (hi - lo) := by
    rw [hfills.spread_eq, Interval.size, number_sub]
  simp only [sahSplit_eq, hsize, zero_eq, number_lt, isFinite_number, and_true, sub_pos]
  by_cases hlt : lo < hi
  · right
    obtain ⟨s, hseparates⟩ := hfills.exists_separates hlt hreal
    obtain ⟨first, hfirst, hlo⟩ := hfills.exists_lo
    obtain ⟨last, hlast, hhi⟩ := hfills.exists_hi
    have hne : coordinate items axis first ≠ coordinate items axis last := by
      rw [hlo, hhi, ne_eq, number_inj]
      exact hlt.ne
    refine ⟨⟨first, hfirst, last, hlast, hne⟩, s, _, ?_, hseparates⟩
    rw [if_pos hlt, hseparates.chosen, Option.map_some]
  · left
    have hall (i : Nat) (hi' : i ∈ members) : coordinate items axis i = number lo := by
      obtain ⟨c, hc, hloc, hchi⟩ := hfills.between i hi'
      rw [hc, number_inj]
      linarith
    exact ⟨if_neg hlt, fun i hi j hj => (hall i hi).trans (hall j hj).symm⟩

end Hierarchy

end Radiance
