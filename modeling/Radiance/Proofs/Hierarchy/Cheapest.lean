import Radiance.Proofs.Geometry.Entry
import Radiance.Proofs.Geometry.Unions
import Radiance.Proofs.Hierarchy.Bins

/-!
# The cheapest plane

The heuristic joins the slabs on either side of a plane.  Their boxes together are the box around
all items on that side, so what it compares is, for each of its planes, the number of items on each
side times the surface area of the box around them, and it keeps the first plane of least cost.  A
box without inner points has no surface area here, although its two faces may be large.  So the
plane is the cheapest by the area of faces if the items on both sides of it fill some space, while
among items in a plane that is parallel to two axes all planes cost nothing and the first one is
kept.

## Main definitions

* `Box.facesArea`: the area of the six faces of any box.
* `inFront`, `behind`: the items on the two sides of a plane.
* `planeCost`: the cost of a plane by some measure of boxes.
* `IsFirstCheapest`: the first plane of least cost.

## Main statements

* `merge_slabs`: slabs together are their items, counted and boxed.
* `Fills.splitCost?_eq`: the cost of a split is that of the plane.
* `foldl_cheaper_first`, `cheapest?_first`: the search ends at the first plane of least cost.
* `sahSplit_minimizes`: which plane is chosen.
-/

namespace Radiance

open Exact

variable {z : ZeroSign}

/-! ## Areas -/

namespace Box

/-- The area of the six faces, whether or not there is anything between them. -/
def facesArea {α : Type} [Scalar α] (b : Box α) : α :=
  let d := b.diagonal
  2 * (d.x * d.y + d.y * d.z + d.z * d.x)

theorem surfaceArea_eq {α : Type} [Scalar α] (b : Box α) :
    b.surfaceArea = if b.isEmpty then 0 else b.facesArea := rfl

theorem isEmpty_iff {α : Type} [Scalar α] {b : Box α} :
    b.isEmpty = true ↔ ∃ axis, b.max.component axis ≤ b.min.component axis := by
  simp only [isEmpty, Interval.isEmpty, Bool.or_eq_true, decide_eq_true_eq]
  constructor
  · rintro ((h | h) | h)
    exacts [⟨.x, h⟩, ⟨.y, h⟩, ⟨.z, h⟩]
  · rintro ⟨axis, h⟩
    cases axis with
    | x => exact .inl (.inl h)
    | y => exact .inl (.inr h)
    | z => exact .inr h

/-- A box with a point in it has faces, even if it has no inner points. -/
theorem exists_facesArea {b : Box (Exact z)} (hreal : b.IsReal) (hpoint : ∃ p, b.HasPoint p) :
    ∃ a : ℝ, 0 ≤ a ∧ b.facesArea = number a := by
  obtain ⟨p, hp⟩ := hpoint
  obtain ⟨x, y, t, hmin⟩ := hreal.min
  obtain ⟨x', y', t', hmax⟩ := hreal.max
  have hle (axis : Axis) : b.min.component axis ≤ b.max.component axis :=
    Scalar.le_trans (hasPoint_iff_axis.1 hp axis).1 (hasPoint_iff_axis.1 hp axis).2
  rw [hmin, hmax] at hle
  have hx : x ≤ x' := (number_le ..).1 (hle .x)
  have hy : y ≤ y' := (number_le ..).1 (hle .y)
  have ht : t ≤ t' := (number_le ..).1 (hle .z)
  have hdiagonal : b.diagonal = ⟨number (x' - x), number (y' - y), number (t' - t)⟩ := by
    simp only [diagonal, hmin, hmax, Vec3.mk_sub, number_sub]
  have hxy := mul_nonneg (sub_nonneg.2 hx) (sub_nonneg.2 hy)
  have hyt := mul_nonneg (sub_nonneg.2 hy) (sub_nonneg.2 ht)
  have htx := mul_nonneg (sub_nonneg.2 ht) (sub_nonneg.2 hx)
  refine ⟨2 * ((x' - x) * (y' - y) + (y' - y) * (t' - t) + (t' - t) * (x' - x)), by linarith, ?_⟩
  simp only [facesArea, hdiagonal, ofNat_eq, number_mul, number_add]

/-- The surface area is the area of the faces, or less if there is nothing between them. -/
theorem exists_surfaceArea {b : Box (Exact z)} (hreal : b.IsReal) (hpoint : ∃ p, b.HasPoint p) :
    ∃ a a' : ℝ, b.surfaceArea = number a ∧ b.facesArea = number a' ∧ a ≤ a' ∧
      (b.isEmpty = false → a = a') := by
  obtain ⟨a, hnonneg, ha⟩ := exists_facesArea hreal hpoint
  cases hempty : b.isEmpty with
  | true => exact ⟨0, a, by rw [surfaceArea_eq, if_pos hempty, zero_eq], ha, hnonneg, nofun⟩
  | false => exact ⟨a, a, by rw [surfaceArea_eq, if_neg (by simp [hempty]), ha], ha, le_rfl,
      fun _ => rfl⟩

end Box

namespace Hierarchy

/-! ## Slabs together -/

section

variable {α : Type} [Scalar α]

/-- Some items, counted and boxed. -/
def gather (items : Array (Item α)) (mine : List Nat) : Bin α := ⟨mine.length, boundsOf items mine⟩

end

variable {items : Array (Item (Exact z))} {members : List Nat} {axis : Axis}

theorem gather_perm {mine mine' : List Nat} (h : mine.Perm mine') :
    gather items mine = gather items mine' := by
  rw [gather, gather, h.length_eq, boundsOf, boundsOf, Box.union_perm (h.map _)]

theorem merge_gather (parts : List (List Nat)) :
    Bin.merge (parts.map (gather items)) = gather items parts.flatten := by
  have hcount (n : Nat) : (parts.map (gather items)).foldl (fun n b => n + b.count) n =
      n + parts.flatten.length := by
    induction parts generalizing n with
    | nil => rfl
    | cons mine parts ih =>
      rw [List.map_cons, List.foldl_cons, ih, List.flatten_cons, List.length_append,
        ← Nat.add_assoc]
      rfl
  have hbox : Box.union ((parts.map (gather items)).map (·.box)) =
      boundsOf items parts.flatten := by
    rw [boundsOf, List.map_flatten, ← Box.union_flatten, List.map_map, List.map_map]
    rfl
  rw [Bin.merge, hcount, hbox, Nat.zero_add, gather]

/-- The items with one of some keys, listed key by key. -/
theorem flatMap_filter_perm (key : Nat → Nat) {which : List Nat} (h : which.Nodup) :
    (which.flatMap fun b => members.filter fun i => key i = b).Perm
      (members.filter fun i => key i ∈ which) := by
  induction which with
  | nil => simp
  | cons b which ih =>
    obtain ⟨hb, hwhich⟩ := List.nodup_cons.1 h
    rw [List.flatMap_cons]
    refine ((ih hwhich).append_left _).trans ?_
    have hsplit := List.filter_append_perm (fun i => decide (key i = b))
      (members.filter fun i => key i ∈ b :: which)
    rw [List.filter_filter, List.filter_filter] at hsplit
    have hfirst : (members.filter fun i => key i = b) =
        members.filter fun i => decide (key i = b) && decide (key i ∈ b :: which) :=
      List.filter_congr fun i _ => by grind
    have hrest : (members.filter fun i => key i ∈ which) =
        members.filter fun i => !decide (key i = b) && decide (key i ∈ b :: which) :=
      List.filter_congr fun i _ => by grind
    rwa [hfirst, hrest]

/-- Slabs together are their items, counted and boxed. -/
theorem merge_slabs {which : List Nat} (h : which.Nodup) :
    Bin.merge (which.map (slab items members axis)) =
      gather items (members.filter fun i => slabOf items members axis i ∈ which) := by
  have hslab : slab items members axis =
      fun b => gather items (members.filter fun i => slabOf items members axis i = b) := rfl
  rw [← gather_perm (flatMap_filter_perm _ h), List.flatMap_def, ← merge_gather, List.map_map,
    hslab]
  rfl

/-! ## The sides of a plane -/

section

variable {α : Type} [Scalar α]

/-- The items in front of the plane of a split. -/
def inFront (items : Array (Item α)) (members : List Nat) (axis : Axis) (s : Nat) : List Nat :=
  members.filter (isBelow items axis (slabStart items members axis s))

/-- The items at the plane of a split or behind it. -/
def behind (items : Array (Item α)) (members : List Nat) (axis : Axis) (s : Nat) : List Nat :=
  members.filter (!isBelow items axis (slabStart items members axis s) ·)

/-- The cost of the plane of a split: on each side, the number of items times a measure of the box
around them. -/
def planeCost (area : Box α → α) (items : Array (Item α)) (members : List Nat) (axis : Axis)
    (s : Nat) : α :=
  Scalar.ofNat (inFront items members axis s).length *
      area (boundsOf items (inFront items members axis s)) +
    Scalar.ofNat (behind items members axis s).length *
      area (boundsOf items (behind items members axis s))

end

section

variable {lo hi : ℝ} {s : Nat} (h : Fills items members axis lo hi) (hlt : lo < hi)

include h hlt

theorem Fills.inFront_eq (hs : s < binCount) : inFront items members axis s =
    members.filter fun i => slabOf items members axis i < s :=
  List.filter_congr fun i hmem => by
    rw [Bool.eq_iff_iff, h.isBelow_iff hlt hs hmem, decide_eq_true_eq]

theorem Fills.behind_eq (hs : s < binCount) : behind items members axis s =
    members.filter fun i => s ≤ slabOf items members axis i :=
  List.filter_congr fun i hmem => by
    rw [Bool.eq_iff_iff, Bool.not_eq_true', ← Bool.not_eq_true, h.isBelow_iff hlt hs hmem, not_lt,
      decide_eq_true_eq]

/-- The cost of a split is that of its plane. -/
theorem Fills.splitCost?_eq (hpos : 0 < s) (hs : s < binCount) :
    splitCost? (slabs items members axis) s =
      some (planeCost Box.surfaceArea items members axis s) := by
  have hleft : Bin.merge ((slabs items members axis).take s) =
      gather items (inFront items members axis s) := by
    rw [take_slabs, min_eq_left hs.le, merge_slabs List.nodup_range, h.inFront_eq hlt hs]
    simp only [List.mem_range]
  have hright : Bin.merge ((slabs items members axis).drop s) =
      gather items (behind items members axis s) := by
    rw [drop_slabs, merge_slabs List.nodup_range', h.behind_eq hlt hs]
    refine congrArg _ (List.filter_congr fun i _ => ?_)
    have hlast : slabOf items members axis i < binCount := slabOf_lt i
    simp only [List.mem_range'_1, decide_eq_decide]
    omega
  have hsome := h.splitCost?_ne_none hlt hpos hs
  rw [splitCost?, hleft, hright] at hsome ⊢
  rw [if_neg fun hzero => hsome (if_pos hzero)]
  rfl

end

/-! ## The search -/

/-- The first plane of least cost among those between the first slab and the last. -/
structure IsFirstCheapest (cost : Nat → Exact z) (s : Nat) : Prop where
  pos : 0 < s
  lt : s < binCount
  le : ∀ t, 0 < t → t < binCount → cost s ≤ cost t
  lt_of_lt : ∀ t, 0 < t → t < s → cost s < cost t

/-- One more split replaces what remains if it costs less, and changes nothing otherwise. -/
theorem cheaper_eq_or (bs : List (Bin (Exact z))) (best : Option Nat × Exact z) (s : Nat) :
    cheaper bs best s = best ∨
      ∃ cost, splitCost? bs s = some cost ∧ cost < best.2 ∧ cheaper bs best s = (some s, cost) := by
  rw [cheaper]
  cases hcost : splitCost? bs s with
  | none => exact .inl rfl
  | some cost =>
    by_cases hlt : cost < best.2
    · exact .inr ⟨cost, rfl, hlt, if_pos hlt⟩
    · exact .inl (if_neg hlt)

section

variable {bs : List (Bin (Exact z))}

/-- Of splits that are equally cheap, the first one remains. -/
theorem foldl_cheaper_first (hreal : ∀ t, ∀ c ∈ splitCost? bs t, c.IsReal) {splits : List Nat}
    (hsorted : splits.Pairwise (· < ·)) {s : Nat}
    (h : (splits.foldl (cheaper bs) (none, Scalar.infinity)).1 = some s) :
    ∀ t ∈ splits, t < s → ∀ c ∈ splitCost? bs s, ∀ d ∈ splitCost? bs t, c < d := by
  induction splits using List.reverseRecOn with
  | nil => nofun
  | append_singleton splits n ih =>
    obtain ⟨hsplits, -, hbefore⟩ := List.pairwise_append.1 hsorted
    have hstart : Remains bs [] (none, Scalar.infinity) := .nothing (by simp)
    have hremains := hstart.foldl splits hreal
    rw [List.nil_append] at hremains
    rw [List.foldl_append, List.foldl_cons, List.foldl_nil] at h
    specialize ih hsplits
    generalize splits.foldl (cheaper bs) (none, Scalar.infinity) = best at h hremains ih
    intro t ht hlt c hc d hd
    rw [List.mem_append, List.mem_singleton] at ht
    obtain hkept | ⟨cost, hcost, hless, hnext⟩ := cheaper_eq_or bs best n
    · rw [hkept] at h
      obtain ht | rfl := ht
      · exact ih h t ht hlt c hc d hd
      -- What remains is one of the splits before, so the last one is not in front of it.
      · cases hremains with
        | nothing => cases h
        | split hs =>
          cases h
          exact absurd hlt (hbefore _ hs _ (List.mem_singleton_self _)).not_gt
    · rw [hnext] at h
      cases h
      cases hcost.symm.trans hc
      obtain ht | rfl := ht
      · cases hremains with
        | nothing hnone => exact absurd hd (by simp [hnone t ht])
        | split hs _ hle => exact Scalar.lt_of_lt_of_le hless (hle t ht d hd)
      · exact absurd hlt (lt_irrefl _)

/-- The search ends at the first plane of least cost. -/
theorem cheapest?_first {cost : Nat → Exact z}
    (hcost : ∀ t, 0 < t → t < binCount → splitCost? bs t = some (cost t))
    (hreal : ∀ t, ∀ c ∈ splitCost? bs t, c.IsReal) :
    ∃ s, cheapest? bs = some s ∧ IsFirstCheapest cost s := by
  obtain ⟨-, hnone⟩ | ⟨s, hs, hpos, hlt, least, hleast, hle⟩ := cheapest?_cases hreal
  · have hone := hcost 1 (by decide) (by decide)
    rw [hnone 1 (by decide) (by decide)] at hone
    cases hone
  · cases hleast.symm.trans (hcost s hpos hlt)
    refine ⟨s, hs, hpos, hlt, fun t hpos' hlt' => hle t hpos' hlt' _ (hcost t hpos' hlt'),
      fun t hpos' hlt' => ?_⟩
    have hsorted : ((List.range (binCount - 1)).map (· + 1)).Pairwise (· < ·) := by decide
    have hmem : t ∈ (List.range (binCount - 1)).map (· + 1) :=
      List.mem_map.2 ⟨t - 1, List.mem_range.2 (by omega), by omega⟩
    exact foldl_cheaper_first hreal hsorted hs t hmem hlt' _ (hcost s hpos hlt) _
      (hcost t hpos' (hlt'.trans hlt))

end

/-! ## The chosen plane -/

section

variable {lo hi : ℝ} {s : Nat} (h : Fills items members axis lo hi) (hlt : lo < hi)
  (hreal : ∀ i ∈ members, (item items i).IsReal)

include h hlt

theorem Fills.inFront_ne_nil (hpos : 0 < s) (hs : s < binCount) :
    inFront items members axis s ≠ [] := by
  obtain ⟨i, hmem, hfront⟩ := h.exists_slabOf_lt hlt hpos hs
  rw [h.inFront_eq hlt hs]
  exact List.ne_nil_of_mem (List.mem_filter.2 ⟨hmem, decide_eq_true hfront⟩)

theorem Fills.behind_ne_nil (hs : s < binCount) : behind items members axis s ≠ [] := by
  obtain ⟨i, hmem, hback⟩ := h.exists_le_slabOf hlt hs
  rw [h.behind_eq hlt hs]
  exact List.ne_nil_of_mem (List.mem_filter.2 ⟨hmem, decide_eq_true hback⟩)

end

/-- The box around some real items. -/
theorem isReal_boundsOf {mine : List Nat} (hreal : ∀ i ∈ mine, (item items i).IsReal)
    (hne : mine ≠ []) : (boundsOf items mine).IsReal := by
  obtain ⟨i, hi⟩ := List.exists_mem_of_ne_nil mine hne
  refine Box.isReal_union (fun c hc => .inr ?_)
    ⟨_, List.mem_map.2 ⟨i, hi, rfl⟩, (hreal i hi).bounds⟩
  obtain ⟨j, hj, rfl⟩ := List.mem_map.1 hc
  exact (hreal j hj).bounds

theorem exists_hasPoint_boundsOf {mine : List Nat}
    (hpoint : ∀ i ∈ mine, ∃ p, (item items i).bounds.HasPoint p) (hne : mine ≠ []) :
    ∃ p, (boundsOf items mine).HasPoint p := by
  obtain ⟨i, hi⟩ := List.exists_mem_of_ne_nil mine hne
  obtain ⟨p, hp⟩ := hpoint i hi
  exact ⟨p, hp.union (List.mem_map.2 ⟨i, hi, rfl⟩)⟩

/-- All boxes lie in one plane that is parallel to two axes. -/
def AreCoplanar (items : Array (Item (Exact z))) (members : List Nat) : Prop :=
  ∃ flat c, ∀ i ∈ members, (item items i).bounds.min.component flat = number c ∧
    (item items i).bounds.max.component flat = number c

theorem AreCoplanar.mono {mine : List Nat} (h : AreCoplanar items members)
    (hsub : ∀ i ∈ mine, i ∈ members) : AreCoplanar items mine := by
  obtain ⟨flat, c, hflat⟩ := h
  exact ⟨flat, c, fun i hi => hflat i (hsub i hi)⟩

/-- An end of the box around some items is an end of one of them. -/
theorem end_boundsOf {r : Exact z → Exact z → Prop} {last : Exact z}
    {pick : Exact z → Exact z → Exact z} (f : Box (Exact z) → Exact z)
    (h : Scalar.Selects r last pick) (hstart : f .empty = last)
    (hop : ∀ b c, f (b.surrounding c) = pick (f b) (f c))
    {mine : List Nat} (hne : mine ≠ []) {c : ℝ}
    (hf : ∀ i ∈ mine, f (item items i).bounds = number c) : f (boundsOf items mine) = number c := by
  obtain ⟨i, hi⟩ := List.exists_mem_of_ne_nil mine hne
  have hfirst := h.isFirst_foldl_of_hom f f hstart hop (mine.map fun i => (item items i).bounds)
  obtain ⟨b, hb, heq⟩ := hfirst.mem ⟨_, ⟨_, List.mem_map.2 ⟨i, hi, rfl⟩, rfl⟩, by simp [hf i hi]⟩
  obtain ⟨j, hj, rfl⟩ := List.mem_map.1 hb
  exact heq.symm.trans (hf j hj)

/-- The box around items in such a plane has no inner points. -/
theorem AreCoplanar.surfaceArea_eq {mine : List Nat} (h : AreCoplanar items mine)
    (hne : mine ≠ []) : (boundsOf items mine).surfaceArea = number 0 := by
  obtain ⟨flat, c, hflat⟩ := h
  have hmin : (boundsOf items mine).min.component flat = number c :=
    end_boundsOf (fun b : Box (Exact z) => b.min.component flat) selects_min
      (by cases flat <;> rfl) (fun b c => by cases flat <;> rfl) hne fun i hi => (hflat i hi).1
  have hmax : (boundsOf items mine).max.component flat = number c :=
    end_boundsOf (fun b : Box (Exact z) => b.max.component flat) selects_max
      (by cases flat <;> rfl) (fun b c => by cases flat <;> rfl) hne fun i hi => (hflat i hi).2
  have hempty : (boundsOf items mine).isEmpty = true :=
    Box.isEmpty_iff.2 ⟨flat, by rw [hmin, hmax, number_le]⟩
  rw [Box.surfaceArea_eq, if_pos hempty, zero_eq]

theorem planeCost_eq {area : Box (Exact z) → Exact z} {s : Nat} {a b : ℝ}
    (ha : area (boundsOf items (inFront items members axis s)) = number a)
    (hb : area (boundsOf items (behind items members axis s)) = number b) :
    planeCost area items members axis s =
      number ((inFront items members axis s).length * a +
        (behind items members axis s).length * b) := by
  rw [planeCost, ha, hb]
  rfl

theorem IsFirstCheapest.of_le {cost cost' : Nat → Exact z} {s : Nat} (h : IsFirstCheapest cost s)
    (hle : ∀ t, 0 < t → t < binCount → cost t ≤ cost' t) (heq : cost s = cost' s) :
    IsFirstCheapest cost' s where
  pos := h.pos
  lt := h.lt
  le t hpos hlt := heq ▸ Scalar.le_trans (h.le t hpos hlt) (hle t hpos hlt)
  lt_of_lt t hpos hlt :=
    heq ▸ Scalar.lt_of_lt_of_le (h.lt_of_lt t hpos hlt) (hle t hpos (hlt.trans h.lt))

section

variable {lo hi : ℝ} {s : Nat} (h : Fills items members axis lo hi) (hlt : lo < hi)
  (hreal : ∀ i ∈ members, (item items i).IsReal)
  (hpoint : ∀ i ∈ members, ∃ p, (item items i).bounds.HasPoint p)

include h hlt hreal hpoint

/-- Planes cost at most as much as by the area of faces, and just as much if both sides fill some
space. -/
theorem Fills.planeCost_le (hpos : 0 < s) (hs : s < binCount) :
    planeCost Box.surfaceArea items members axis s ≤ planeCost Box.facesArea items members axis s ∧
      ((boundsOf items (inFront items members axis s)).isEmpty = false →
        (boundsOf items (behind items members axis s)).isEmpty = false →
        planeCost Box.surfaceArea items members axis s =
          planeCost Box.facesArea items members axis s) := by
  have hfront {i : Nat} (hi : i ∈ inFront items members axis s) := (List.mem_filter.1 hi).1
  have hback {i : Nat} (hi : i ∈ behind items members axis s) := (List.mem_filter.1 hi).1
  obtain ⟨a, a', ha, ha', hale, haeq⟩ := Box.exists_surfaceArea
    (isReal_boundsOf (fun i hi => hreal i (hfront hi)) (h.inFront_ne_nil hlt hpos hs))
    (exists_hasPoint_boundsOf (fun i hi => hpoint i (hfront hi)) (h.inFront_ne_nil hlt hpos hs))
  obtain ⟨b, b', hb, hb', hble, hbeq⟩ := Box.exists_surfaceArea
    (isReal_boundsOf (fun i hi => hreal i (hback hi)) (h.behind_ne_nil hlt hs))
    (exists_hasPoint_boundsOf (fun i hi => hpoint i (hback hi)) (h.behind_ne_nil hlt hs))
  rw [planeCost_eq ha hb, planeCost_eq ha' hb']
  constructor
  · rw [number_le]
    gcongr
  · intro hfirst hsecond
    rw [haeq hfirst, hbeq hsecond]

end

section

variable {lo hi : ℝ} {s : Nat} (h : Fills items members axis lo hi) (hlt : lo < hi)

include h hlt

/-- The heuristic chooses the first plane of least cost. -/
theorem Fills.exists_sahSplit (hreal : ∀ i ∈ members, (item items i).IsReal) :
    ∃ s, sahSplit items members axis = some (slabStart items members axis s) ∧
      IsFirstCheapest (planeCost Box.surfaceArea items members axis) s := by
  have hsize : (spread items members axis).size = number (hi - lo) := by
    rw [h.spread_eq, Interval.size, number_sub]
  have hcost (t : Nat) (hpos : 0 < t) (ht : t < binCount) := h.splitCost?_eq hlt hpos ht
  obtain ⟨s, hs, hfirst⟩ := cheapest?_first hcost fun t c hc => isReal_of_splitCost? hreal hc
  refine ⟨s, ?_, hfirst⟩
  simp only [sahSplit_eq, hsize, zero_eq, number_lt, isFinite_number, and_true, sub_pos]
  rw [if_pos hlt, hs, Option.map_some]

/-- Among items in one plane the first plane of least cost is the first of all. -/
theorem Fills.eq_one_of_coplanar (hflat : AreCoplanar items members)
    (hfirst : IsFirstCheapest (planeCost Box.surfaceArea items members axis) s) : s = 1 := by
  have hzero {t : Nat} (hpos : 0 < t) (ht : t < binCount) :
      planeCost Box.surfaceArea items members axis t = number 0 := by
    have hfront : AreCoplanar items (inFront items members axis t) :=
      hflat.mono fun i hi => (List.mem_filter.1 hi).1
    have hback : AreCoplanar items (behind items members axis t) :=
      hflat.mono fun i hi => (List.mem_filter.1 hi).1
    rw [planeCost_eq (hfront.surfaceArea_eq (h.inFront_ne_nil hlt hpos ht))
      (hback.surfaceArea_eq (h.behind_ne_nil hlt ht)), mul_zero, mul_zero, add_zero]
  by_contra hone
  have hpos := hfirst.pos
  have hcheaper := hfirst.lt_of_lt 1 (by decide) (by omega)
  rw [hzero hpos hfirst.lt, hzero (by decide) (by decide), number_lt] at hcheaper
  exact lt_irrefl 0 hcheaper

end

/-- Coordinates that differ fill an interval. -/
theorem exists_fills_of_ne (hreal : ∀ i ∈ members, (item items i).IsReal)
    (hne : ∃ i ∈ members, ∃ j ∈ members, coordinate items axis i ≠ coordinate items axis j) :
    ∃ lo hi : ℝ, Fills items members axis lo hi ∧ lo < hi := by
  obtain ⟨i, hi, j, hj, hne⟩ := hne
  obtain ⟨lo, hi', hfills⟩ := exists_fills (List.ne_nil_of_mem hi) fun i hi =>
    Vec3.isReal_iff_component.1 (hreal i hi).centroid axis
  refine ⟨lo, hi', hfills, ?_⟩
  obtain ⟨c, hc, hloc, hchi⟩ := hfills.between i hi
  obtain ⟨d, hd, hlod, hdhi⟩ := hfills.between j hj
  rw [hc, hd, ne_eq, number_inj] at hne
  by_contra! hle
  exact hne (by linarith)

/-- The box around some items has inner points if one of their boxes has some. -/
theorem isEmpty_boundsOf {mine : List Nat} {i : Nat} (hi : i ∈ mine) (hreal : (item items i).IsReal)
    (hsolid : (item items i).bounds.isEmpty = false) : (boundsOf items mine).isEmpty = false := by
  rw [← Bool.not_eq_true, Box.isEmpty_iff] at hsolid ⊢
  rintro ⟨axis, hle⟩
  have hmem : (item items i).bounds ∈ mine.map fun i => (item items i).bounds :=
    List.mem_map.2 ⟨i, hi, rfl⟩
  let lower (b : Box (Exact z)) := b.min.component axis
  let upper (b : Box (Exact z)) := b.max.component axis
  have hmin : (boundsOf items mine).min.component axis ≤ (item items i).bounds.min.component axis :=
    (selects_min.isFirst_foldl_of_hom lower lower (by cases axis <;> rfl)
      (fun b c => by cases axis <;> rfl) _).first _ ⟨_, hmem, rfl⟩
      (Vec3.isReal_iff_component.1 hreal.bounds.min axis).isNaN
  have hmax : (item items i).bounds.max.component axis ≤ (boundsOf items mine).max.component axis :=
    (selects_max.isFirst_foldl_of_hom upper upper (by cases axis <;> rfl)
      (fun b c => by cases axis <;> rfl) _).first _ ⟨_, hmem, rfl⟩
      (Vec3.isReal_iff_component.1 hreal.bounds.max axis).isNaN
  exact hsolid ⟨axis, Scalar.le_trans hmax (Scalar.le_trans hle hmin)⟩

/-! ## A row of blocks -/

/-- A wall along the first axis. -/
noncomputable def wall (first last height : ℝ) : Box (Exact .plus) :=
  ⟨⟨number first, number last⟩, ⟨number (-1), number 1⟩, ⟨number 0, number height⟩⟩

/-- A block over a triangle on the floor. -/
noncomputable def block (x : ℕ) (height : ℝ) : Item (Exact .plus) where
  bounds := wall (x - 1) (x + 1) height
  centroid := ⟨number x, number 0, number 0⟩

/-- Two blocks at each end of a long row. -/
noncomputable def blocks (height : ℝ) : Array (Item (Exact .plus)) :=
  #[block 0 height, block 2 height, block 14 height, block 16 height]

theorem surrounding_wall (first last first' last' height : ℝ) :
    (wall first last height).surrounding (wall first' last' height) =
      wall (min first first') (max last last') height := by
  simp [wall, Box.surrounding, Interval.surrounding, min_number, max_number]

theorem facesArea_wall (first last : ℝ) :
    (wall first last 0).facesArea = number (4 * (last - first)) := by
  simp only [Box.facesArea, Box.diagonal, Box.min, Box.max, wall, Vec3.mk_sub, number_sub, ofNat_eq,
    number_mul, number_add]
  ring_nf

theorem isReal_blocks (height : ℝ) : ∀ i ∈ [0, 1, 2, 3], (item (blocks height) i).IsReal := by
  have hblock (x : ℕ) : (block x height).IsReal :=
    ⟨⟨⟨_, _, _, rfl⟩, ⟨_, _, _, rfl⟩⟩, ⟨_, _, _, rfl⟩⟩
  simpa using ⟨hblock 0, hblock 2, hblock 14, hblock 16⟩

theorem coordinate_blocks (height : ℝ) :
    coordinate (blocks height) .x 0 = number 0 ∧ coordinate (blocks height) .x 1 = number 2 ∧
      coordinate (blocks height) .x 2 = number 14 ∧
      coordinate (blocks height) .x 3 = number 16 := by
  simp [coordinate, item, blocks, block, Vec3.component]

theorem coordinate_blocks_ne (height : ℝ) : ∃ i ∈ [0, 1, 2, 3], ∃ j ∈ [0, 1, 2, 3],
    coordinate (blocks height) .x i ≠ coordinate (blocks height) .x j := by
  obtain ⟨hzero, hone, -, -⟩ := coordinate_blocks height
  refine ⟨0, by simp, 1, by simp, ?_⟩
  rw [hzero, hone, ne_eq, number_inj]
  exact two_ne_zero.symm

theorem spread_blocks (height : ℝ) :
    spread (blocks height) [0, 1, 2, 3] .x = ⟨number 0, number 16⟩ := by
  obtain ⟨hzero, hone, htwo, hthree⟩ := coordinate_blocks height
  have hmin : Scalar.min (Scalar.infinity : Exact .plus) (number 0) = number 0 := infinity_min nofun
  have hmax : Scalar.max (-Scalar.infinity : Exact .plus) (number 0) = number 0 :=
    negInfinity_max nofun
  simp only [spread, List.foldl_cons, List.foldl_nil, hzero, hone, htwo, hthree, Interval.extend,
    Interval.empty, hmin, hmax, min_number, max_number]
  norm_num

theorem fills_blocks (height : ℝ) : Fills (blocks height) [0, 1, 2, 3] .x 0 16 := by
  obtain ⟨hzero, hone, htwo, hthree⟩ := coordinate_blocks height
  refine ⟨spread_blocks height, ⟨0, by simp, hzero⟩, ⟨3, by simp, hthree⟩, ?_⟩
  simp only [List.forall_mem_cons]
  exact ⟨⟨0, hzero, by norm_num⟩, ⟨2, hone, by norm_num⟩, ⟨14, htwo, by norm_num⟩,
    ⟨16, hthree, by norm_num⟩, nofun⟩

theorem slabStart_blocks (height : ℝ) (s : Nat) :
    slabStart (blocks height) [0, 1, 2, 3] .x s = number s := by
  have hcount : (binCount : ℝ) = 16 := by norm_num [binCount]
  rw [(fills_blocks height).slabStart_eq, hcount]
  ring_nf

theorem areCoplanar_blocks : AreCoplanar (blocks 0) [0, 1, 2, 3] := by
  refine ⟨.z, 0, ?_⟩
  simp only [List.forall_mem_cons]
  exact ⟨⟨rfl, rfl⟩, ⟨rfl, rfl⟩, ⟨rfl, rfl⟩, ⟨rfl, rfl⟩, nofun⟩

theorem hasPoint_blocks {height : ℝ} (hheight : 0 ≤ height) :
    ∀ i ∈ [0, 1, 2, 3], ∃ p, (item (blocks height) i).bounds.HasPoint p := by
  have hblock (x : ℕ) : ∃ p, (block x height).bounds.HasPoint p := by
    refine ⟨⟨number x, number 0, number 0⟩, Box.hasPoint_iff_axis.2 fun axis => ?_⟩
    cases axis <;> simp only [block, wall, Box.min, Box.max, Vec3.component, number_le] <;>
      constructor <;> linarith
  simpa using ⟨hblock 0, hblock 2, hblock 14, hblock 16⟩

theorem isEmpty_blocks {height : ℝ} (hheight : 0 < height) :
    ∀ i ∈ [0, 1, 2, 3], (item (blocks height) i).bounds.isEmpty = false := by
  have hblock (x : ℕ) : (block x height).bounds.isEmpty = false := by
    rw [← Bool.not_eq_true, Box.isEmpty_iff]
    rintro ⟨axis, hle⟩
    cases axis <;> simp only [block, wall, Box.min, Box.max, Vec3.component, number_le] at hle <;>
      linarith
  simpa using ⟨hblock 0, hblock 2, hblock 14, hblock 16⟩

theorem boundsOf_blocks (height : ℝ) :
    (boundsOf (blocks height) [0] = wall (-1) 1 height ∧
        boundsOf (blocks height) [1, 2, 3] = wall 1 17 height) ∧
      boundsOf (blocks height) [0, 1] = wall (-1) 3 height ∧
        boundsOf (blocks height) [2, 3] = wall 13 17 height := by
  have hitems : item (blocks height) 0 = block 0 height ∧ item (blocks height) 1 = block 2 height ∧
      item (blocks height) 2 = block 14 height ∧ item (blocks height) 3 = block 16 height :=
    ⟨rfl, rfl, rfl, rfl⟩
  have hinterval (lo hi : ℝ) : (Interval.empty : Interval (Exact .plus)).surrounding
      ⟨number lo, number hi⟩ = ⟨number lo, number hi⟩ :=
    Interval.ext (infinity_min nofun) (negInfinity_max nofun)
  have hempty (first last : ℝ) :
      Box.empty.surrounding (wall first last height) = wall first last height :=
    Box.ext (hinterval ..) (hinterval ..) (hinterval ..)
  simp only [boundsOf, Box.union, List.map_cons, List.map_nil, List.foldl_cons, List.foldl_nil,
    hitems, block, hempty, surrounding_wall]
  norm_num

theorem sides_blocks (height : ℝ) :
    (inFront (blocks height) [0, 1, 2, 3] .x 1 = [0] ∧
        behind (blocks height) [0, 1, 2, 3] .x 1 = [1, 2, 3]) ∧
      inFront (blocks height) [0, 1, 2, 3] .x 3 = [0, 1] ∧
        behind (blocks height) [0, 1, 2, 3] .x 3 = [2, 3] := by
  obtain ⟨hzero, hone, htwo, hthree⟩ := coordinate_blocks height
  rw [coordinate] at hzero hone htwo hthree
  simp only [inFront, behind, slabStart_blocks, List.filter_cons, List.filter_nil, isBelow, hzero,
    hone, htwo, hthree, number_lt]
  norm_num

theorem planeCost_blocks :
    planeCost Box.facesArea (blocks 0) [0, 1, 2, 3] .x 1 = number 200 ∧
      planeCost Box.facesArea (blocks 0) [0, 1, 2, 3] .x 3 = number 64 := by
  obtain ⟨⟨hfront, hback⟩, hfront', hback'⟩ := sides_blocks 0
  obtain ⟨⟨hzero, hrest⟩, hleft, hright⟩ := boundsOf_blocks 0
  constructor
  · rw [planeCost_eq (by rw [hfront, hzero, facesArea_wall]) (by rw [hback, hrest, facesArea_wall]),
      hfront, hback]
    norm_num
  · rw [planeCost_eq (by rw [hfront', hleft, facesArea_wall])
      (by rw [hback', hright, facesArea_wall]), hfront', hback']
    norm_num

/-! ## The heuristic -/

/-- The heuristic chooses the first of its planes at which the number of items times the surface
area of the box around them, added over both sides, is least; boxes without inner points count as
zero.
If the boxes at that plane are not of this kind, no plane is cheaper by the area of faces either.
Among items that lie in one plane parallel to two axes, it chooses the first plane. -/
theorem sahSplit_minimizes (hreal : ∀ i ∈ members, (item items i).IsReal)
    (hne : ∃ i ∈ members, ∃ j ∈ members, coordinate items axis i ≠ coordinate items axis j) :
    ∃ s, sahSplit items members axis = some (slabStart items members axis s) ∧
      IsFirstCheapest (planeCost Box.surfaceArea items members axis) s ∧
      ((∀ i ∈ members, ∃ p, (item items i).bounds.HasPoint p) →
        (boundsOf items (inFront items members axis s)).isEmpty = false →
        (boundsOf items (behind items members axis s)).isEmpty = false →
        IsFirstCheapest (planeCost Box.facesArea items members axis) s) ∧
      (AreCoplanar items members → s = 1) := by
  obtain ⟨lo, hi, hfills, hlt⟩ := exists_fills_of_ne hreal hne
  obtain ⟨s, hs, hfirst⟩ := hfills.exists_sahSplit hlt hreal
  refine ⟨s, hs, hfirst, fun hpoint hfront hback => ?_, fun hflat =>
    hfills.eq_one_of_coplanar hlt hflat hfirst⟩
  have hle {t : Nat} (hpos : 0 < t) (ht : t < binCount) :=
    hfills.planeCost_le hlt hreal hpoint hpos ht
  exact hfirst.of_le (fun t hpos ht => (hle hpos ht).1)
    ((hle hfirst.pos hfirst.lt).2 hfront hback)

theorem sahSplit_minimizes_blocks :
    (∃ s : Nat, sahSplit (blocks 1) [0, 1, 2, 3] .x = some (number s) ∧
        IsFirstCheapest (planeCost Box.facesArea (blocks 1) [0, 1, 2, 3] .x) s) ∧
      sahSplit (blocks 0) [0, 1, 2, 3] .x = some (number 1) := by
  constructor
  · obtain ⟨s, hs, hfirst, hsolid, -⟩ :=
      sahSplit_minimizes (isReal_blocks 1) (coordinate_blocks_ne 1)
    have hlt : (0 : ℝ) < 16 := by norm_num
    have hside {mine : List Nat} (hne : mine ≠ []) (hsub : ∀ i ∈ mine, i ∈ [0, 1, 2, 3]) :
        (boundsOf (blocks 1) mine).isEmpty = false := by
      obtain ⟨i, hi⟩ := List.exists_mem_of_ne_nil mine hne
      exact isEmpty_boundsOf hi (isReal_blocks 1 i (hsub i hi))
        (isEmpty_blocks one_pos i (hsub i hi))
    rw [slabStart_blocks] at hs
    exact ⟨s, hs, hsolid (hasPoint_blocks zero_le_one)
      (hside ((fills_blocks 1).inFront_ne_nil hlt hfirst.pos hfirst.lt)
        fun i hi => (List.mem_filter.1 hi).1)
      (hside ((fills_blocks 1).behind_ne_nil hlt hfirst.lt) fun i hi => (List.mem_filter.1 hi).1)⟩
  · obtain ⟨s, hs, -, -, hflat⟩ := sahSplit_minimizes (isReal_blocks 0) (coordinate_blocks_ne 0)
    rw [hs, slabStart_blocks, hflat areCoplanar_blocks, Nat.cast_one]

/-- Among the blocks without height, the plane behind the first one is kept, although the plane in
the gap of the row costs less than a third of it by the area of faces. -/
theorem sahSplit_keeps_first_blocks :
    (∀ i ∈ [0, 1, 2, 3], (item (blocks 0) i).IsReal) ∧
      (∃ i ∈ [0, 1, 2, 3], ∃ j ∈ [0, 1, 2, 3],
        coordinate (blocks 0) .x i ≠ coordinate (blocks 0) .x j) ∧
      sahSplit (blocks 0) [0, 1, 2, 3] .x = some (number 1) ∧
      ¬∃ s, sahSplit (blocks 0) [0, 1, 2, 3] .x = some (slabStart (blocks 0) [0, 1, 2, 3] .x s) ∧
        IsFirstCheapest (planeCost Box.facesArea (blocks 0) [0, 1, 2, 3] .x) s := by
  have hlt : (0 : ℝ) < 16 := by norm_num
  obtain ⟨s, hs, hfirst⟩ := (fills_blocks 0).exists_sahSplit hlt (isReal_blocks 0)
  obtain rfl := (fills_blocks 0).eq_one_of_coplanar hlt areCoplanar_blocks hfirst
  rw [slabStart_blocks, Nat.cast_one] at hs
  refine ⟨isReal_blocks 0, coordinate_blocks_ne 0, hs, fun ⟨t, ht, hcheapest⟩ => ?_⟩
  rw [hs, slabStart_blocks, Option.some_inj, number_inj] at ht
  obtain rfl : t = 1 := by exact_mod_cast ht.symm
  have hle := hcheapest.le 3 (by decide) (by decide)
  rw [planeCost_blocks.1, planeCost_blocks.2, number_le] at hle
  norm_num at hle

end Hierarchy

end Radiance
