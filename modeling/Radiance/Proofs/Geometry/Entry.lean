import Radiance.Proofs.Geometry.RealVector

/-!
# Points of boxes, and where rays enter them

A box that surrounds others has all their points.  A ray that has a point in a box enters the box no
later than there; only the test for the exit, and rays that run along a face of the box, can make
the box go unseen.

## Main definitions

* `Box.HasPoint`: a point lies in a box on all three axes.

## Main statements

* `Box.HasPoint.union`, `Box.hasPoint_hull`: unions and hulls have the points that they are made of.
* `Box.rayEntry_le_or_eq_infinity`: a box is entered in front of its points, or not at all.
* `Box.rayEntry_le`: it is entered if the ray moves along all axes and has not left it before
  `Scalar.epsilon`.
* `Box.rayEntry_le_of_seen`: a box that is entered makes all larger ones be entered.
-/

namespace Radiance

variable {α : Type} [Scalar α]

theorem Interval.contains_iff {i : Interval α} {x : α} :
    i.contains x = true ↔ i.min ≤ x ∧ x ≤ i.max := by
  simp [contains]

/-- A point lies in a box on all three axes. -/
structure Box.HasPoint (b : Box α) (p : Vec3 α) : Prop where
  x : b.x.contains p.x = true
  y : b.y.contains p.y = true
  z : b.z.contains p.z = true

theorem Box.hasPoint_iff {b : Box α} {p : Vec3 α} :
    b.HasPoint p ↔
      b.x.contains p.x = true ∧ b.y.contains p.y = true ∧ b.z.contains p.z = true :=
  ⟨fun h => ⟨h.x, h.y, h.z⟩, fun h => ⟨h.1, h.2.1, h.2.2⟩⟩

theorem Box.contains_iff {b c : Box α} : b.contains c = true ↔
    (b.x.min ≤ c.x.min ∧ c.x.max ≤ b.x.max) ∧ (b.y.min ≤ c.y.min ∧ c.y.max ≤ b.y.max) ∧
      b.z.min ≤ c.z.min ∧ c.z.max ≤ b.z.max := by
  simp only [contains, Bool.and_eq_true, decide_eq_true_eq]
  tauto

theorem Box.hasPoint_iff_axis {b : Box α} {p : Vec3 α} : b.HasPoint p ↔
    ∀ axis, b.min.component axis ≤ p.component axis ∧
      p.component axis ≤ b.max.component axis := by
  simp only [hasPoint_iff, Interval.contains_iff]
  refine ⟨fun h axis => ?_, fun h => ⟨h .x, h .y, h .z⟩⟩
  cases axis with
  | x => exact h.1
  | y => exact h.2.1
  | z => exact h.2.2

theorem Box.contains_iff_axis {b c : Box α} : b.contains c = true ↔
    ∀ axis, b.min.component axis ≤ c.min.component axis ∧
      c.max.component axis ≤ b.max.component axis := by
  refine contains_iff.trans ⟨fun h axis => ?_, fun h => ⟨h .x, h .y, h .z⟩⟩
  cases axis with
  | x => exact h.1
  | y => exact h.2.1
  | z => exact h.2.2

section Ordered

variable [Scalar.IsOrdered α]

namespace Interval

variable {i j : Interval α} {x y : α}

theorem contains_surrounding_left (h : i.contains x = true) :
    (i.surrounding j).contains x = true := by
  rw [contains_iff] at h ⊢
  exact ⟨Scalar.min_le_of_left h.1, Scalar.le_max_of_left h.2⟩

theorem contains_surrounding_right (h : j.contains x = true) :
    (i.surrounding j).contains x = true := by
  rw [contains_iff] at h ⊢
  exact ⟨Scalar.min_le_of_right h.1, Scalar.le_max_of_right h.2⟩

theorem contains_extend (h : i.contains x = true) : (i.extend y).contains x = true := by
  rw [contains_iff] at h ⊢
  exact ⟨Scalar.min_le_of_left h.1, Scalar.le_max_of_left h.2⟩

theorem contains_extend_self (h : Scalar.isNaN x = false) : (i.extend x).contains x = true := by
  rw [contains_iff]
  exact ⟨Scalar.min_le_of_right (Scalar.le_refl h), Scalar.le_max_of_right (Scalar.le_refl h)⟩

end Interval

namespace Box

variable {b c : Box α} {p q : Vec3 α}

theorem HasPoint.of_contains (hp : c.HasPoint p) (hbc : b.contains c = true) : b.HasPoint p := by
  obtain ⟨⟨hxl, hxu⟩, ⟨hyl, hyu⟩, hzl, hzu⟩ := contains_iff.1 hbc
  simp only [hasPoint_iff, Interval.contains_iff] at hp ⊢
  obtain ⟨⟨hx, hx'⟩, ⟨hy, hy'⟩, hz, hz'⟩ := hp
  exact ⟨⟨Scalar.le_trans hxl hx, Scalar.le_trans hx' hxu⟩,
    ⟨Scalar.le_trans hyl hy, Scalar.le_trans hy' hyu⟩,
    ⟨Scalar.le_trans hzl hz, Scalar.le_trans hz' hzu⟩⟩

theorem HasPoint.surrounding_left (h : b.HasPoint p) : (b.surrounding c).HasPoint p :=
  ⟨Interval.contains_surrounding_left h.x, Interval.contains_surrounding_left h.y,
    Interval.contains_surrounding_left h.z⟩

theorem HasPoint.surrounding_right (h : c.HasPoint p) : (b.surrounding c).HasPoint p :=
  ⟨Interval.contains_surrounding_right h.x, Interval.contains_surrounding_right h.y,
    Interval.contains_surrounding_right h.z⟩

theorem HasPoint.extendPoint (h : b.HasPoint p) : (b.extendPoint q).HasPoint p :=
  ⟨Interval.contains_extend h.x, Interval.contains_extend h.y, Interval.contains_extend h.z⟩

theorem HasPoint.foldl_surrounding {boxes : List (Box α)} (h : b.HasPoint p) :
    (boxes.foldl surrounding b).HasPoint p := by
  induction boxes generalizing b with
  | nil => exact h
  | cons c rest ih => exact ih h.surrounding_left

theorem HasPoint.union {boxes : List (Box α)} (hb : b ∈ boxes) (h : b.HasPoint p) :
    (union boxes).HasPoint p := by
  obtain ⟨before, after, rfl⟩ := List.append_of_mem hb
  rw [Box.union, List.foldl_append, List.foldl_cons]
  exact h.surrounding_right.foldl_surrounding

theorem HasPoint.foldl_extendPoint {points : List (Vec3 α)} (h : b.HasPoint p) :
    (points.foldl Box.extendPoint b).HasPoint p := by
  induction points generalizing b with
  | nil => exact h
  | cons q rest ih => exact ih h.extendPoint

theorem hasPoint_hull {points : List (Vec3 α)} (hp : p ∈ points) (hx : Scalar.isNaN p.x = false)
    (hy : Scalar.isNaN p.y = false) (hz : Scalar.isNaN p.z = false) : (hull points).HasPoint p := by
  obtain ⟨before, after, rfl⟩ := List.append_of_mem hp
  rw [hull, List.foldl_append, List.foldl_cons]
  exact HasPoint.foldl_extendPoint ⟨Interval.contains_extend_self hx,
    Interval.contains_extend_self hy, Interval.contains_extend_self hz⟩

omit [Scalar.IsOrdered α] in
/-- A hull reaches no farther along the second axis than its points. -/
theorem max_hull_le {points : List (Vec3 α)} {c : α} (hc : -Scalar.infinity ≤ c)
    (hpoints : ∀ p ∈ points, p.y ≤ c) : (hull points).y.max ≤ c := by
  suffices hloop : ∀ b : Box α, b.y.max ≤ c → (points.foldl Box.extendPoint b).y.max ≤ c from
    hloop .empty hc
  induction points with
  | nil => exact fun b hb => hb
  | cons p rest ih =>
    intro b hb
    exact ih (fun q hq => hpoints q (List.mem_cons_of_mem p hq)) _
      (Scalar.max_le hb (hpoints p List.mem_cons_self))

theorem hasPoint_ofPoints {a b : Vec3 α} (hx : a.x ≤ p.x ∧ p.x ≤ b.x) (hy : a.y ≤ p.y ∧ p.y ≤ b.y)
    (hz : a.z ≤ p.z ∧ p.z ≤ b.z) : (ofPoints a b).HasPoint p := by
  constructor <;> rw [Interval.contains_iff]
  · exact ⟨Scalar.min_le_of_left hx.1, Scalar.le_max_of_right hx.2⟩
  · exact ⟨Scalar.min_le_of_left hy.1, Scalar.le_max_of_right hy.2⟩
  · exact ⟨Scalar.min_le_of_left hz.1, Scalar.le_max_of_right hz.2⟩

end Box

end Ordered

/-! ## Slabs

A box is the intersection of three slabs, one for each axis. -/

/-- Where a line enters the slab between two ends, given its origin and direction on the axis. -/
def Interval.slabNear (i : Interval α) (o d : α) : α :=
  Scalar.min ((i.min - o) * (1 / d)) ((i.max - o) * (1 / d))

/-- Where the line leaves the slab. -/
def Interval.slabFar (i : Interval α) (o d : α) : α :=
  Scalar.max ((i.min - o) * (1 / d)) ((i.max - o) * (1 / d))

/-- The latest of the three entries. -/
def Box.near (b : Box α) (ray : Ray α) : α :=
  Scalar.max (b.x.slabNear ray.origin.x ray.direction.x)
    (Scalar.max (b.y.slabNear ray.origin.y ray.direction.y)
      (b.z.slabNear ray.origin.z ray.direction.z))

/-- The earliest of the three exits. -/
def Box.far (b : Box α) (ray : Ray α) : α :=
  Scalar.min (b.x.slabFar ray.origin.x ray.direction.x)
    (Scalar.min (b.y.slabFar ray.origin.y ray.direction.y)
      (b.z.slabFar ray.origin.z ray.direction.z))

theorem Box.rayEntry_recip (b : Box α) (ray : Ray α) :
    b.rayEntry ray ray.direction.recip =
      if b.far ray < b.near ray ∨ b.far ray < Scalar.epsilon then Scalar.infinity
      else b.near ray := rfl

variable {z : ZeroSign}

open Exact

namespace Interval

variable {i : Interval (Exact z)} {o d h : ℝ}

theorem contains_of_between {a b x : ℝ} (ha : i.contains (number a) = true)
    (hb : i.contains (number b) = true) (hax : a ≤ x) (hxb : x ≤ b) :
    i.contains (number x) = true := by
  rw [contains_iff] at *
  exact ⟨Scalar.le_trans ha.1 (by simpa using hax), Scalar.le_trans (by simpa using hxb) hb.2⟩

/-- A line that moves along the axis is inside the slab between its two ends. -/
theorem slab_of_ne_zero (hd : d ≠ 0) (hi : i.contains (number (o + h * d)) = true) :
    i.slabNear (number o) (number d) ≤ number h ∧ number h ≤ i.slabFar (number o) (number d) := by
  rw [contains_iff] at hi
  obtain hneg | hpos := lt_or_gt_of_ne hd
  · exact ⟨Scalar.min_le_of_right ((sub_mul_recip_of_neg hneg).1.2 hi.2),
      Scalar.le_max_of_left ((sub_mul_recip_of_neg hneg).2.2 hi.1)⟩
  · exact ⟨Scalar.min_le_of_left ((sub_mul_recip_of_pos hpos).1.2 hi.1),
      Scalar.le_max_of_right ((sub_mul_recip_of_pos hpos).2.2 hi.2)⟩

/-- Such a line is inside only there, if the slab has points at all. -/
theorem contains_of_slab (hd : d ≠ 0) {x : ℝ} (hi : i.contains (number x) = true)
    (hnear : i.slabNear (number o) (number d) ≤ number h)
    (hfar : number h ≤ i.slabFar (number o) (number d)) :
    i.contains (number (o + h * d)) = true := by
  rw [contains_iff] at hi ⊢
  have hends := Scalar.le_trans hi.1 hi.2
  obtain hneg | hpos := lt_or_gt_of_ne hd
  · have hcomes (a : Exact z) := sub_mul_recip_of_neg (a := a) (o := o) (h := h) hneg
    constructor
    · obtain hfar | hfar := Scalar.le_or_le_of_le_max hfar
      · exact (hcomes _).2.1 hfar
      · exact Scalar.le_trans hends ((hcomes _).2.1 hfar)
    · obtain hnear | hnear := Scalar.le_or_le_of_min_le hnear
      · exact Scalar.le_trans ((hcomes _).1.1 hnear) hends
      · exact (hcomes _).1.1 hnear
  · have hcomes (a : Exact z) := sub_mul_recip_of_pos (a := a) (o := o) (h := h) hpos
    constructor
    · obtain hnear | hnear := Scalar.le_or_le_of_min_le hnear
      · exact (hcomes _).1.1 hnear
      · exact Scalar.le_trans hends ((hcomes _).1.1 hnear)
    · obtain hfar | hfar := Scalar.le_or_le_of_le_max hfar
      · exact Scalar.le_trans ((hcomes _).2.1 hfar) hends
      · exact (hcomes _).2.1 hfar

/-- A line that does not move along the axis and runs strictly between the ends is inside the slab
from one infinity to the other. -/
theorem slab_of_between (hlo : i.min < number o) (hhi : number o < i.max) (h : ℝ) :
    i.slabNear (number o) (number 0) ≤ number h ∧
      number h ≤ i.slabFar (number o) (number 0) := by
  have hbelow := Scalar.le_of_lt (negInfinity_lt (z := z) h)
  have habove := Scalar.le_of_lt (lt_infinity (z := z) h)
  unfold slabNear slabFar
  obtain hr | hr := recip_zero (z := z)
  · rw [hr, (sub_mul_infinity_of_lt hlo).1, (sub_mul_infinity_of_gt hhi).1]
    exact ⟨Scalar.min_le_of_left hbelow, Scalar.le_max_of_right habove⟩
  · rw [hr, (sub_mul_infinity_of_lt hlo).2, (sub_mul_infinity_of_gt hhi).2]
    exact ⟨Scalar.min_le_of_right hbelow, Scalar.le_max_of_left habove⟩

/-- Along an end of the slab zero meets infinity, and the line is inside at one infinity only. -/
theorem slab_of_grazed
    (hi : i.min < number o ∧ i.max = number o ∨ i.min = number o ∧ number o < i.max) :
    i.slabNear (number o) (number 0) = infinity ∨
      i.slabFar (number o) (number 0) = negInfinity := by
  unfold slabNear slabFar
  obtain ⟨hlo, hhi⟩ | ⟨hlo, hhi⟩ := hi
  · obtain hr | hr := recip_zero (z := z) <;> rw [hr] <;>
      simp [hhi, sub_mul_infinity_of_lt hlo, sub_self_mul_infinity, -number_sub]
  · obtain hr | hr := recip_zero (z := z) <;> rw [hr] <;>
      simp [hlo, sub_mul_infinity_of_gt hhi, sub_self_mul_infinity, -number_sub]

/-- In a flat slab the line has no distances at all. -/
theorem slab_of_flat (hlo : i.min = number o) (hhi : i.max = number o) :
    i.slabNear (number o) (number 0) = undefined ∧ i.slabFar (number o) (number 0) = undefined := by
  unfold slabNear slabFar
  obtain hr | hr := recip_zero (z := z) <;> rw [hr] <;>
    simp [hlo, hhi, sub_self_mul_infinity, -number_sub]

/-- A line that does not move along the axis stays inside the slab, unless it runs along one of the
two ends. -/
theorem slab_of_eq_zero (hi : i.contains (number o) = true) :
    (∀ h : ℝ, i.slabNear (number o) (number 0) ≤ number h ∧
        number h ≤ i.slabFar (number o) (number 0)) ∨
      (i.slabNear (number o) (number 0) = undefined ∧
        i.slabFar (number o) (number 0) = undefined) ∨
      i.slabNear (number o) (number 0) = infinity ∨
      i.slabFar (number o) (number 0) = negInfinity := by
  rw [contains_iff, le_def, le_def] at hi
  obtain ⟨hlo | ⟨hlo, -⟩, hhi | ⟨hhi, -⟩⟩ := hi
  · exact .inl (slab_of_between hlo hhi)
  · exact .inr (.inr (slab_of_grazed (.inl ⟨hlo, hhi.symm⟩)))
  · exact .inr (.inr (slab_of_grazed (.inr ⟨hlo, hhi⟩)))
  · exact .inr (.inl (slab_of_flat hlo hhi.symm))

theorem slab_cases (hi : i.contains (number (o + h * d)) = true) :
    (i.slabNear (number o) (number d) ≤ number h ∧ number h ≤ i.slabFar (number o) (number d)) ∨
      (d = 0 ∧ i.slabNear (number o) (number d) = undefined) ∨
      i.slabNear (number o) (number d) = infinity ∨
      i.slabFar (number o) (number d) = negInfinity := by
  by_cases hd : d = 0
  · subst hd
    rw [mul_zero, add_zero] at hi
    obtain hin | hend := slab_of_eq_zero hi
    · exact .inl (hin h)
    · exact .inr (hend.imp_left fun hend => ⟨rfl, hend.1⟩)
  · exact .inl (slab_of_ne_zero hd hi)

end Interval

namespace Box

variable {b : Box (Exact z)} {ray : Ray (Exact z)} {h : ℝ}

theorem hasPoint_hull_ofReal {points : List (Vec3 (Exact z))} {p : Vec3 ℝ}
    (hp : .ofReal p ∈ points) : (hull points).HasPoint (.ofReal p) :=
  hasPoint_hull hp (by simp [Vec3.ofReal]) (by simp [Vec3.ofReal]) (by simp [Vec3.ofReal])

theorem max_undefined_or_le {p q c : Exact z} (hp : p = undefined ∨ p ≤ c)
    (hq : q = undefined ∨ q ≤ c) : Scalar.max p q = undefined ∨ Scalar.max p q ≤ c := by
  obtain h | h := Scalar.max_eq_or p q <;> rwa [h]

theorem eq_undefined_of_max {p q : Exact z} (h : Scalar.max p q = undefined) :
    p = undefined ∧ q = undefined := by
  obtain hmax | hmax := Scalar.max_eq_or p q <;> rw [hmax] at h <;> subst h <;> simp_all

/-- A ray that has a point in a box enters the box no later than there, or does not see it. -/
theorem rayEntry_le_or_eq_infinity (hray : ray.IsProper)
    (hp : b.HasPoint (ray.pointAt (number h))) :
    b.rayEntry ray ray.direction.recip = infinity ∨
      b.rayEntry ray ray.direction.recip ≤ number h := by
  obtain ⟨⟨⟨ox, oy, oz, ho⟩, ⟨dx, dy, dz, hd⟩⟩, hne⟩ := hray
  obtain ⟨hx, hy, hz⟩ := hp
  rw [rayEntry_recip]
  simp only [near, far, Ray.pointAt, ho, hd, Vec3.smul_mk, Vec3.mk_add, number_mul, number_add]
    at hx hy hz ⊢
  replace hx := Interval.slab_cases hx
  replace hy := Interval.slab_cases hy
  replace hz := Interval.slab_cases hz
  generalize b.x.slabNear (number ox) (number dx) = nx at *
  generalize b.y.slabNear (number oy) (number dy) = ny at *
  generalize b.z.slabNear (number oz) (number dz) = nz at *
  generalize b.x.slabFar (number ox) (number dx) = fx at *
  generalize b.y.slabFar (number oy) (number dy) = fy at *
  generalize b.z.slabFar (number oz) (number dz) = fz at *
  by_cases hnear : nx = infinity ∨ ny = infinity ∨ nz = infinity
  · left
    have hlate : Scalar.max nx (Scalar.max ny nz) = infinity := by
      obtain rfl | rfl | rfl := hnear <;> simp
    rw [hlate]
    exact ite_self _
  by_cases hfar : fx = negInfinity ∨ fy = negInfinity ∨ fz = negInfinity
  · left
    have hleft : Scalar.min fx (Scalar.min fy fz) = negInfinity := by
      obtain rfl | rfl | rfl := hfar <;> simp
    rw [hleft]
    exact if_pos (.inr (negInfinity_lt _))
  split
  · exact .inl rfl
  right
  have hx : nx = undefined ∨ nx ≤ number h := by grind
  have hy : ny = undefined ∨ ny ≤ number h := by grind
  have hz : nz = undefined ∨ nz ≤ number h := by grind
  obtain hundefined | hle := max_undefined_or_le hx (max_undefined_or_le hy hz)
  · -- All entries are undefined only if the ray does not move at all.
    obtain ⟨rfl, hrest⟩ := eq_undefined_of_max hundefined
    obtain ⟨rfl, rfl⟩ := eq_undefined_of_max hrest
    exact absurd hd (by simp_all [Vec3.zero, Vec3.splat, le_def, lt_def, lt])
  · exact hle

/-- A ray that moves along all axes is inside a box between entry and exit. -/
theorem near_le_le_far (hray : ray.IsOblique) (hp : b.HasPoint (ray.pointAt (number h))) :
    b.near ray ≤ number h ∧ number h ≤ b.far ray := by
  obtain ⟨⟨⟨ox, oy, oz, ho⟩, ⟨dx, dy, dz, hd⟩⟩, hx, hy, hz⟩ := hray
  obtain ⟨hpx, hpy, hpz⟩ := hp
  simp only [hd, zero_eq, ne_eq, number_inj] at hx hy hz
  simp only [near, far, Ray.pointAt, ho, hd, Vec3.smul_mk, Vec3.mk_add, number_mul, number_add]
    at hpx hpy hpz ⊢
  replace hpx := Interval.slab_of_ne_zero hx hpx
  replace hpy := Interval.slab_of_ne_zero hy hpy
  replace hpz := Interval.slab_of_ne_zero hz hpz
  exact ⟨Scalar.max_le hpx.1 (Scalar.max_le hpy.1 hpz.1),
    Scalar.le_min hpx.2 (Scalar.le_min hpy.2 hpz.2)⟩

/-- Such a ray is inside only there, if it is inside at all. -/
theorem hasPoint_of_near_le_far {h' : ℝ} (hray : ray.IsOblique)
    (hp : b.HasPoint (ray.pointAt (number h))) (hnear : b.near ray ≤ number h')
    (hfar : number h' ≤ b.far ray) : b.HasPoint (ray.pointAt (number h')) := by
  obtain ⟨⟨⟨ox, oy, oz, ho⟩, ⟨dx, dy, dz, hd⟩⟩, hx, hy, hz⟩ := hray
  obtain ⟨hpx, hpy, hpz⟩ := hp
  simp only [hd, zero_eq, ne_eq, number_inj] at hx hy hz
  simp only [near, far, Ray.pointAt, ho, hd, Vec3.smul_mk, Vec3.mk_add, number_mul, number_add]
    at hpx hpy hpz hnear hfar ⊢
  have hinx := Interval.slab_of_ne_zero hx hpx
  have hiny := Interval.slab_of_ne_zero hy hpy
  have hinz := Interval.slab_of_ne_zero hz hpz
  constructor
  · refine Interval.contains_of_slab hx hpx (Scalar.le_trans ?_ hnear) (Scalar.le_trans hfar ?_)
    · exact Scalar.le_max_of_left (Scalar.le_self_of_le hinx.1)
    · exact Scalar.min_le_of_left (Scalar.le_self_of_ge hinx.2)
  · refine Interval.contains_of_slab hy hpy (Scalar.le_trans ?_ hnear) (Scalar.le_trans hfar ?_)
    · exact Scalar.le_max_of_right (Scalar.le_max_of_left (Scalar.le_self_of_le hiny.1))
    · exact Scalar.min_le_of_right (Scalar.min_le_of_left (Scalar.le_self_of_ge hiny.2))
  · refine Interval.contains_of_slab hz hpz (Scalar.le_trans ?_ hnear) (Scalar.le_trans hfar ?_)
    · exact Scalar.le_max_of_right (Scalar.le_max_of_right (Scalar.le_self_of_le hinz.1))
    · exact Scalar.min_le_of_right (Scalar.min_le_of_right (Scalar.le_self_of_ge hinz.2))

/-- Such a ray sees every box that it has a point in, unless it leaves the box before
`Scalar.epsilon`. -/
theorem rayEntry_le {h' : ℝ} (hray : ray.IsOblique) (hp : b.HasPoint (ray.pointAt (number h)))
    (hp' : b.HasPoint (ray.pointAt (number h'))) (hε : Scalar.epsilon ≤ (number h' : Exact z)) :
    b.rayEntry ray ray.direction.recip ≤ number h := by
  obtain ⟨hnear, hfar⟩ := near_le_le_far hray hp
  have hfar' := (near_le_le_far hray hp').2
  rw [rayEntry_recip, if_neg]
  · exact hnear
  · rintro (hlt | hlt)
    · exact Scalar.not_lt_of_le (Scalar.le_trans hnear hfar) hlt
    · exact Scalar.not_lt_of_le (Scalar.le_trans hε hfar') hlt

theorem isNaN_rayEntry (hray : ray.IsOblique) (hp : b.HasPoint (ray.pointAt (number h))) :
    Scalar.isNaN (b.rayEntry ray ray.direction.recip) = false := by
  rw [rayEntry_recip]
  split
  · simp [Scalar.infinity]
  · exact (Scalar.IsOrdered.le_iff.1 (near_le_le_far hray hp).1).1

/-- A ray that sees a box sees all larger ones, and enters them in front of its points in the
first. -/
theorem rayEntry_le_of_seen {c : Box (Exact z)} (hray : ray.IsOblique)
    (hp : b.HasPoint (ray.pointAt (number h)))
    (hseen : b.rayEntry ray ray.direction.recip < Scalar.infinity)
    (hbc : ∀ p, b.HasPoint p → c.HasPoint p) :
    c.rayEntry ray ray.direction.recip ≤ number h := by
  obtain ⟨hnear, hfar⟩ := near_le_le_far hray hp
  have hleaves : Scalar.epsilon ≤ b.far ray := by
    refine Scalar.le_of_not_lt (by simp) (Scalar.IsOrdered.le_iff.1 hfar).2.1 fun hlt => ?_
    rw [rayEntry_recip, if_pos (.inr hlt)] at hseen
    exact Scalar.lt_irrefl _ hseen
  -- The ray is in the smaller box at the later of its point there and `Scalar.epsilon`.
  obtain hle | hlt := le_or_gt 3e-4 h
  · exact rayEntry_le hray (hbc _ hp) (hbc _ hp) (by simpa using hle)
  · have hin := hasPoint_of_near_le_far hray hp
      (Scalar.le_trans hnear (by simpa using hlt.le)) hleaves
    exact rayEntry_le hray (hbc _ hp) (hbc _ hin) (by simp)

end Box

end Radiance
