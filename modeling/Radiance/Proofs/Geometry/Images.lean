import Radiance.Proofs.Geometry.Affine
import Radiance.Proofs.Geometry.Slabs
import Radiance.Proofs.Scalar.Extremes

/-!
# Images of boxes

A transform maps a box to a box around the images of its eight corners.  In exact arithmetic a
coordinate of an image under an affine map is a linear form of the point, and a linear form is least
and greatest over a box at corners, so the images of all other points lie in the new box too.  The
map need not be invertible.

## Main definitions

* `Box.ofEnds`: a box with real ends.

## Main statements

* `Transform.hasPoint_applyBox`: the image of a box has the images of its points.
* `Transform.applyBox_of_reversed`: a box with ends out of order has no image.
* `Transform.applyBox_encloses`: both, and that no smaller box would do.
-/

namespace Radiance

open Exact

variable {z : ZeroSign}

/-! ## Ends -/

namespace Interval

theorem isUnbounded_eq_false_iff {i : Interval (Exact z)} :
    i.isUnbounded = false ↔ i.min ≠ negInfinity ∧ i.max ≠ infinity := by
  have hmin : (i.min == -Scalar.infinity) = true ↔ i.min = negInfinity ∧ i.min ≠ undefined :=
    beq_iff _ _
  have hmax : (i.max == Scalar.infinity) = true ↔ i.max = infinity ∧ i.max ≠ undefined :=
    beq_iff _ _
  rw [isUnbounded, Bool.or_eq_false_iff, ← Bool.not_eq_true, ← Bool.not_eq_true, hmin, hmax]
  grind

/-- An interval around a number that does not reach to infinity has real ends. -/
theorem isBounded_of_contains {i : Interval (Exact z)} {x : ℝ} (hbounded : i.isUnbounded = false)
    (hx : i.contains (number x) = true) : i.IsBounded := by
  obtain ⟨lo, hi⟩ := i
  obtain ⟨hlo, hhi⟩ := isUnbounded_eq_false_iff.1 hbounded
  obtain ⟨hlox, hxhi⟩ := contains_iff.1 hx
  cases lo with
  | number lo =>
    cases hi with
    | number hi => exact ⟨lo, hi, (number_le _ _).1 (Scalar.le_trans hlox hxhi), rfl⟩
    | infinity => exact absurd rfl hhi
    | _ => simp [le_def, lt_def, lt] at hxhi
  | negInfinity => exact absurd rfl hlo
  | _ => simp [le_def, lt_def, lt] at hlox

end Interval

namespace Box

/-- A box with real ends. -/
def ofEnds (lo hi : Vec3 ℝ) : Box (Exact z) :=
  ⟨⟨number lo.x, number hi.x⟩, ⟨number lo.y, number hi.y⟩, ⟨number lo.z, number hi.z⟩⟩

section

variable {b : Box (Exact z)} {p : Vec3 ℝ}

theorem hasPoint_everything (p : Vec3 ℝ) : (everything : Box (Exact z)).HasPoint (.ofReal p) := by
  refine hasPoint_iff_axis.2 fun axis => ?_
  cases axis <;>
    exact ⟨Scalar.le_of_lt (negInfinity_lt _), Scalar.le_of_lt (lt_infinity _)⟩

theorem isBounded_of_hasPoint (hbounded : b.isUnbounded = false) (hp : b.HasPoint (.ofReal p)) :
    b.IsBounded := by
  simp only [isUnbounded, Bool.or_eq_false_iff] at hbounded
  exact ⟨Interval.isBounded_of_contains hbounded.1.1 hp.x,
    Interval.isBounded_of_contains hbounded.1.2 hp.y,
    Interval.isBounded_of_contains hbounded.2 hp.z⟩

theorem IsBounded.exists_ofEnds (hb : b.IsBounded) : ∃ lo hi : Vec3 ℝ, b = ofEnds lo hi ∧
    lo.x ≤ hi.x ∧ lo.y ≤ hi.y ∧ lo.z ≤ hi.z := by
  obtain ⟨⟨lx, hx, hlex, hxeq⟩, ⟨ly, hy, hley, hyeq⟩, ⟨lz, hz, hlez, hzeq⟩⟩ := hb
  exact ⟨⟨lx, ly, lz⟩, ⟨hx, hy, hz⟩, Box.ext hxeq hyeq hzeq, hlex, hley, hlez⟩

end

/-! ## Corners -/

theorem exists_corner {α : Type} (b : Box α) {p : Vec3 α} (hx : p.x = b.x.min ∨ p.x = b.x.max)
    (hy : p.y = b.y.min ∨ p.y = b.y.max) (hz : p.z = b.z.min ∨ p.z = b.z.max) :
    ∃ i ∈ List.range 8, b.corner i = p := by
  obtain ⟨x, y, t⟩ := p
  obtain rfl | rfl := hx <;> obtain rfl | rfl := hy <;> obtain rfl | rfl := hz
  · exact ⟨0, by simp, rfl⟩
  · exact ⟨4, by simp, rfl⟩
  · exact ⟨2, by simp, rfl⟩
  · exact ⟨6, by simp, rfl⟩
  · exact ⟨1, by simp, rfl⟩
  · exact ⟨5, by simp, rfl⟩
  · exact ⟨3, by simp, rfl⟩
  · exact ⟨7, by simp, rfl⟩

/-- The corners of a bounded box are real points of the box. -/
theorem IsBounded.exists_corner_eq {b : Box (Exact z)} (hb : b.IsBounded) (i : Nat) :
    ∃ p : Vec3 ℝ, b.corner i = .ofReal p ∧ b.HasPoint (.ofReal p) := by
  obtain ⟨lo, hi, rfl, hx, hy, hz⟩ := hb.exists_ofEnds
  refine ⟨⟨if i.testBit 0 then hi.x else lo.x, if i.testBit 1 then hi.y else lo.y,
    if i.testBit 2 then hi.z else lo.z⟩, ?_, ?_⟩
  · simp only [corner, ofEnds, Vec3.ofReal]
    split_ifs <;> rfl
  · refine hasPoint_iff_axis.2 fun axis => ?_
    cases axis <;> simp only [Vec3.component, min, max, ofEnds, Vec3.ofReal, number_le] <;>
      split_ifs <;> simp [hx, hy, hz]

/-- One of the two ends of an interval is no farther along a slope than a number between them. -/
theorem exists_end_mul_le {lo hi x : ℝ} (hlo : lo ≤ x) (hhi : x ≤ hi) (a : ℝ) :
    ∃ e, (e = lo ∨ e = hi) ∧ e * a ≤ x * a := by
  obtain ha | ha := le_total 0 a
  · exact ⟨lo, .inl rfl, mul_le_mul_of_nonneg_right hlo ha⟩
  · exact ⟨hi, .inr rfl, mul_le_mul_of_nonpos_right hhi ha⟩

section

variable {b : Box (Exact z)} {p : Vec3 ℝ}

/-- Some corner of a bounded box is no farther along a linear form than a point inside. -/
theorem IsBounded.exists_corner_le (hb : b.IsBounded) (hp : b.HasPoint (.ofReal p)) (s t u : ℝ) :
    ∃ i ∈ List.range 8, ∃ q : Vec3 ℝ, b.corner i = .ofReal q ∧
      q.x * s + q.y * t + q.z * u ≤ p.x * s + p.y * t + p.z * u := by
  obtain ⟨lo, hi, rfl, -⟩ := hb.exists_ofEnds
  simp only [hasPoint_iff, Interval.contains_iff, ofEnds, Vec3.ofReal, number_le] at hp
  obtain ⟨x, hxend, hxle⟩ := exists_end_mul_le hp.1.1 hp.1.2 s
  obtain ⟨y, hyend, hyle⟩ := exists_end_mul_le hp.2.1.1 hp.2.1.2 t
  obtain ⟨w, hwend, hwle⟩ := exists_end_mul_le hp.2.2.1 hp.2.2.2 u
  obtain ⟨i, hi, hcorner⟩ := exists_corner (ofEnds lo hi : Box (Exact z)) (p := .ofReal ⟨x, y, w⟩)
    (by simpa [ofEnds, Vec3.ofReal] using hxend) (by simpa [ofEnds, Vec3.ofReal] using hyend)
    (by simpa [ofEnds, Vec3.ofReal] using hwend)
  exact ⟨i, hi, _, hcorner, add_le_add (add_le_add hxle hyle) hwle⟩

theorem IsBounded.exists_le_corner (hb : b.IsBounded) (hp : b.HasPoint (.ofReal p)) (s t u : ℝ) :
    ∃ i ∈ List.range 8, ∃ q : Vec3 ℝ, b.corner i = .ofReal q ∧
      p.x * s + p.y * t + p.z * u ≤ q.x * s + q.y * t + q.z * u := by
  obtain ⟨i, hi, q, hq, hle⟩ := hb.exists_corner_le hp (-s) (-t) (-u)
  exact ⟨i, hi, q, hq, by linarith⟩

end

/-! ## Hulls -/

/-- The hull of points starts at the least of their coordinates on each axis. -/
theorem isLeast_hull (points : List (Vec3 (Exact z))) (axis : Axis) : Scalar.IsLeastDefined
    ((Vec3.component · axis) '' {p | p ∈ points}) ((hull points).min.component axis) :=
  selects_min.isFirst_foldl_of_hom (fun b : Box (Exact z) => b.min.component axis)
    (fun p : Vec3 (Exact z) => p.component axis) (by cases axis <;> rfl)
    (fun b p => by cases axis <;> rfl) points

theorem isGreatest_hull (points : List (Vec3 (Exact z))) (axis : Axis) : Scalar.IsGreatestDefined
    ((Vec3.component · axis) '' {p | p ∈ points}) ((hull points).max.component axis) :=
  selects_max.isFirst_foldl_of_hom (fun b : Box (Exact z) => b.max.component axis)
    (fun p : Vec3 (Exact z) => p.component axis) (by cases axis <;> rfl)
    (fun b p => by cases axis <;> rfl) points

end Box

/-! ## Images -/

namespace Transform

variable {t : Transform (Exact z)} {b : Box (Exact z)}

/-- A coordinate of the image under an affine map is a linear form with an offset. -/
theorem exists_component_applyPoint (ht : t.matrix.IsAffine) (axis : Axis) :
    ∃ a b c d : ℝ, ∀ p : Vec3 ℝ,
      (t.applyPoint (.ofReal p)).component axis = number (p.x * a + p.y * b + p.z * c + d) := by
  obtain ⟨X, Y, Z, O, hm⟩ := ht
  refine ⟨X.component axis, Y.component axis, Z.component axis, O.component axis, fun p => ?_⟩
  rw [applyPoint, hm, Matrix4.point_ofAxes]
  cases axis <;> rfl

/-- The images of the corners of a box. -/
def cornerImages {α : Type} [Scalar α] (t : Transform α) (b : Box α) : List (Vec3 α) :=
  (List.range 8).map fun i => t.applyPoint (b.corner i)

/-- Bounded boxes, flat ones too, are mapped by their corners. -/
theorem applyBox_of_isBounded (t : Transform (Exact z)) (hb : b.IsBounded) :
    t.applyBox b = .hull (t.cornerImages b) := by
  obtain ⟨lo, hi, rfl, hx, hy, hz⟩ := hb.exists_ofEnds
  have hunbounded : (Box.ofEnds lo hi : Box (Exact z)).isUnbounded = false := by
    simp [Box.isUnbounded, Box.ofEnds, Interval.isUnbounded_eq_false_iff]
  have hdiagonal : ¬(Box.ofEnds lo hi : Box (Exact z)).diagonal.minElement < 0 := by
    refine Scalar.not_lt_of_le (Scalar.le_min ?_ (Scalar.le_min ?_ ?_))
    · simpa [Box.ofEnds, Box.diagonal, Box.max, Box.min] using hx
    · simpa [Box.ofEnds, Box.diagonal, Box.max, Box.min] using hy
    · simpa [Box.ofEnds, Box.diagonal, Box.max, Box.min] using hz
  rw [applyBox, hunbounded, if_neg Bool.false_ne_true, if_neg fun h => hdiagonal h.2]
  rfl

/-- The image of a box has the images of its points: along each axis the image of a point lies
between the images of two corners. -/
theorem hasPoint_applyBox {p : Vec3 (Exact z)} (ht : t.matrix.IsAffine) (hp : p.IsReal)
    (hb : b.HasPoint p) : (t.applyBox b).HasPoint (t.applyPoint p) := by
  obtain ⟨p, rfl⟩ := Vec3.isReal_iff.1 hp
  by_cases hunbounded : b.isUnbounded = true
  · obtain ⟨X, Y, Z, O, hm⟩ := ht
    rw [applyBox, if_pos hunbounded, applyPoint, hm, Matrix4.point_ofAxes]
    exact Box.hasPoint_everything _
  · have hbounded := Box.isBounded_of_hasPoint (by simpa using hunbounded) hb
    rw [applyBox_of_isBounded t hbounded]
    refine Box.hasPoint_iff_axis.2 fun axis => ?_
    obtain ⟨a, c, d, e, hform⟩ := exists_component_applyPoint ht axis
    have himage {i : Nat} {q : Vec3 ℝ} (hmem : i ∈ List.range 8) (hq : b.corner i = .ofReal q) :
        number (q.x * a + q.y * c + q.z * d + e) ∈
          (Vec3.component · axis) '' {q | q ∈ t.cornerImages b} :=
      ⟨_, List.mem_map.2 ⟨i, hmem, congrArg t.applyPoint hq⟩, hform q⟩
    obtain ⟨i, hi, q, hq, hle⟩ := hbounded.exists_corner_le hb a c d
    obtain ⟨j, hj, r, hr, hge⟩ := hbounded.exists_le_corner hb a c d
    rw [hform]
    constructor
    · exact Scalar.le_trans ((Box.isLeast_hull _ axis).first _ (himage hi hq) (by simp))
        (by simpa using hle)
    · exact Scalar.le_trans (by simpa using hge)
        ((Box.isGreatest_hull _ axis).first _ (himage hj hr) (by simp))

/-- A box with ends out of order is mapped to the empty box, unless it reaches to infinity. -/
theorem applyBox_of_reversed (t : Transform (Exact z)) (hbounded : b.isUnbounded = false)
    {axis : Axis} (h : b.max.component axis < b.min.component axis) : t.applyBox b = .empty := by
  have hempty : b.isEmpty = true := by
    simp only [Box.isEmpty, Interval.isEmpty, Bool.or_eq_true, decide_eq_true_eq]
    cases axis with
    | x => exact .inl (.inl (Scalar.le_of_lt h))
    | y => exact .inl (.inr (Scalar.le_of_lt h))
    | z => exact .inr (Scalar.le_of_lt h)
  have hdiagonal : b.diagonal.minElement < 0 := by
    have hneg : b.diagonal.component axis < 0 := by
      have hsub := sub_neg_of_lt h
      cases axis <;> exact hsub
    have hle := Scalar.le_refl (Scalar.IsOrdered.isNaN_of_lt hneg).1
    refine Scalar.lt_of_le_of_lt ?_ hneg
    cases axis with
    | x => exact Scalar.min_le_of_left hle
    | y => exact Scalar.min_le_of_right (Scalar.min_le_of_left hle)
    | z => exact Scalar.min_le_of_right (Scalar.min_le_of_right hle)
  rw [applyBox, hbounded, if_neg Bool.false_ne_true, if_pos ⟨hempty, hdiagonal⟩]

/-- Each end of the hull of the images of the corners is a coordinate of one of them. -/
theorem exists_corner_of_isFirst {r : Exact z → Exact z → Prop} {last m : Exact z} {axis : Axis}
    (ht : t.matrix.IsAffine) (hb : b.IsBounded)
    (hm : Scalar.IsFirst r last ((Vec3.component · axis) '' {p | p ∈ t.cornerImages b}) m) :
    ∃ i < 8, m = (t.applyPoint (b.corner i)).component axis := by
  obtain ⟨p, hp, hmeq⟩ | ⟨hundefined, -⟩ := hm.mem_or
  · obtain ⟨i, hi, rfl⟩ := List.mem_map.1 hp
    exact ⟨i, List.mem_range.1 hi, hmeq.symm⟩
  · obtain ⟨q, hq, -⟩ := hb.exists_corner_eq 0
    obtain ⟨a, c, d, e, hform⟩ := exists_component_applyPoint ht axis
    have hfirst := hundefined _ ⟨_, List.mem_map.2 ⟨0, by simp, rfl⟩, rfl⟩
    simp only [hq, hform] at hfirst
    simp at hfirst

/-- The image of a box under an affine map has the images of the points of the box, which may be
flat and may reach to infinity.  A box with ends out of order that does not reach to infinity is
mapped to the empty box.  The image of a bounded box has the image of a corner on each face, and
lies in every box that has the images of the points. -/
theorem applyBox_encloses (ht : t.matrix.IsAffine) (b : Box (Exact z)) :
    (∀ p : Vec3 (Exact z), p.IsReal → b.HasPoint p → (t.applyBox b).HasPoint (t.applyPoint p)) ∧
      (b.isUnbounded = false → (∃ axis, b.max.component axis < b.min.component axis) →
        t.applyBox b = .empty) ∧
      (b.IsBounded →
        (∀ axis,
          (∃ i < 8,
            (t.applyBox b).min.component axis = (t.applyPoint (b.corner i)).component axis) ∧
          ∃ i < 8,
            (t.applyBox b).max.component axis = (t.applyPoint (b.corner i)).component axis) ∧
        ∀ c : Box (Exact z),
          (∀ p : Vec3 (Exact z), p.IsReal → b.HasPoint p → c.HasPoint (t.applyPoint p)) →
            c.contains (t.applyBox b) = true) := by
  refine ⟨fun p hp => hasPoint_applyBox ht hp,
    fun hbounded ⟨axis, h⟩ => applyBox_of_reversed t hbounded h, fun hb => ?_⟩
  have hfaces (axis : Axis) :
      (∃ i < 8, (t.applyBox b).min.component axis = (t.applyPoint (b.corner i)).component axis) ∧
        ∃ i < 8, (t.applyBox b).max.component axis =
          (t.applyPoint (b.corner i)).component axis := by
    rw [applyBox_of_isBounded t hb]
    exact ⟨exists_corner_of_isFirst ht hb (Box.isLeast_hull _ axis),
      exists_corner_of_isFirst ht hb (Box.isGreatest_hull _ axis)⟩
  refine ⟨hfaces, fun c hc => Box.contains_iff_axis.2 fun axis => ?_⟩
  have hcorner (i : Nat) : c.HasPoint (t.applyPoint (b.corner i)) := by
    obtain ⟨q, hq, hin⟩ := hb.exists_corner_eq i
    rw [hq]
    exact hc _ (Vec3.isReal_iff.2 ⟨q, rfl⟩) hin
  obtain ⟨⟨i, -, hmin⟩, j, -, hmax⟩ := hfaces axis
  rw [hmin, hmax]
  exact ⟨(Box.hasPoint_iff_axis.1 (hcorner i) axis).1, (Box.hasPoint_iff_axis.1 (hcorner j) axis).2⟩

/-- Turns the plane of the first two axes, and lifts all of space onto a parallel plane. -/
noncomputable def liftedPlane : Transform (Exact z) :=
  .ofMatrix (.ofAxes (.ofReal ⟨1, 1, 0⟩) (.ofReal ⟨-1, 1, 0⟩) (.ofReal ⟨0, 0, 0⟩)
    (.ofReal ⟨0, 0, 3⟩))

theorem applyPoint_liftedPlane (p : Vec3 ℝ) :
    (liftedPlane : Transform (Exact z)).applyPoint (.ofReal p) =
      .ofReal ⟨p.x - p.y, p.x + p.y, 3⟩ := by
  simp only [liftedPlane, applyPoint, ofMatrix, Matrix4.point_ofAxes, Vec3.ofReal_inj]
  refine ⟨?_, ?_, ?_⟩ <;> ring

/-- A flat square has a flat image, and a square with its ends out of order has none. -/
theorem applyBox_encloses_square :
    let square : Box (Exact .plus) := .ofEnds ⟨-1, -1, 0⟩ ⟨1, 1, 0⟩
    (liftedPlane.applyBox square).HasPoint (liftedPlane.applyPoint (.ofReal ⟨1, 1 / 2, 0⟩)) ∧
      (Box.ofEnds ⟨-2, -2, 3⟩ ⟨2, 2, 3⟩).contains (liftedPlane.applyBox square) = true ∧
      liftedPlane.applyBox (.ofEnds ⟨1, -1, 0⟩ ⟨-1, 1, 0⟩ : Box (Exact .plus)) = .empty := by
  intro square
  have haffine : (liftedPlane : Transform (Exact .plus)).matrix.IsAffine := ⟨_, _, _, _, rfl⟩
  have hbounded : square.IsBounded :=
    ⟨⟨-1, 1, by norm_num, rfl⟩, ⟨-1, 1, by norm_num, rfl⟩, ⟨0, 0, le_rfl, rfl⟩⟩
  obtain ⟨hpoints, -, hleast⟩ := applyBox_encloses haffine square
  refine ⟨hpoints _ (Vec3.isReal_iff.2 ⟨_, rfl⟩) ?_, (hleast hbounded).2 _ fun p hp hin => ?_, ?_⟩
  · refine Box.hasPoint_iff_axis.2 fun axis => ?_
    cases axis <;> norm_num [square, Box.ofEnds, Box.min, Box.max, Vec3.component, Vec3.ofReal]
  · obtain ⟨p, rfl⟩ := Vec3.isReal_iff.1 hp
    rw [applyPoint_liftedPlane]
    simp only [Box.hasPoint_iff, Interval.contains_iff, square, Box.ofEnds, Vec3.ofReal,
      number_le] at hin ⊢
    obtain ⟨⟨hlox, hxhi⟩, ⟨hloy, hyhi⟩, -⟩ := hin
    refine ⟨⟨?_, ?_⟩, ⟨?_, ?_⟩, le_rfl, le_rfl⟩ <;> linarith
  · refine (applyBox_encloses haffine _).2.1 ?_ ⟨.x, ?_⟩
    · simp [Box.isUnbounded, Box.ofEnds, Interval.isUnbounded_eq_false_iff]
    · norm_num [Box.ofEnds, Box.min, Box.max, Vec3.component]

end Transform

end Radiance
