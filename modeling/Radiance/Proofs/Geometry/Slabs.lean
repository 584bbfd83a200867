import Radiance.Proofs.Geometry.Entry

/-!
# What the slab test decides

For a bounded box the slab test computes the intersection of three intervals of distances.  It is
exact for rays that move along all three axes.  A ray that does not move along some axis is seen to
pass through the box too, unless it runs along a face of it: there the test loses the box.

## Main definitions

* `Box.IsBounded`: the ends of the box are numbers, in order on each axis.
* `Box.IsGrazedBy`: a ray runs along a face of a box that is not flat there.

## Main statements

* `Box.rayEntry_exact`: the entry of an oblique ray is its first point in the box, and larger boxes
  are entered earlier.
* `Box.rayEntry_of_hasPoint`: a ray with a point in a box enters it, exactly if it does not graze
  it.
-/

namespace Radiance

open Exact

variable {z : ZeroSign}

/-! ## Bounded boxes -/

/-- The ends are numbers, in order. -/
def Interval.IsBounded (i : Interval (Exact z)) : Prop :=
  ∃ lo hi : ℝ, lo ≤ hi ∧ i = ⟨number lo, number hi⟩

/-- The ends of the box are numbers, in order on each axis. -/
structure Box.IsBounded (b : Box (Exact z)) : Prop where
  x : b.x.IsBounded
  y : b.y.IsBounded
  z : b.z.IsBounded

namespace Interval

variable {i : Interval (Exact z)} {o d : ℝ}

/-- A line that moves along the axis is inside a bounded slab from one number to another. -/
theorem IsBounded.exists_slab (hi : i.IsBounded) (hd : d ≠ 0) :
    ∃ n f : ℝ, i.slabNear (number o) (number d) = number n ∧
      i.slabFar (number o) (number d) = number f ∧
      ∀ h : ℝ, i.contains (number (o + h * d)) = true ↔ n ≤ h ∧ h ≤ f := by
  obtain ⟨lo, hi, hle, rfl⟩ := hi
  have hends (x : ℝ) : ((number x - number o) * (1 / number d) : Exact z) =
      number ((x - o) * (1 / d)) := by
    rw [one_eq, number_div _ _ hd, number_sub, number_mul]
  have hnear := (congrArg₂ Scalar.min (hends lo) (hends hi)).trans (min_number _ _)
  have hfar := (congrArg₂ Scalar.max (hends lo) (hends hi)).trans (max_number _ _)
  refine ⟨_, _, hnear, hfar, fun h => ⟨fun hin => ?_, fun hin => ?_⟩⟩
  · have hslab := slab_of_ne_zero hd hin
    rwa [slabNear, slabFar, hnear, hfar, number_le, number_le] at hslab
  · have hlo : Interval.contains (⟨number lo, number hi⟩ : Interval (Exact z)) (number lo) = true :=
      contains_iff.2 ⟨by simp, by simpa using hle⟩
    apply contains_of_slab hd hlo
    · rw [slabNear, hnear, number_le]
      exact hin.1
    · rw [slabFar, hfar, number_le]
      exact hin.2

end Interval

namespace Box

variable {b : Box (Exact z)} {ray : Ray (Exact z)}

/-- A ray that moves along all axes is inside a bounded box from the latest entry into its slabs to
the earliest exit. -/
theorem IsBounded.exists_near_far (hb : b.IsBounded) (hray : ray.IsOblique) :
    ∃ n f : ℝ, b.near ray = number n ∧ b.far ray = number f ∧
      ∀ h : ℝ, b.HasPoint (ray.pointAt (number h)) ↔ n ≤ h ∧ h ≤ f := by
  obtain ⟨⟨⟨ox, oy, oz, ho⟩, ⟨dx, dy, dz, hd⟩⟩, hx, hy, hz⟩ := hray
  simp only [hd, zero_eq, ne_eq, number_inj] at hx hy hz
  obtain ⟨nx, fx, hnx, hfx, hinx⟩ := hb.x.exists_slab (o := ox) hx
  obtain ⟨ny, fy, hny, hfy, hiny⟩ := hb.y.exists_slab (o := oy) hy
  obtain ⟨nz, fz, hnz, hfz, hinz⟩ := hb.z.exists_slab (o := oz) hz
  refine ⟨Max.max nx (Max.max ny nz), Min.min fx (Min.min fy fz), ?_, ?_, fun h => ?_⟩
  · simp only [near, ho, hd, hnx, hny, hnz, max_number]
  · simp only [far, ho, hd, hfx, hfy, hfz, min_number]
  · simp only [hasPoint_iff, Ray.pointAt, ho, hd, Vec3.smul_mk, Vec3.mk_add, number_mul, number_add,
      hinx, hiny, hinz, max_le_iff, le_min_iff]
    tauto

/-- What the test says about such a ray: the first distance inside, unless the last one is too
small or there is none. -/
theorem IsBounded.rayEntry_cases (hb : b.IsBounded) (hray : ray.IsOblique) :
    (b.rayEntry ray ray.direction.recip = infinity ∧
        ∀ h : ℝ, 3e-4 ≤ h → ¬b.HasPoint (ray.pointAt (number h))) ∨
      ∃ n f : ℝ, b.rayEntry ray ray.direction.recip = number n ∧ n ≤ f ∧ 3e-4 ≤ f ∧
        ∀ h : ℝ, b.HasPoint (ray.pointAt (number h)) ↔ n ≤ h ∧ h ≤ f := by
  obtain ⟨n, f, hn, hf, hin⟩ := hb.exists_near_far hray
  rw [rayEntry_recip, hn, hf]
  split_ifs with hmiss
  · simp only [epsilon_eq, number_lt] at hmiss
    left
    refine ⟨rfl, fun h hε hp => ?_⟩
    have hbetween := (hin h).1 hp
    obtain hlt | hlt := hmiss <;> linarith
  · simp only [epsilon_eq, number_lt, not_or, not_lt] at hmiss
    right
    exact ⟨n, f, rfl, hmiss.1, hmiss.2, hin⟩

/-- The slab test is exact for rays that move along all axes: it misses a box exactly if the ray has
no point in it from `Scalar.epsilon` on, gives the least distance of a point in the box otherwise,
and for a larger box gives no larger distance and no miss. -/
theorem rayEntry_exact (hb : b.IsBounded) (hray : ray.IsOblique) :
    (b.rayEntry ray ray.direction.recip = infinity ↔
        ¬∃ h : ℝ, Scalar.epsilon ≤ (number h : Exact z) ∧ b.HasPoint (ray.pointAt (number h))) ∧
      (b.rayEntry ray ray.direction.recip ≠ infinity →
        ∃ h : ℝ, b.rayEntry ray ray.direction.recip = number h ∧
          IsLeast {h : ℝ | b.HasPoint (ray.pointAt (number h))} h) ∧
      ∀ c : Box (Exact z), c.IsBounded → c.contains b = true →
        b.rayEntry ray ray.direction.recip ≠ infinity →
          c.rayEntry ray ray.direction.recip ≠ infinity ∧
            c.rayEntry ray ray.direction.recip ≤ b.rayEntry ray ray.direction.recip := by
  simp only [epsilon_eq, number_le]
  obtain ⟨hmiss, hout⟩ | ⟨n, f, hn, hnf, hε, hin⟩ := hb.rayEntry_cases hray
  · refine ⟨⟨fun _ => ?_, fun _ => hmiss⟩, fun h => absurd hmiss h, fun _ _ _ h => absurd hmiss h⟩
    rintro ⟨h, hε, hp⟩
    exact hout h hε hp
  · have hfirst : b.HasPoint (ray.pointAt (number n)) := (hin n).2 ⟨le_rfl, hnf⟩
    have hlast : b.HasPoint (ray.pointAt (number f)) := (hin f).2 ⟨hnf, le_rfl⟩
    rw [hn]
    refine ⟨⟨fun h => (by cases h), fun h => absurd ⟨f, hε, hlast⟩ h⟩, fun _ => ?_,
      fun c hc hcb _ => ?_⟩
    · exact ⟨n, rfl, hfirst, fun h hp => ((hin h).1 hp).1⟩
    · -- The larger box has the last point as well, and the first point is not before its own.
      obtain ⟨-, hout⟩ | ⟨n', f', hn', -, -, hin'⟩ := hc.rayEntry_cases hray
      · exact absurd (hlast.of_contains hcb) (hout f hε)
      · rw [hn', number_le]
        exact ⟨fun h => (by cases h), ((hin' n).1 (hfirst.of_contains hcb)).1⟩

/-- The box from the origin to the point with all coordinates one. -/
noncomputable def unitCube : Box (Exact z) :=
  ⟨⟨number 0, number 1⟩, ⟨number 0, number 1⟩, ⟨number 0, number 1⟩⟩

theorem isBounded_unitCube : (unitCube : Box (Exact z)).IsBounded :=
  ⟨⟨0, 1, zero_le_one, rfl⟩, ⟨0, 1, zero_le_one, rfl⟩, ⟨0, 1, zero_le_one, rfl⟩⟩

theorem hasPoint_unitCube {p : Vec3 ℝ} (hx : 0 ≤ p.x ∧ p.x ≤ 1) (hy : 0 ≤ p.y ∧ p.y ≤ 1)
    (hz : 0 ≤ p.z ∧ p.z ≤ 1) : (unitCube : Box (Exact z)).HasPoint (.ofReal p) := by
  constructor <;> rw [Interval.contains_iff] <;> simpa [unitCube, Vec3.ofReal]

/-- A ray through two corners of the cube. -/
theorem rayEntry_exact_diagonal : ∃ h : ℝ,
    (unitCube : Box (Exact .plus)).rayEntry (.towardsOrigin ⟨1, 1, 1⟩ 2)
        (Ray.towardsOrigin ⟨1, 1, 1⟩ 2).direction.recip = number h ∧
      IsLeast {h : ℝ | (unitCube : Box (Exact .plus)).HasPoint
        ((Ray.towardsOrigin ⟨1, 1, 1⟩ 2).pointAt (number h))} h := by
  have hexact := rayEntry_exact (isBounded_unitCube (z := .plus))
    (Ray.isOblique_towardsOrigin (d := ⟨1, 1, 1⟩) one_ne_zero one_ne_zero one_ne_zero 2)
  refine hexact.2.1 fun hmiss => hexact.1.1 hmiss ⟨2, by norm_num, ?_⟩
  have hpoint : (Ray.towardsOrigin ⟨1, 1, 1⟩ 2 : Ray (Exact .plus)).pointAt (number 2) =
      .ofReal ⟨0, 0, 0⟩ := by
    norm_num [Ray.towardsOrigin, Ray.pointAt, Vec3.ofReal]
  rw [hpoint]
  apply hasPoint_unitCube <;> norm_num

end Box

/-! ## Rays along faces -/

/-- A line that does not move along the axis runs along one of two different ends. -/
def Interval.IsGrazedBy (i : Interval (Exact z)) (o d : Exact z) : Prop :=
  d = 0 ∧ i.min ≠ i.max ∧ (o = i.min ∨ o = i.max)

/-- A ray runs along a face of a box that is not flat there. -/
def Box.IsGrazedBy (b : Box (Exact z)) (ray : Ray (Exact z)) : Prop :=
  b.x.IsGrazedBy ray.origin.x ray.direction.x ∨ b.y.IsGrazedBy ray.origin.y ray.direction.y ∨
    b.z.IsGrazedBy ray.origin.z ray.direction.z

namespace Interval

variable {i : Interval (Exact z)} {o d h : ℝ}

/-- A line inside a bounded slab that does not graze it is between entry and exit, or has no such
distances because the slab is flat. -/
theorem IsBounded.slab_of_not_grazed (hi : i.IsBounded)
    (hin : i.contains (number (o + h * d)) = true) (hnot : ¬i.IsGrazedBy (number o) (number d)) :
    (i.slabNear (number o) (number d) ≤ number h ∧ number h ≤ i.slabFar (number o) (number d)) ∨
      d = 0 ∧ i.slabNear (number o) (number d) = undefined ∧
        i.slabFar (number o) (number d) = undefined := by
  by_cases hd : d = 0
  · subst hd
    obtain ⟨lo, hi, hle, rfl⟩ := hi
    simp only [contains_iff, mul_zero, add_zero, number_le] at hin
    simp only [IsGrazedBy, zero_eq, true_and, number_inj, ne_eq, not_and, not_or] at hnot
    by_cases hflat : lo = hi
    · have ho : o = lo := by linarith
      exact .inr ⟨rfl, slab_of_flat (by simp [ho]) (by simp [ho, hflat])⟩
    · obtain ⟨hlo, hhi⟩ := hnot hflat
      exact .inl (slab_of_between ((number_lt _ _).2 (lt_of_le_of_ne hin.1 (Ne.symm hlo)))
        ((number_lt _ _).2 (lt_of_le_of_ne hin.2 hhi)) h)
  · exact .inl (slab_of_ne_zero hd hin)

theorem IsBounded.slab_of_isGrazedBy (hi : i.IsBounded)
    (hgrazed : i.IsGrazedBy (number o) (number d)) :
    i.slabNear (number o) (number d) = infinity ∨
      i.slabFar (number o) (number d) = negInfinity := by
  obtain ⟨lo, hi, hle, rfl⟩ := hi
  simp only [IsGrazedBy, zero_eq, number_inj, ne_eq] at hgrazed
  obtain ⟨rfl, hne, hend⟩ := hgrazed
  have hlt := lt_of_le_of_ne hle hne
  apply slab_of_grazed
  obtain rfl | rfl := hend
  · exact .inr ⟨rfl, hlt⟩
  · exact .inl ⟨hlt, rfl⟩

end Interval

namespace Box

variable {b : Box (Exact z)} {ray : Ray (Exact z)} {h : ℝ}

theorem min_undefined_or_ge {p q c : Exact z} (hp : p = undefined ∨ c ≤ p)
    (hq : q = undefined ∨ c ≤ q) : Scalar.min p q = undefined ∨ c ≤ Scalar.min p q := by
  obtain h | h := Scalar.min_eq_or p q <;> rwa [h]

/-- A box is lost once one of its slabs is entered or left at the wrong infinity. -/
theorem rayEntry_eq_infinity
    (h : b.near ray = infinity ∨ b.far ray = negInfinity) :
    b.rayEntry ray ray.direction.recip = infinity := by
  rw [rayEntry_recip]
  obtain hnear | hfar := h
  · rw [hnear]
    exact ite_self _
  · rw [hfar]
    exact if_pos (.inr (negInfinity_lt _))

/-- A grazed box is lost. -/
theorem IsBounded.rayEntry_of_isGrazedBy (hb : b.IsBounded) (hray : ray.IsReal)
    (hgrazed : b.IsGrazedBy ray) : b.rayEntry ray ray.direction.recip = infinity := by
  obtain ⟨⟨ox, oy, oz, ho⟩, ⟨dx, dy, dz, hd⟩⟩ := hray
  apply rayEntry_eq_infinity
  simp only [IsGrazedBy, near, far, ho, hd] at hgrazed ⊢
  obtain hx | hy | hz := hgrazed
  · exact (hb.x.slab_of_isGrazedBy hx).imp (fun h => by simp [h]) fun h => by simp [h]
  · exact (hb.y.slab_of_isGrazedBy hy).imp (fun h => by simp [h]) fun h => by simp [h]
  · exact (hb.z.slab_of_isGrazedBy hz).imp (fun h => by simp [h]) fun h => by simp [h]

/-- A box that is not grazed is entered no later than at each of its points in front. -/
theorem IsBounded.rayEntry_of_not_grazed (hb : b.IsBounded) (hray : ray.IsProper)
    (hε : Scalar.epsilon ≤ (number h : Exact z)) (hp : b.HasPoint (ray.pointAt (number h)))
    (hnot : ¬b.IsGrazedBy ray) : b.rayEntry ray ray.direction.recip ≤ number h := by
  obtain ⟨⟨⟨ox, oy, oz, ho⟩, ⟨dx, dy, dz, hd⟩⟩, hne⟩ := hray
  simp only [hasPoint_iff, Ray.pointAt, ho, hd, Vec3.smul_mk, Vec3.mk_add, number_mul, number_add]
    at hp
  simp only [IsGrazedBy, not_or, ho, hd] at hnot
  have hx := hb.x.slab_of_not_grazed hp.1 hnot.1
  have hy := hb.y.slab_of_not_grazed hp.2.1 hnot.2.1
  have hz := hb.z.slab_of_not_grazed hp.2.2 hnot.2.2
  have hnear : b.near ray ≤ number h := by
    simp only [near, ho, hd]
    obtain hundefined | hle := max_undefined_or_le (hx.symm.imp (·.2.1) (·.1))
      (max_undefined_or_le (hy.symm.imp (·.2.1) (·.1)) (hz.symm.imp (·.2.1) (·.1)))
    · -- All entries are undefined only if the ray does not move at all.
      obtain ⟨hnx, hrest⟩ := eq_undefined_of_max hundefined
      obtain ⟨hny, hnz⟩ := eq_undefined_of_max hrest
      rw [hnx] at hx
      rw [hny] at hy
      rw [hnz] at hz
      have hzero : dx = 0 ∧ dy = 0 ∧ dz = 0 := by
        simp_all [le_def, lt_def, lt]
      exact absurd hd (by simp_all [Vec3.zero, Vec3.splat])
    · exact hle
  have hfar : b.far ray = undefined ∨ number h ≤ b.far ray := by
    simp only [far, ho, hd]
    exact min_undefined_or_ge (hx.symm.imp (·.2.2) (·.2))
      (min_undefined_or_ge (hy.symm.imp (·.2.2) (·.2)) (hz.symm.imp (·.2.2) (·.2)))
  rw [rayEntry_recip, if_neg]
  · exact hnear
  · rintro (hlt | hlt)
    all_goals
      obtain hundefined | hle := hfar
      · rw [hundefined, lt_def] at hlt
        simp [lt] at hlt
    · exact Scalar.not_lt_of_le (Scalar.le_trans hnear hle) hlt
    · exact Scalar.not_lt_of_le (Scalar.le_trans hε hle) hlt

/-- A ray with a point in front of it in a bounded box, whether or not it moves along all axes,
enters the box no later than there if it runs along none of the faces, and is said to miss the box
if it runs along one. -/
theorem rayEntry_of_hasPoint (hb : b.IsBounded) (hray : ray.IsProper)
    (hε : Scalar.epsilon ≤ (number h : Exact z)) (hp : b.HasPoint (ray.pointAt (number h))) :
    (¬b.IsGrazedBy ray → b.rayEntry ray ray.direction.recip ≤ number h) ∧
      (b.IsGrazedBy ray → b.rayEntry ray ray.direction.recip = infinity) :=
  ⟨hb.rayEntry_of_not_grazed hray hε hp, hb.rayEntry_of_isGrazedBy hray.toIsReal⟩

/-- The ray up the third axis that starts below a point of the cube's lower face. -/
noncomputable def upwards (x y : ℝ) : Ray (Exact z) :=
  ⟨.ofReal ⟨x, y, -1⟩, .ofReal ⟨0, 0, 1⟩, 0⟩

theorem isProper_upwards (x y : ℝ) : (upwards x y : Ray (Exact z)).IsProper := by
  refine ⟨⟨⟨_, _, _, rfl⟩, ⟨_, _, _, rfl⟩⟩, fun hzero => ?_⟩
  simp [upwards, Vec3.ofReal, Vec3.zero, Vec3.splat] at hzero

theorem hasPoint_upwards {x y : ℝ} (hx : 0 ≤ x ∧ x ≤ 1) (hy : 0 ≤ y ∧ y ≤ 1) :
    (unitCube : Box (Exact z)).HasPoint ((upwards x y).pointAt (number 1)) := by
  have hpoint : (upwards x y : Ray (Exact z)).pointAt (number 1) = .ofReal ⟨x, y, 0⟩ := by
    simp [upwards, Ray.pointAt, Vec3.ofReal]
  rw [hpoint]
  exact hasPoint_unitCube hx hy ⟨le_rfl, zero_le_one⟩

/-- A ray up through the middle of the cube enters it. -/
theorem rayEntry_of_hasPoint_middle :
    (unitCube : Box (Exact .plus)).rayEntry (upwards 0.5 0.5) (upwards 0.5 0.5).direction.recip ≤
      number 1 := by
  have hp : (unitCube : Box (Exact .plus)).HasPoint ((upwards 0.5 0.5).pointAt (number 1)) :=
    hasPoint_upwards (by norm_num) (by norm_num)
  refine (rayEntry_of_hasPoint isBounded_unitCube (isProper_upwards _ _) (by norm_num) hp).1 ?_
  norm_num [IsGrazedBy, Interval.IsGrazedBy, unitCube, upwards, Vec3.ofReal]

/-- A ray that moves along one axis only and runs up a face of the cube is said to miss it. -/
theorem rayEntry_loses_face : ∃ (b : Box (Exact .plus)) (ray : Ray (Exact .plus)) (h : ℝ),
    b.IsBounded ∧ ray.IsProper ∧ ray.direction.x = 0 ∧ ray.direction.y = 0 ∧
      Scalar.epsilon ≤ (number h : Exact .plus) ∧ b.HasPoint (ray.pointAt (number h)) ∧
      b.rayEntry ray ray.direction.recip = infinity := by
  refine ⟨unitCube, upwards 1 0.5, 1, isBounded_unitCube, isProper_upwards _ _, ?_, ?_,
    by norm_num, hasPoint_upwards (by norm_num) (by norm_num), ?_⟩
  · simp [upwards, Vec3.ofReal]
  · simp [upwards, Vec3.ofReal]
  · apply isBounded_unitCube.rayEntry_of_isGrazedBy (isProper_upwards _ _).toIsReal
    simp [IsGrazedBy, Interval.IsGrazedBy, unitCube, upwards, Vec3.ofReal]

end Box

end Radiance
