import Radiance.Proofs.Geometry.RealVector
import Radiance.Shape.Analytic

/-!
# Rays and the sphere

The squared distance from the center is a quadratic along a ray.  One of its roots is computed
without cancellation and the other is the quotient of their product by it.  In exact arithmetic that
quotient is never taken by zero, and the pair is the full set of roots, wherever the ray starts.  So
a query finds the first point of the sphere that is far enough along the ray.

## Main definitions

* `Sphere.stableRoot`: the root that is computed first.
* `Sphere.StablePair`: a stable root and the other one.
* `Sphere.AreRoots`: the squared distance comes apart at two distances along the ray.
* `Sphere.IsFirstAhead`: the first point of the sphere on the ray.

## Main statements

* `Sphere.exists_stablePair`: the roots that are computed, for any real ray.
* `Sphere.roots?_cases`: for a unit direction they are the points of the sphere on the ray.
* `Sphere.distance?_eq_some_iff`: the one that is chosen.
* `Sphere.intersect_finds_first`: the answers of a query.
-/

namespace Radiance

open Exact

namespace Sphere

section

variable {α : Type} [Scalar α]

/-- The root of larger magnitude: the square root is taken with the sign that does not cancel. -/
def stableRoot (ray : Ray α) : α :=
  let b := ray.origin.dot ray.direction
  let root := Scalar.sqrt (b * b - (ray.origin.lengthSquared - 1))
  if 0 < b then -b - root else -b + root

theorem roots?_eq (ray : Ray α) :
    let b := ray.origin.dot ray.direction
    let c := ray.origin.lengthSquared - 1
    let q := stableRoot ray
    let pair := if q == 0 then (0, 0) else (q, c / q)
    roots? ray =
      if b * b - c < 0 then none else some (if pair.2 < pair.1 then pair.swap else pair) := by
  rw [roots?]
  dsimp only
  split
  · rfl
  · change (some (if _ then _ else _) : Option (α × α)) = _
    rfl

end

variable {z : ZeroSign} {ray : Ray (Exact z)}

/-! ## Roots -/

/-- A root and the quotient of the product of both roots by it, in either order.  If the root is
zero, nothing is divided. -/
inductive StablePair (q c : ℝ) : ℝ → ℝ → Prop
  | zero (h : q = 0) : StablePair q c 0 0
  | quotientLast (h : q ≠ 0) : StablePair q c q (c / q)
  | quotientFirst (h : q ≠ 0) : StablePair q c (c / q) q

/-- A stable pair of roots of a quadratic has its sum and its product. -/
theorem StablePair.factor {b c q x₀ x₁ : ℝ} (h : StablePair q c x₀ x₁)
    (hroot : q * q + 2 * b * q + c = 0) (hzero : q = 0 → b = 0) (t : ℝ) :
    t * t + 2 * b * t + c = (t - x₀) * (t - x₁) := by
  have hproduct (hq : q ≠ 0) : t * t + 2 * b * t + c = (t - q) * (t - c / q) := by
    field_simp
    linear_combination t * hroot
  cases h with
  | zero hq =>
    subst hq
    have hc : c = 0 := by linarith
    rw [hzero rfl, hc]
    ring
  | quotientLast hq => exact hproduct hq
  | quotientFirst hq => rw [hproduct hq, mul_comm]

/-- The roots that are computed.  The square root vanishes with the stable root, so both roots are
zero then. -/
theorem exists_stablePair (hray : ray.IsReal) :
    ∃ b c : ℝ, ray.origin.dot ray.direction = number b ∧
      ray.origin.lengthSquared - 1 = number c ∧
      (b * b - c < 0 ∧ roots? ray = none ∨
        ∃ q x₀ x₁ : ℝ, stableRoot ray = number q ∧ StablePair q c x₀ x₁ ∧ x₀ ≤ x₁ ∧
          roots? ray = some (number x₀, number x₁) ∧
          ∀ t : ℝ, t * t + 2 * b * t + c = (t - x₀) * (t - x₁)) := by
  obtain ⟨b, hb⟩ := hray.origin.dot hray.direction
  obtain ⟨l, hl⟩ := hray.origin.dot hray.origin
  have hc : ray.origin.lengthSquared - 1 = number (l - 1) := by
    rw [Vec3.lengthSquared, hl, one_eq, number_sub]
  refine ⟨b, l - 1, hb, hc, ?_⟩
  generalize l - 1 = c at hc
  have hroots := roots?_eq ray
  simp only [hb, hc, number_mul, number_sub, zero_eq, number_lt] at hroots
  obtain hneg | hdisc := lt_or_ge (b * b - c) 0
  · exact .inl ⟨hneg, by rw [hroots, if_pos hneg]⟩
  rw [if_neg (not_lt.2 hdisc)] at hroots
  have hsquare := Real.mul_self_sqrt hdisc
  have hnonneg := Real.sqrt_nonneg (b * b - c)
  obtain ⟨q, hq, hroot, hzero⟩ : ∃ q : ℝ, stableRoot ray = number q ∧
      q * q + 2 * b * q + c = 0 ∧ (q = 0 → b = 0) := by
    simp only [stableRoot, hb, hc, number_mul, number_sub, sqrt_number _ hdisc, zero_eq, number_lt,
      number_neg, number_add]
    generalize √(b * b - c) = root at hsquare hnonneg
    split
    next hpos => exact ⟨_, rfl, by linear_combination hsquare, fun h => by linarith⟩
    next hpos => exact ⟨_, rfl, by linear_combination hsquare, fun h => by linarith⟩
  rw [hq] at hroots
  obtain ⟨x₀, x₁, hpair, hle, hsome⟩ : ∃ x₀ x₁ : ℝ, StablePair q c x₀ x₁ ∧ x₀ ≤ x₁ ∧
      roots? ray = some (number x₀, number x₁) := by
    by_cases hq0 : q = 0
    · exact ⟨0, 0, .zero hq0, le_rfl, by simpa [hq0] using hroots⟩
    · have hne : ((number q : Exact z) == number 0) = false := by simp [hq0]
      simp only [hne, number_div _ _ hq0] at hroots
      obtain hlt | hle := lt_or_ge (c / q) q
      · exact ⟨_, _, .quotientFirst hq0, hlt.le, by simpa [hlt] using hroots⟩
      · exact ⟨_, _, .quotientLast hq0, hle, by simpa [not_lt.2 hle] using hroots⟩
  exact .inr ⟨q, x₀, x₁, hq, hpair, hle, hsome, hpair.factor hroot hzero⟩

/-- The distance that is chosen is a real number. -/
theorem isReal_distance? (hray : ray.IsReal) {t : Exact z} (h : distance? ray = some t) :
    ∃ x : ℝ, t = number x := by
  obtain ⟨b, c, -, -, ⟨-, hnone⟩ | ⟨q, x₀, x₁, -, -, -, hsome, -⟩⟩ := exists_stablePair hray
  · simp [distance?, hnone] at h
  · simp only [distance?, hsome] at h
    split_ifs at h
    · exact ⟨x₀, (Option.some.inj h).symm⟩
    · exact ⟨x₁, (Option.some.inj h).symm⟩

/-! ## Points of the sphere -/

/-- The point of the ray at a distance is on the sphere. -/
def IsOn (ray : Ray (Exact z)) (t : ℝ) : Prop := (ray.pointAt (number t)).lengthSquared = 1

/-- Two distances are the roots of the equation of the sphere along the ray, the smaller first and
each as often as it is a root. -/
structure AreRoots (ray : Ray (Exact z)) (x₀ x₁ : ℝ) : Prop where
  le : x₀ ≤ x₁
  factor : ∀ t : ℝ,
    (ray.pointAt (number t)).lengthSquared - 1 = number ((t - x₀) * (t - x₁))

/-- The first point of the sphere on the ray that is not too close to its origin. -/
def IsFirstAhead (ray : Ray (Exact z)) (t : ℝ) : Prop :=
  IsLeast {t : ℝ | Scalar.epsilon < (number t : Exact z) ∧ IsOn ray t} t

/-- The squared distance from the center along a ray with unit direction. -/
theorem lengthSquared_pointAt (hray : ray.IsUnit) {b c : ℝ}
    (hb : ray.origin.dot ray.direction = number b) (hc : ray.origin.lengthSquared - 1 = number c)
    (t : ℝ) : (ray.pointAt (number t)).lengthSquared = number (t * t + 2 * b * t + c + 1) := by
  obtain ⟨⟨⟨ox, oy, oz, ho⟩, ⟨dx, dy, dz, hd⟩⟩, hunit⟩ := hray
  rw [hd, Vec3.length_mk_eq_one] at hunit
  simp only [ho, hd, Vec3.dot, Vec3.lengthSquared, number_mul, number_add, one_eq, number_sub,
    number_inj] at hb hc
  simp only [Ray.pointAt, ho, hd, Vec3.smul_mk, Vec3.mk_add, Vec3.lengthSquared, Vec3.dot,
    number_mul, number_add, number_inj]
  linear_combination t * t * hunit + 2 * t * hb + hc

theorem AreRoots.isOn_iff {x₀ x₁ : ℝ} (h : AreRoots ray x₀ x₁) (hray : ray.IsReal) (t : ℝ) :
    IsOn ray t ↔ t = x₀ ∨ t = x₁ := by
  obtain ⟨l, hl⟩ : ∃ l : ℝ, (ray.pointAt (number t)).lengthSquared = number l :=
    (hray.pointAt t).dot (hray.pointAt t)
  have hfactor := h.factor t
  rw [hl, one_eq, number_sub, number_inj] at hfactor
  rw [IsOn, hl, one_eq, number_inj, ← sub_eq_zero, hfactor, mul_eq_zero, sub_eq_zero, sub_eq_zero]

/-- What is computed for a unit direction: nothing if the ray misses the sphere, and all roots
otherwise. -/
theorem roots?_cases (hray : ray.IsUnit) :
    (roots? ray = none ∧ ∀ t, ¬IsOn ray t) ∨
      ∃ q c x₀ x₁ : ℝ, stableRoot ray = number q ∧ ray.origin.lengthSquared - 1 = number c ∧
        StablePair q c x₀ x₁ ∧ roots? ray = some (number x₀, number x₁) ∧ AreRoots ray x₀ x₁ := by
  obtain ⟨b, c, hb, hc, ⟨hneg, hnone⟩ | ⟨q, x₀, x₁, hq, hpair, hle, hsome, hfactor⟩⟩ :=
    exists_stablePair hray.toIsReal
  · refine .inl ⟨hnone, fun t hon => ?_⟩
    rw [IsOn, lengthSquared_pointAt hray hb hc, one_eq, number_inj] at hon
    nlinarith [mul_self_nonneg (t + b)]
  · refine .inr ⟨q, c, x₀, x₁, hq, hc, hpair, hsome, hle, fun t => ?_⟩
    rw [lengthSquared_pointAt hray hb hc, one_eq, number_sub, number_inj, add_sub_cancel_right,
      hfactor]

/-- Of two roots the first one ahead is the smaller one, unless that is not ahead. -/
theorem AreRoots.isFirstAhead_iff {x₀ x₁ : ℝ} (h : AreRoots ray x₀ x₁) (hray : ray.IsReal)
    (x : ℝ) :
    IsFirstAhead ray x ↔ (3e-4 < x₀ ∧ x = x₀) ∨ (¬3e-4 < x₀ ∧ 3e-4 < x₁ ∧ x = x₁) := by
  simp only [IsFirstAhead, h.isOn_iff hray, epsilon_eq, number_lt]
  constructor
  · rintro ⟨⟨hahead, rfl | rfl⟩, hleast⟩
    · exact .inl ⟨hahead, rfl⟩
    · by_cases h₀ : 3e-4 < x₀
      · exact .inl ⟨h₀, le_antisymm (hleast ⟨h₀, .inl rfl⟩) h.le⟩
      · exact .inr ⟨h₀, hahead, rfl⟩
  · rintro (⟨h₀, rfl⟩ | ⟨h₀, h₁, rfl⟩)
    · refine ⟨⟨h₀, .inl rfl⟩, ?_⟩
      rintro t ⟨-, rfl | rfl⟩
      · exact le_rfl
      · exact h.le
    · refine ⟨⟨h₁, .inr rfl⟩, ?_⟩
      rintro t ⟨ht, rfl | rfl⟩
      · exact absurd ht h₀
      · exact le_rfl

/-- The distance that is chosen is that of the first point ahead. -/
theorem distance?_eq_some_iff (hray : ray.IsUnit) (t : Exact z) :
    distance? ray = some t ↔ ∃ x : ℝ, t = number x ∧ IsFirstAhead ray x := by
  obtain ⟨hnone, hmiss⟩ | ⟨q, c, x₀, x₁, -, -, -, hsome, hroots⟩ := roots?_cases hray
  · simp only [distance?, hnone, reduceCtorEq, false_iff]
    rintro ⟨x, -, hfirst⟩
    exact hmiss x hfirst.1.2
  · simp only [distance?, hsome, hroots.isFirstAhead_iff hray.toIsReal, epsilon_eq, number_lt]
    split_ifs with h₀ h₁
    · simp [h₀, eq_comm]
    · simp [h₀, h₁, eq_comm]
    · simp [h₀, h₁]

/-- With a unit direction, and a limit that is a number or infinite, a query hits the sphere exactly
if the first point of it ahead is nearer than the limit, and records that point.  Behind it stand
two roots, found without a division by zero, that are all points of the sphere on the ray. -/
theorem intersect_finds_first (hray : ray.IsUnit) (hit : Hit (Exact z))
    (hlimit : Scalar.isNaN hit.t = false) :
    ((intersect ray hit).1 = true ↔ ∃ t : ℝ, IsFirstAhead ray t ∧ number t < hit.t) ∧
      (∀ t : ℝ, IsFirstAhead ray t → number t < hit.t → (intersect ray hit).2 =
        { hit with t := number t, surface := surfaceAt (ray.pointAt (number t)) }) ∧
      ((roots? ray = none ∧ ∀ t, ¬IsOn ray t) ∨
        ∃ q c x₀ x₁ : ℝ, stableRoot ray = number q ∧ ray.origin.lengthSquared - 1 = number c ∧
          StablePair q c x₀ x₁ ∧ roots? ray = some (number x₀, number x₁) ∧
          AreRoots ray x₀ x₁) := by
  have hchosen := distance?_eq_some_iff hray
  have hfound (t : ℝ) (hfirst : IsFirstAhead ray t) (hnear : number t < hit.t) :
      intersect ray hit =
        (true, { hit with t := number t, surface := surfaceAt (ray.pointAt (number t)) }) := by
    have hdistance : distance? ray = some (number t) := (hchosen _).2 ⟨t, rfl, hfirst⟩
    rw [intersect, hdistance]
    exact if_neg fun hle => Scalar.not_lt_of_le hle hnear
  refine ⟨⟨fun hhit => ?_, ?_⟩, fun t hfirst hnear => by rw [hfound t hfirst hnear],
    roots?_cases hray⟩
  · rw [intersect] at hhit
    split at hhit
    · cases hhit
    next t hdistance =>
      obtain ⟨x, rfl, hfirst⟩ := (hchosen t).1 hdistance
      split at hhit
      · cases hhit
      next hle => exact ⟨x, hfirst, Scalar.lt_of_not_le (by simp) hlimit hle⟩
  · rintro ⟨t, hfirst, hnear⟩
    rw [hfound t hfirst hnear]

/-- From a point of the sphere a ray through the center meets the sphere at the other end. -/
theorem intersect_finds_first_across :
    let ray : Ray (Exact .plus) := .towardsOrigin ⟨0, 0, 1⟩ 1
    (intersect ray (.unbounded (-ray.direction))).1 = true ∧
      (intersect ray (.unbounded (-ray.direction))).2.t = number 2 := by
  intro ray
  have hray : ray.IsUnit := Ray.isUnit_towardsOrigin (by norm_num) 1
  have hfirst : IsFirstAhead ray 2 := by
    have hon (t : ℝ) : IsOn ray t ↔ t = 0 ∨ t = 2 := by
      have hsquare : (ray.pointAt (number t)).lengthSquared = number ((t - 1) * (t - 1)) := by
        simp [ray, Ray.towardsOrigin, Ray.pointAt, Vec3.ofReal, Vec3.lengthSquared, Vec3.dot]
        ring
      rw [IsOn, hsquare, one_eq, number_inj]
      constructor
      · intro h
        have hproduct : t * (t - 2) = 0 := by linarith
        simpa [sub_eq_zero] using hproduct
      · rintro (rfl | rfl) <;> norm_num
    refine ⟨⟨by norm_num, (hon 2).2 (.inr rfl)⟩, ?_⟩
    rintro t ⟨hahead, h⟩
    obtain rfl | rfl := (hon t).1 h
    · norm_num at hahead
    · exact le_rfl
  obtain ⟨hiff, hrecord, -⟩ := intersect_finds_first hray (.unbounded (-ray.direction))
    (by simp [Hit.unbounded, Hit.within, Scalar.infinity])
  exact ⟨hiff.2 ⟨2, hfirst, lt_infinity 2⟩, by rw [hrecord 2 hfirst (lt_infinity 2)]⟩

end Sphere

end Radiance
