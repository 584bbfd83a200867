import Radiance.Proofs.Geometry.RealVector

/-!
# Signs of exact scalars

Real numbers of a known sign, among the exact scalars, and colors without negative channels.  Sums,
products and quotients keep the sign as they do among the reals, as long as no divisor is zero.

## Main definitions

* `Exact.IsNonneg`, `Exact.IsPos`, `Exact.IsFraction`: real numbers at least zero, above zero, and
  between zero and one.
* `Vec3.IsNonneg`: a color with such channels.
* `Vec3.AtMost`: one color is at most another, channel by channel.
-/

namespace Radiance

variable {z : ZeroSign}

namespace Exact

/-- A real number. -/
def IsReal (a : Exact z) : Prop := ∃ x : ℝ, a = number x

/-- A real number that is not negative. -/
def IsNonneg (a : Exact z) : Prop := ∃ x : ℝ, 0 ≤ x ∧ a = number x

/-- A positive real number. -/
def IsPos (a : Exact z) : Prop := ∃ x : ℝ, 0 < x ∧ a = number x

/-- A real number from zero to one. -/
def IsFraction (a : Exact z) : Prop := ∃ x : ℝ, 0 ≤ x ∧ x ≤ 1 ∧ a = number x

variable {a b : Exact z}

theorem isReal_number (x : ℝ) : (number x : Exact z).IsReal := ⟨x, rfl⟩

theorem isPos_number {x : ℝ} (h : 0 < x) : (number x : Exact z).IsPos := ⟨x, h, rfl⟩

theorem isNonneg_zero : (0 : Exact z).IsNonneg := ⟨0, le_rfl, zero_eq⟩

theorem isPos_one : (1 : Exact z).IsPos := ⟨1, one_pos, one_eq⟩

theorem IsPos.isNonneg (h : a.IsPos) : a.IsNonneg := by
  obtain ⟨x, hx, rfl⟩ := h
  exact ⟨x, hx.le, rfl⟩

theorem IsFraction.isNonneg (h : a.IsFraction) : a.IsNonneg := by
  obtain ⟨x, hx, -, rfl⟩ := h
  exact ⟨x, hx, rfl⟩

theorem IsNonneg.isReal (h : a.IsNonneg) : a.IsReal := by
  obtain ⟨x, -, rfl⟩ := h
  exact ⟨x, rfl⟩

theorem IsReal.add (ha : a.IsReal) (hb : b.IsReal) : (a + b).IsReal := by
  obtain ⟨x, rfl⟩ := ha
  obtain ⟨y, rfl⟩ := hb
  exact ⟨x + y, number_add x y⟩

theorem IsReal.div (ha : a.IsReal) (hb : b.IsPos) : (a / b).IsReal := by
  obtain ⟨x, rfl⟩ := ha
  obtain ⟨y, hy, rfl⟩ := hb
  exact ⟨x / y, number_div x y hy.ne'⟩

theorem IsNonneg.add (ha : a.IsNonneg) (hb : b.IsNonneg) : (a + b).IsNonneg := by
  obtain ⟨x, hx, rfl⟩ := ha
  obtain ⟨y, hy, rfl⟩ := hb
  exact ⟨x + y, add_nonneg hx hy, number_add x y⟩

theorem IsPos.add (ha : a.IsPos) (hb : b.IsNonneg) : (a + b).IsPos := by
  obtain ⟨x, hx, rfl⟩ := ha
  obtain ⟨y, hy, rfl⟩ := hb
  exact ⟨x + y, add_pos_of_pos_of_nonneg hx hy, number_add x y⟩

theorem IsNonneg.mul (ha : a.IsNonneg) (hb : b.IsNonneg) : (a * b).IsNonneg := by
  obtain ⟨x, hx, rfl⟩ := ha
  obtain ⟨y, hy, rfl⟩ := hb
  exact ⟨x * y, mul_nonneg hx hy, number_mul x y⟩

theorem IsPos.mul (ha : a.IsPos) (hb : b.IsPos) : (a * b).IsPos := by
  obtain ⟨x, hx, rfl⟩ := ha
  obtain ⟨y, hy, rfl⟩ := hb
  exact ⟨x * y, mul_pos hx hy, number_mul x y⟩

theorem IsNonneg.div (ha : a.IsNonneg) (hb : b.IsPos) : (a / b).IsNonneg := by
  obtain ⟨x, hx, rfl⟩ := ha
  obtain ⟨y, hy, rfl⟩ := hb
  exact ⟨x / y, div_nonneg hx hy.le, number_div x y hy.ne'⟩

theorem IsPos.div (ha : a.IsPos) (hb : b.IsPos) : (a / b).IsPos := by
  obtain ⟨x, hx, rfl⟩ := ha
  obtain ⟨y, hy, rfl⟩ := hb
  exact ⟨x / y, div_pos hx hy, number_div x y hy.ne'⟩

theorem IsReal.sqr (h : a.IsReal) : (Scalar.sqr a).IsNonneg := by
  obtain ⟨x, rfl⟩ := h
  exact ⟨x * x, mul_self_nonneg x, number_mul x x⟩

theorem IsPos.sqr (h : a.IsPos) : (Scalar.sqr a).IsPos := h.mul h

theorem IsReal.abs (h : a.IsReal) : (Scalar.abs a).IsNonneg := by
  obtain ⟨x, rfl⟩ := h
  exact ⟨|x|, abs_nonneg x, abs_number x⟩

theorem IsNonneg.sqrt (h : a.IsNonneg) : (Scalar.sqrt a).IsNonneg := by
  obtain ⟨x, hx, rfl⟩ := h
  exact ⟨√x, Real.sqrt_nonneg x, sqrt_number x hx⟩

theorem IsFraction.mul (ha : a.IsFraction) (hb : b.IsFraction) : (a * b).IsFraction := by
  obtain ⟨x, hx, hx', rfl⟩ := ha
  obtain ⟨y, hy, hy', rfl⟩ := hb
  exact ⟨x * y, mul_nonneg hx hy, mul_le_one₀ hx' hy hy', number_mul x y⟩

theorem IsFraction.one_sub (h : a.IsFraction) : (1 - a).IsFraction := by
  obtain ⟨x, hx, hx', rfl⟩ := h
  exact ⟨1 - x, by linarith, by linarith, by rw [one_eq, number_sub]⟩

theorem safeSqrt_number (x : ℝ) :
    (Scalar.safeSqrt (number x) : Exact z) = number √(max x 0) := by
  rw [Scalar.safeSqrt, zero_eq, max_number, sqrt_number _ (le_max_right x 0)]

/-! ### Angles -/

open Classical in
theorem isReal_atan2 (y x : ℝ) : (Scalar.atan2 (number y) (number x) : Exact z).IsReal := by
  have hangle : (Scalar.atan2 (number y) (number x) : Exact z) =
      if y = 0 ∧ x ≤ 0 ∧ z = .minus then number (-Real.pi) else number (Complex.arg ⟨x, y⟩) := rfl
  rw [hangle]
  split
  · exact isReal_number _
  · exact isReal_number _

theorem isReal_safeAcos (x : ℝ) : (Scalar.safeAcos (number x) : Exact z).IsReal := by
  obtain ⟨c, hc, hclamp⟩ : ∃ c : ℝ, |c| ≤ 1 ∧
      (Scalar.clamp (number x) (-1) 1 : Exact z) = number c := by
    simp only [Scalar.clamp, one_eq, number_neg, number_lt]
    split_ifs with hlow hhigh
    · exact ⟨-1, by simp, rfl⟩
    · exact ⟨1, by simp, rfl⟩
    · exact ⟨x, abs_le.2 ⟨not_lt.1 hlow, not_lt.1 hhigh⟩, rfl⟩
  rw [Scalar.safeAcos, hclamp]
  exact ⟨Real.arccos c, if_pos hc⟩

theorem pi_eq : (Scalar.pi : Exact z) = number Real.pi := rfl

theorem isPos_pi : (Scalar.pi : Exact z).IsPos := isPos_number Real.pi_pos

theorem isPos_two_pi : (2 * Scalar.pi : Exact z).IsPos :=
  IsPos.mul ⟨2, two_pos, ofNat_eq 2⟩ isPos_pi

/-- A part of a turn as an angle. -/
theorem turn_number (x : ℝ) : (2 * Scalar.pi * number x : Exact z) = number (2 * Real.pi * x) := by
  rw [pi_eq, ofNat_eq, number_mul, number_mul]

theorem isPos_invPi : (Scalar.invPi : Exact z).IsPos := isPos_one.div isPos_pi

/-! ### The sign as a factor -/

open Classical in
/-- The sign of a number, as one or minus one on its side. -/
theorem exists_copySign (x : ℝ) :
    ∃ s : ℝ, (Scalar.copySign (number 1) (number x) : Exact z) = number s ∧
      s * s = 1 ∧ 0 ≤ s * x := by
  have hsign : (Scalar.copySign (number 1) (number x) : Exact z) =
      if isMinus (number x : Exact z) then number (-1) else number 1 := by
    change (if isMinus (number x : Exact z) then neg (Exact.abs (number 1))
      else Exact.abs (number 1)) = _
    simp [Exact.abs, Exact.neg]
  rw [hsign]
  split
  next hminus =>
    refine ⟨-1, rfl, by norm_num, ?_⟩
    obtain hneg | ⟨rfl, -⟩ := hminus
    · linarith
    · norm_num
  next hplus =>
    have hpos : ¬x < 0 := fun h => hplus (.inl h)
    exact ⟨1, rfl, by norm_num, by linarith⟩

end Exact

/-! ## Colors -/

namespace Vec3

/-- A color whose channels are real numbers and not negative. -/
structure IsNonneg (c : Color (Exact z)) : Prop where
  x : c.x.IsNonneg
  y : c.y.IsNonneg
  z : c.z.IsNonneg

/-- One color is at most another, channel by channel. -/
structure AtMost (a b : Color (Exact z)) : Prop where
  x : a.x ≤ b.x
  y : a.y ≤ b.y
  z : a.z ≤ b.z

variable {a b c : Color (Exact z)} {s : Exact z}

theorem isNonneg_splat (h : s.IsNonneg) : (splat s : Color (Exact z)).IsNonneg := ⟨h, h, h⟩

theorem isNonneg_zero : (zero : Color (Exact z)).IsNonneg := isNonneg_splat Exact.isNonneg_zero

theorem isNonneg_one : (one : Color (Exact z)).IsNonneg := isNonneg_splat Exact.isPos_one.isNonneg

namespace IsNonneg

theorem add (ha : a.IsNonneg) (hb : b.IsNonneg) : (a + b).IsNonneg :=
  ⟨ha.x.add hb.x, ha.y.add hb.y, ha.z.add hb.z⟩

theorem mul (ha : a.IsNonneg) (hb : b.IsNonneg) : (a * b).IsNonneg :=
  ⟨ha.x.mul hb.x, ha.y.mul hb.y, ha.z.mul hb.z⟩

theorem smul (hs : s.IsNonneg) (ha : a.IsNonneg) : (s • a).IsNonneg :=
  ⟨hs.mul ha.x, hs.mul ha.y, hs.mul ha.z⟩

theorem div (ha : a.IsNonneg) (hs : s.IsPos) : (a / s).IsNonneg :=
  ⟨ha.x.div hs, ha.y.div hs, ha.z.div hs⟩

theorem mean (ha : a.IsNonneg) : a.mean.IsNonneg :=
  ((ha.x.add ha.y).add ha.z).div ⟨3, by norm_num, by simp⟩

end IsNonneg

namespace AtMost

theorem trans (hab : a.AtMost b) (hbc : b.AtMost c) : a.AtMost c :=
  ⟨Scalar.le_trans hab.x hbc.x, Scalar.le_trans hab.y hbc.y, Scalar.le_trans hab.z hbc.z⟩

theorem refl (ha : a.IsNonneg) : a.AtMost a := by
  have hself {s : Exact z} (h : s.IsNonneg) : s ≤ s := by
    obtain ⟨x, -, rfl⟩ := h
    simp
  exact ⟨hself ha.x, hself ha.y, hself ha.z⟩

/-- Adding light takes none away. -/
theorem add (ha : a.IsNonneg) (hb : b.IsNonneg) : a.AtMost (a + b) := by
  have hadd {s t : Exact z} (hs : s.IsNonneg) (ht : t.IsNonneg) : s ≤ s + t := by
    obtain ⟨x, -, rfl⟩ := hs
    obtain ⟨y, hy, rfl⟩ := ht
    simpa using hy
  exact ⟨hadd ha.x hb.x, hadd ha.y hb.y, hadd ha.z hb.z⟩

end AtMost

end Vec3

end Radiance
