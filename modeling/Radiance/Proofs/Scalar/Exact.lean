import Radiance.Proofs.Scalar.Order

/-!
# Exact scalars

Scalars without rounding: the real numbers, two infinities and one undefined value, which arise
where the rules of IEEE 754 say so.  A real zero has no sign, so the sign that zeros are read with
is a parameter; it decides what a division by zero gives.

## Main definitions

* `Exact`: the exact scalars, with their `Scalar` operations.
* `Exact.number`: a real number as an exact scalar.

## Main statements

* `Exact` is ordered: `Exact.isOrdered`.
* `Exact.number_mul_add`, `Exact.number_mul_number_mul`: real factors distribute and associate.
-/

namespace Radiance

open Classical

/-- The sign that zeros are read with. -/
inductive ZeroSign
  | plus | minus

/-- A real number, one of the two infinities, or undefined. -/
inductive Exact (z : ZeroSign)
  | undefined
  | negInfinity
  | number (x : ℝ)
  | infinity

namespace Exact

variable {z : ZeroSign}

/-! ## Operations -/

def neg : Exact z → Exact z
  | undefined => undefined
  | negInfinity => infinity
  | number x => number (-x)
  | infinity => negInfinity

noncomputable def add : Exact z → Exact z → Exact z
  | number x, number y => number (x + y)
  | infinity, number _ | number _, infinity | infinity, infinity => infinity
  | negInfinity, number _ | number _, negInfinity | negInfinity, negInfinity => negInfinity
  | _, _ => undefined

/-- Infinity under the sign of a number; zero times infinity is undefined. -/
noncomputable def infinityTimes (x : ℝ) : Exact z :=
  if 0 < x then infinity else if x < 0 then negInfinity else undefined

noncomputable def mul : Exact z → Exact z → Exact z
  | number x, number y => number (x * y)
  | infinity, number x | number x, infinity => infinityTimes x
  | negInfinity, number x | number x, negInfinity => infinityTimes (-x)
  | infinity, infinity | negInfinity, negInfinity => infinity
  | infinity, negInfinity | negInfinity, infinity => negInfinity
  | _, _ => undefined

/-- The reciprocal; that of zero is infinite. -/
noncomputable def inv : Exact z → Exact z
  | undefined => undefined
  | infinity | negInfinity => number 0
  | number x =>
    if x = 0 then
      match z with
      | .plus => infinity
      | .minus => negInfinity
    else number x⁻¹

def lt : Exact z → Exact z → Prop
  | number x, number y => x < y
  | negInfinity, number _ | negInfinity, infinity | number _, infinity => True
  | _, _ => False

def le (a b : Exact z) : Prop := lt a b ∨ a = b ∧ a ≠ undefined

noncomputable def sqrt : Exact z → Exact z
  | number x => if x < 0 then undefined else number √x
  | infinity => infinity
  | _ => undefined

noncomputable def abs : Exact z → Exact z
  | undefined => undefined
  | number x => number |x|
  | _ => infinity

noncomputable def floor : Exact z → Exact z
  | number x => number ⌊x⌋
  | a => a

/-- Whether a number has a minus sign. -/
def isMinus : Exact z → Prop
  | number x => x < 0 ∨ x = 0 ∧ z = .minus
  | negInfinity => True
  | _ => False

/-- A function of the real numbers alone. -/
def onNumber (f : ℝ → Exact z) : Exact z → Exact z
  | number x => f x
  | _ => undefined

/-- The signs of the infinite coordinates of a point, which give its angle; a finite coordinate does
not count beside an infinite one. -/
def direction : Exact z → ℝ
  | infinity => 1
  | negInfinity => -1
  | _ => 0

noncomputable def atan2 : Exact z → Exact z → Exact z
  | undefined, _ | _, undefined => undefined
  | number y, number x =>
    if y = 0 ∧ x ≤ 0 ∧ z = .minus then number (-Real.pi) else number (Complex.arg ⟨x, y⟩)
  | y, x => number (Complex.arg ⟨x.direction, y.direction⟩)

noncomputable def pow : Exact z → Exact z → Exact z
  | number x, number y =>
    if x = 0 ∧ y < 0 then infinity
    else if x < 0 ∧ ¬∃ n : ℤ, y = n then undefined
    else number (x ^ y)
  | infinity, number y => if 0 < y then infinity else if y = 0 then number 1 else number 0
  | _, _ => undefined

noncomputable def toInt64 : Exact z → Int64
  | undefined => 0
  | infinity => Int64.maxValue
  | negInfinity => Int64.minValue
  | number x =>
    let n : ℤ := if x < 0 then ⌈x⌉ else ⌊x⌋
    .ofInt (max (-2 ^ 63) (min n (2 ^ 63 - 1)))

noncomputable instance : Scalar (Exact z) where
  add := add
  sub a b := add a (neg b)
  mul := mul
  div a b := mul a (inv b)
  neg := neg
  lt := lt
  le := le
  beq a b := decide (a = b ∧ a ≠ undefined)
  decidableLT _ _ := propDecidable _
  decidableLE _ _ := propDecidable _
  ofNat n := number n
  ofScientific m s e := number (OfScientific.ofScientific m s e)
  infinity := infinity
  pi := number Real.pi
  sqrt := sqrt
  abs := abs
  floor := floor
  copySign a b := if isMinus b then neg (abs a) else abs a
  sin := onNumber fun x => number (Real.sin x)
  cos := onNumber fun x => number (Real.cos x)
  tan := onNumber fun x => number (Real.tan x)
  acos := onNumber fun x => if |x| ≤ 1 then number (Real.arccos x) else undefined
  atan2 := atan2
  pow := pow
  toInt64 := toInt64

/-! ## Numbers

The operations on real numbers are those of the reals. -/

section Numbers

variable (x y : ℝ)

@[simp] theorem number_add : (number x + number y : Exact z) = number (x + y) := rfl

@[simp] theorem number_sub : (number x - number y : Exact z) = number (x - y) := by
  rw [sub_eq_add_neg]
  rfl

@[simp] theorem number_mul : (number x * number y : Exact z) = number (x * y) := rfl

@[simp] theorem number_neg : (-number x : Exact z) = number (-x) := rfl

theorem div_def (a b : Exact z) : a / b = a * inv b := rfl

@[simp] theorem inv_number (h : y ≠ 0) : (inv (number y) : Exact z) = number y⁻¹ := by
  simp [inv, h]

theorem number_div (h : y ≠ 0) : (number x / number y : Exact z) = number (x / y) := by
  rw [div_def, inv_number y h, number_mul, div_eq_mul_inv]

@[simp] theorem number_lt : (number x : Exact z) < number y ↔ x < y := Iff.rfl

@[simp] theorem number_le : (number x : Exact z) ≤ number y ↔ x ≤ y := by
  have h : (number x : Exact z) ≤ number y ↔ x < y ∨ x = y := by
    refine Iff.trans (Iff.rfl : _ ↔ x < y ∨ (number x : Exact z) = number y ∧ _ ≠ _) ?_
    simp
  rw [h, le_iff_lt_or_eq]

@[simp] theorem number_inj : (number x : Exact z) = number y ↔ x = y := by
  simp only [number.injEq]

@[simp] theorem number_beq : ((number x : Exact z) == number y) = decide (x = y) := by
  change decide _ = _
  simp

theorem beq_iff (a b : Exact z) : (a == b) = true ↔ a = b ∧ a ≠ undefined := by
  refine Iff.trans (Iff.rfl : _ ↔ decide _ = true) ?_
  simp

@[simp] theorem zero_eq : (0 : Exact z) = number 0 := congrArg number Nat.cast_zero

@[simp] theorem one_eq : (1 : Exact z) = number 1 := congrArg number Nat.cast_one

@[simp] theorem ofNat_eq (n : Nat) [n.AtLeastTwo] :
    (OfNat.ofNat n : Exact z) = number (OfNat.ofNat n) := rfl

@[simp] theorem ofScientific_eq (m : Nat) (s : Bool) (e : Nat) :
    (OfScientific.ofScientific m s e : Exact z) = number (OfScientific.ofScientific m s e) := rfl

theorem sqrt_number (h : 0 ≤ x) : (Scalar.sqrt (number x) : Exact z) = number √x := by
  change sqrt _ = _
  simp [sqrt, h]

@[simp] theorem abs_number : (Scalar.abs (number x) : Exact z) = number |x| := rfl

@[simp] theorem epsilon_eq : (Scalar.epsilon : Exact z) = number 3e-4 := rfl

@[simp] theorem isFinite_number : Scalar.isFinite (number x : Exact z) = true := by
  unfold Scalar.isFinite
  exact decide_eq_true trivial

theorem toNat_number (h : 0 ≤ x) (hx : x < 2 ^ 63) :
    Scalar.toNat (number x : Exact z) = ⌊x⌋₊ := by
  have hnonneg : 0 ≤ ⌊x⌋ := Int.floor_nonneg.2 h
  have hlt : ⌊x⌋ < 2 ^ 63 := Int.floor_lt.2 (by exact_mod_cast hx)
  change (toInt64 (number x : Exact z)).toInt.toNat = _
  rw [toInt64, if_neg h.not_gt, min_eq_left (by omega), max_eq_right (by omega),
    Int64.toInt_ofInt_of_le (by omega) hlt]
  rfl

end Numbers

theorem exists_number_of_isFinite {a : Exact z} (h : Scalar.isFinite a = true) :
    ∃ x, a = number x := by
  unfold Scalar.isFinite at h
  replace h : lt (abs a) infinity := of_decide_eq_true h
  cases a with
  | number x => exact ⟨x, rfl⟩
  | _ => simp [abs, lt] at h

/-! ## Order -/

theorem lt_def (a b : Exact z) : a < b ↔ lt a b := Iff.rfl

theorem le_def (a b : Exact z) : a ≤ b ↔ a < b ∨ a = b ∧ a ≠ undefined := Iff.rfl

@[simp] theorem isNaN_eq_false_iff {a : Exact z} : Scalar.isNaN a = false ↔ a ≠ undefined := by
  unfold Scalar.isNaN
  have h : (a == a) = decide (a = a ∧ a ≠ undefined) := rfl
  simp [h]

@[simp] theorem isNaN_eq_true_iff {a : Exact z} : Scalar.isNaN a = true ↔ a = undefined := by
  rw [← not_iff_not, Bool.not_eq_true]
  exact isNaN_eq_false_iff

instance isOrdered : Scalar.IsOrdered (Exact z) where
  lt_asymm {a b} hab hba := by
    rw [lt_def] at hab hba
    cases a <;> cases b <;> simp only [lt] at hab hba
    exact lt_asymm hab hba
  lt_or_lt {a b c} hab hc := by
    rw [isNaN_eq_false_iff] at hc
    simp only [lt_def] at hab ⊢
    cases c with
    | undefined => exact absurd rfl hc
    | negInfinity => cases a <;> cases b <;> simp_all [lt]
    | infinity => cases a <;> cases b <;> simp_all [lt]
    | number y =>
      cases a <;> cases b <;> simp only [lt, or_true, true_or] at hab ⊢
      exact (lt_or_ge _ y).imp_right fun h => h.trans_lt hab
  isNaN_of_lt {a b} hab := by
    rw [lt_def] at hab
    simp only [isNaN_eq_false_iff]
    cases a <;> cases b <;> simp_all [lt]
  le_iff {a b} := by
    simp only [isNaN_eq_false_iff, le_def, lt_def]
    cases a <;> cases b <;> simp [lt, le_iff_lt_or_eq]

section

variable {a b : Exact z} {x s o d h : ℝ}

theorem le_infinity (h : a ≠ undefined) : a ≤ infinity := by
  rw [le_def, lt_def]
  cases a <;> simp_all [lt]

theorem not_infinity_lt : ¬infinity < a := by
  rw [lt_def]
  cases a <;> simp [lt]

theorem lt_infinity (x : ℝ) : (number x : Exact z) < infinity := trivial

theorem negInfinity_lt (x : ℝ) : (negInfinity : Exact z) < number x := trivial

theorem sub_neg_of_lt (h : a < b) : a - b < 0 := by
  change lt (add a (neg b)) 0
  rw [lt_def] at h
  cases a <;> cases b <;> simp_all [lt, add, neg]

theorem min_number (x y : ℝ) :
    (Scalar.min (number x) (number y) : Exact z) = number (min x y) := by
  obtain h | h := lt_or_ge y x
  · simp [Scalar.min, h, min_eq_right h.le]
  · simp [Scalar.min, not_lt_of_ge h, min_eq_left h]

theorem max_number (x y : ℝ) :
    (Scalar.max (number x) (number y) : Exact z) = number (max x y) := by
  obtain h | h := lt_or_ge x y
  · simp [Scalar.max, h, max_eq_right h.le]
  · simp [Scalar.max, not_lt_of_ge h, max_eq_left h]

@[simp] theorem min_undefined (a : Exact z) : Scalar.min a undefined = a := by
  cases a <;> simp [Scalar.min, lt_def, lt]

@[simp] theorem undefined_min (a : Exact z) : Scalar.min undefined a = a := by
  cases a <;> simp [Scalar.min, lt_def, lt]

@[simp] theorem max_undefined (a : Exact z) : Scalar.max a undefined = a := by
  cases a <;> simp [Scalar.max, lt_def, lt]

@[simp] theorem undefined_max (a : Exact z) : Scalar.max undefined a = a := by
  cases a <;> simp [Scalar.max, lt_def, lt]

@[simp] theorem max_infinity (a : Exact z) : Scalar.max a infinity = infinity := by
  cases a <;> simp [Scalar.max, lt_def, lt]

@[simp] theorem infinity_max (a : Exact z) : Scalar.max infinity a = infinity := by
  cases a <;> simp [Scalar.max, lt_def, lt]

theorem infinity_min (h : a ≠ undefined) : Scalar.min infinity a = a := by
  cases a <;> simp_all [Scalar.min, lt_def, lt]

theorem negInfinity_max (h : a ≠ undefined) : Scalar.max negInfinity a = a := by
  cases a <;> simp_all [Scalar.max, lt_def, lt]

@[simp] theorem min_negInfinity (a : Exact z) : Scalar.min a negInfinity = negInfinity := by
  cases a <;> simp [Scalar.min, lt_def, lt]

@[simp] theorem negInfinity_min (a : Exact z) : Scalar.min negInfinity a = negInfinity := by
  cases a <;> simp [Scalar.min, lt_def, lt]

/-! ### Shifts and stretches -/

theorem sub_def (a b : Exact z) : a - b = add a (neg b) := rfl

theorem mul_def (a b : Exact z) : a * b = mul a b := rfl

theorem mul_number_le_of_pos (h : a ≤ b) (hs : 0 < s) : a * number s ≤ b * number s := by
  simp only [le_def, lt_def, mul_def] at h ⊢
  cases a <;> cases b <;> simp_all [lt, mul, infinityTimes, not_lt_of_gt hs, hs.ne']

theorem mul_number_ne_undefined (ha : a ≠ undefined) (hs : 0 < s) : a * number s ≠ undefined := by
  rw [mul_def]
  cases a <;> simp_all [mul, infinityTimes, not_lt_of_gt hs]

/-- Where a line that moves up an axis comes to a coordinate. -/
theorem sub_mul_recip_of_pos (hd : 0 < d) :
    ((a - number o) * (1 / number d) ≤ number h ↔ a ≤ number (o + h * d)) ∧
      (number h ≤ (a - number o) * (1 / number d) ↔ number (o + h * d) ≤ a) := by
  have hinv : 0 < d⁻¹ := inv_pos.2 hd
  rw [one_eq, number_div _ _ hd.ne', one_div]
  cases a with
  | number x =>
    simp only [number_sub, number_mul, number_le, ← div_eq_mul_inv, div_le_iff₀ hd, le_div_iff₀ hd]
    constructor <;> constructor <;> intro _ <;> linarith
  | _ => simp [le_def, lt_def, sub_def, mul_def, lt, add, neg, mul, infinityTimes, hinv,
      not_lt_of_gt hinv]

/-- Where a line that moves down comes to it. -/
theorem sub_mul_recip_of_neg (hd : d < 0) :
    ((a - number o) * (1 / number d) ≤ number h ↔ number (o + h * d) ≤ a) ∧
      (number h ≤ (a - number o) * (1 / number d) ↔ a ≤ number (o + h * d)) := by
  have hinv : d⁻¹ < 0 := inv_lt_zero.2 hd
  rw [one_eq, number_div _ _ hd.ne, one_div]
  cases a with
  | number x =>
    simp only [number_sub, number_mul, number_le, ← div_eq_mul_inv, div_le_iff_of_neg hd,
      le_div_iff_of_neg hd]
    constructor <;> constructor <;> intro _ <;> linarith
  | _ => simp [le_def, lt_def, sub_def, mul_def, lt, add, neg, mul, infinityTimes, hinv,
      not_lt_of_gt hinv]

/-! ### Next to infinity -/

theorem recip_zero :
    (1 / number 0 : Exact z) = infinity ∨ (1 / number 0 : Exact z) = negInfinity := by
  cases z <;> simp [div_def, mul_def, inv, mul, infinityTimes]

theorem sub_mul_infinity_of_lt (h : a < number x) :
    (a - number x) * infinity = negInfinity ∧ (a - number x) * negInfinity = infinity := by
  rw [lt_def] at h
  simp only [mul_def, sub_def]
  cases a <;> simp_all [lt, add, neg, mul, infinityTimes, not_lt_of_gt]

theorem sub_mul_infinity_of_gt (h : number x < a) :
    (a - number x) * infinity = infinity ∧ (a - number x) * negInfinity = negInfinity := by
  rw [lt_def] at h
  simp only [mul_def, sub_def]
  cases a <;> simp_all [lt, add, neg, mul, infinityTimes, not_lt_of_gt]

theorem sub_self_mul_infinity (x : ℝ) :
    ((number x - number x) * infinity : Exact z) = undefined ∧
      ((number x - number x) * negInfinity : Exact z) = undefined := by
  simp [mul_def, mul, infinityTimes]

/-- A distance is scaled by a factor, or its limit by the reciprocal. -/
theorem div_number_lt_iff (hs : 0 < s) : a / number s < b ↔ a < b * number s := by
  rw [div_def, inv_number s hs.ne']
  have hinv : 0 < s⁻¹ := inv_pos.2 hs
  simp only [lt_def, mul_def]
  cases a <;> cases b <;>
    simp [lt, mul, infinityTimes, not_lt_of_gt hs, not_lt_of_gt hinv, hs, hinv]
  rw [← div_eq_mul_inv, div_lt_iff₀ hs]

end

/-! ## Laws of arithmetic -/

theorem add_def (a b : Exact z) : a + b = add a b := rfl

protected theorem add_assoc (a b c : Exact z) : a + b + c = a + (b + c) := by
  simp only [add_def]
  cases a <;> cases b <;> cases c <;> simp [add, add_assoc]

protected theorem zero_add (a : Exact z) : 0 + a = a := by
  rw [zero_eq, add_def]
  cases a <;> simp [add]

protected theorem add_zero (a : Exact z) : a + 0 = a := by
  rw [zero_eq, add_def]
  cases a <;> simp [add]

protected theorem one_mul (a : Exact z) : 1 * a = a := by
  rw [one_eq, mul_def]
  cases a <;> simp [mul, infinityTimes]

protected theorem mul_comm (a b : Exact z) : a * b = b * a := by
  simp only [mul_def]
  cases a <;> cases b <;> simp [mul, mul_comm]

theorem infinityTimes_mul (x y : ℝ) :
    (infinityTimes x * number y : Exact z) = infinityTimes (x * y) := by
  obtain hx | rfl | hx := lt_trichotomy x 0
  · obtain hy | rfl | hy := lt_trichotomy y 0
    · simp [mul_def, mul, infinityTimes, hx, hy, not_lt_of_gt, mul_pos_of_neg_of_neg]
    · simp [mul_def, mul, infinityTimes, hx, not_lt_of_gt]
    · simp [mul_def, mul, infinityTimes, hx, hy, not_lt_of_gt, mul_neg_of_neg_of_pos]
  · simp [mul_def, mul, infinityTimes]
  · obtain hy | rfl | hy := lt_trichotomy y 0
    · simp [mul_def, mul, infinityTimes, hx, hy, not_lt_of_gt, mul_neg_of_pos_of_neg]
    · simp [mul_def, mul, infinityTimes, hx]
    · simp [mul_def, mul, infinityTimes, hx, hy]

/-- Two real factors can be taken together, whatever they are applied to. -/
theorem mul_number_mul_number (a : Exact z) (x y : ℝ) :
    a * number x * number y = a * number (x * y) := by
  cases a with
  | undefined => rfl
  | number w => simp [mul_assoc]
  | infinity => exact infinityTimes_mul x y
  | negInfinity =>
    refine (infinityTimes_mul (-x) y).trans ?_
    rw [neg_mul]
    rfl

theorem number_mul_number_mul (x y : ℝ) (a : Exact z) :
    number (x * y) * a = number x * (number y * a) := by
  rw [Exact.mul_comm _ a, Exact.mul_comm (number y) a, Exact.mul_comm (number x),
    mul_number_mul_number, mul_comm]

theorem div_number_div_number (a : Exact z) {x y : ℝ} (hx : x ≠ 0) (hy : y ≠ 0) :
    a / number x / number y = a / number (x * y) := by
  rw [div_def, div_def, div_def, inv_number _ hx, inv_number _ hy, inv_number _ (mul_ne_zero hx hy),
    mul_number_mul_number, mul_inv]

protected theorem div_one (a : Exact z) : a / 1 = a := by
  rw [div_def, one_eq, inv_number _ one_ne_zero, inv_one, ← one_eq, Exact.mul_comm, Exact.one_mul]

/-- A real factor is multiplied into a sum, also into an infinite or undefined one. -/
theorem number_mul_add (t : ℝ) (a b : Exact z) :
    number t * (a + b) = number t * a + number t * b := by
  simp only [mul_def, add_def]
  obtain ht | rfl | ht := lt_trichotomy t 0
  · cases a <;> cases b <;> simp [mul, add, infinityTimes, mul_add, ht, not_lt_of_gt]
  · cases a <;> cases b <;> simp [mul, add, infinityTimes]
  · cases a <;> cases b <;> simp [mul, add, infinityTimes, mul_add, ht, not_lt_of_gt]

end Exact

end Radiance
