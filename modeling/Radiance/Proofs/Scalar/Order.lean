import Mathlib
import Radiance.Scalar.Binary32

/-!
# The order of scalars

The two comparisons of scalars are false as soon as one side is undefined.  On the defined numbers
they are the strict and the weak side of one total order, in which different numbers may be level,
such as the two zeros.

## Main definitions

* `Scalar.IsOrdered`: the laws of the comparisons.

## Main statements

* `Float32` is ordered: `Binary32.isOrdered`.
-/

namespace Radiance

/-- The laws that the comparisons of scalars obey. -/
class Scalar.IsOrdered (α : Type) [Scalar α] : Prop where
  lt_asymm : ∀ {a b : α}, a < b → ¬b < a
  lt_or_lt : ∀ {a b c : α}, a < b → Scalar.isNaN c = false → a < c ∨ c < b
  isNaN_of_lt : ∀ {a b : α}, a < b → Scalar.isNaN a = false ∧ Scalar.isNaN b = false
  le_iff : ∀ {a b : α},
    a ≤ b ↔ Scalar.isNaN a = false ∧ Scalar.isNaN b = false ∧ ¬b < a

namespace Scalar

variable {α : Type} [Scalar α] {a b c : α}

/-! ## The smaller and the larger of two -/

theorem max_eq_or (a b : α) : max a b = a ∨ max a b = b := by
  unfold max
  grind

theorem min_eq_or (a b : α) : min a b = a ∨ min a b = b := by
  unfold min
  grind

theorem le_or_le_of_min_le (h : min a b ≤ c) : a ≤ c ∨ b ≤ c := by
  obtain hmin | hmin := min_eq_or a b <;> rw [hmin] at h
  · exact .inl h
  · exact .inr h

theorem le_or_le_of_le_max (h : c ≤ max a b) : c ≤ a ∨ c ≤ b := by
  obtain hmax | hmax := max_eq_or a b <;> rw [hmax] at h
  · exact .inl h
  · exact .inr h

theorem max_le (ha : a ≤ c) (hb : b ≤ c) : max a b ≤ c := by
  obtain h | h := max_eq_or a b <;> rwa [h]

theorem le_min (ha : c ≤ a) (hb : c ≤ b) : c ≤ min a b := by
  obtain h | h := min_eq_or a b <;> rwa [h]

/-! ## Comparisons -/

variable [IsOrdered α]

theorem lt_irrefl (a : α) : ¬a < a := fun h => IsOrdered.lt_asymm h h

theorem lt_trans (hab : a < b) (hbc : b < c) : a < c := by
  obtain h | h := IsOrdered.lt_or_lt hab (IsOrdered.isNaN_of_lt hbc).2
  · exact h
  · exact absurd h (IsOrdered.lt_asymm hbc)

theorem le_of_lt (h : a < b) : a ≤ b :=
  IsOrdered.le_iff.2 ⟨(IsOrdered.isNaN_of_lt h).1, (IsOrdered.isNaN_of_lt h).2,
    IsOrdered.lt_asymm h⟩

theorem le_refl (h : isNaN a = false) : a ≤ a := IsOrdered.le_iff.2 ⟨h, h, lt_irrefl a⟩

theorem le_self_of_le (h : a ≤ b) : a ≤ a := le_refl (IsOrdered.le_iff.1 h).1

theorem le_self_of_ge (h : b ≤ a) : a ≤ a := le_refl (IsOrdered.le_iff.1 h).2.1

theorem not_lt_of_le (h : a ≤ b) : ¬b < a := (IsOrdered.le_iff.1 h).2.2

theorem le_of_not_lt (ha : isNaN a = false) (hb : isNaN b = false) (h : ¬b < a) : a ≤ b :=
  IsOrdered.le_iff.2 ⟨ha, hb, h⟩

theorem lt_of_not_le (ha : isNaN a = false) (hb : isNaN b = false) (h : ¬b ≤ a) : a < b := by
  by_contra hlt
  exact h (le_of_not_lt hb ha hlt)

theorem lt_of_le_of_lt (hab : a ≤ b) (hbc : b < c) : a < c := by
  obtain h | h := IsOrdered.lt_or_lt hbc (IsOrdered.le_iff.1 hab).1
  · exact absurd h (not_lt_of_le hab)
  · exact h

theorem lt_of_lt_of_le (hab : a < b) (hbc : b ≤ c) : a < c := by
  obtain h | h := IsOrdered.lt_or_lt hab (IsOrdered.le_iff.1 hbc).2.1
  · exact h
  · exact absurd h (not_lt_of_le hbc)

theorem le_trans (hab : a ≤ b) (hbc : b ≤ c) : a ≤ c :=
  le_of_not_lt (IsOrdered.le_iff.1 hab).1 (IsOrdered.le_iff.1 hbc).2.1 fun h =>
    not_lt_of_le hab (lt_of_le_of_lt hbc h)

/-! ### The smaller and the larger of two -/

theorem min_le_of_left (h : a ≤ c) : min a b ≤ c := by
  unfold min
  split
  next hlt => exact le_trans (le_of_lt hlt) h
  next => rwa [if_neg (by simp [(IsOrdered.le_iff.1 h).1])]

theorem min_le_of_right (h : b ≤ c) : min a b ≤ c := by
  unfold min
  split
  · exact h
  next hlt =>
    split
    · exact h
    next hdefined =>
      exact le_trans (le_of_not_lt (by simpa using hdefined) (IsOrdered.le_iff.1 h).1 hlt) h

theorem le_max_of_left (h : c ≤ a) : c ≤ max a b := by
  unfold max
  split
  next hlt => exact le_trans h (le_of_lt hlt)
  next => rwa [if_neg (by simp [(IsOrdered.le_iff.1 h).2.1])]

theorem le_max_of_right (h : c ≤ b) : c ≤ max a b := by
  unfold max
  split
  · exact h
  next hlt =>
    split
    · exact h
    next hdefined =>
      exact le_trans h (le_of_not_lt (IsOrdered.le_iff.1 h).2.1 (by simpa using hdefined) hlt)

end Scalar

/-! ## Binary32 -/

namespace Binary32

open Float.Model (UnpackedFloat)

/-- The place of a number in the order: its class, then its exponent, then its mantissa. -/
def place : UnpackedFloat → Int × Int × Int
  | .infinity .negative => (-2, 0, 0)
  | .finite .negative m e _ => (-1, -e, -m)
  | .zero _ => (0, 0, 0)
  | .finite .positive m e _ => (1, e, m)
  | .infinity .positive => (2, 0, 0)
  | .notANumber => (0, 0, 0)

/-- The order of places, the first difference deciding. -/
def Precedes (x y : Int × Int × Int) : Prop :=
  x.1 < y.1 ∨ x.1 = y.1 ∧ (x.2.1 < y.2.1 ∨ x.2.1 = y.2.1 ∧ x.2.2 < y.2.2)

theorem Precedes.asymm {x y : Int × Int × Int} (h : Precedes x y) : ¬Precedes y x := by
  unfold Precedes at *
  omega

theorem Precedes.or {x y : Int × Int × Int} (h : Precedes x y) (z : Int × Int × Int) :
    Precedes x z ∨ Precedes z y := by
  unfold Precedes at *
  omega

/-- Exponents are compared before mantissas. -/
theorem compare_finite (m n : Nat) (d e : Int) :
    ((compare d e).then (compare m n) = .lt ↔ d < e ∨ d = e ∧ m < n) ∧
      ((compare d e).then (compare m n) = .gt ↔ e < d ∨ e = d ∧ n < m) := by
  simp only [Ordering.then_eq_lt, Ordering.then_eq_gt, Int.compare_eq_lt, Int.compare_eq_gt,
    Int.compare_eq_eq, Nat.compare_eq_lt, Nat.compare_eq_gt]
  grind

/-- Defined numbers compare as their places do. -/
theorem exists_compare {a b : UnpackedFloat} (ha : a.isNaN = false) (hb : b.isNaN = false) :
    ∃ o, a.compare b = some o ∧ (o = .lt ↔ Precedes (place a) (place b)) ∧
      (o = .gt ↔ Precedes (place b) (place a)) := by
  cases a with
  | notANumber => simp [UnpackedFloat.isNaN] at ha
  | infinity s =>
    cases b with
    | notANumber => simp [UnpackedFloat.isNaN] at hb
    | infinity t => cases s <;> cases t <;> simp [UnpackedFloat.compare, place, Precedes, compare]
    | zero t => cases s <;> simp [UnpackedFloat.compare, place, Precedes]
    | finite t => cases s <;> cases t <;> simp [UnpackedFloat.compare, place, Precedes]
  | zero s =>
    cases b with
    | notANumber => simp [UnpackedFloat.isNaN] at hb
    | infinity t => cases t <;> simp [UnpackedFloat.compare, place, Precedes]
    | zero t => simp [UnpackedFloat.compare, place, Precedes]
    | finite t => cases t <;> simp [UnpackedFloat.compare, place, Precedes]
  | finite s m d =>
    cases b with
    | notANumber => simp [UnpackedFloat.isNaN] at hb
    | infinity t => cases s <;> cases t <;> simp [UnpackedFloat.compare, place, Precedes]
    | zero t => cases s <;> simp [UnpackedFloat.compare, place, Precedes]
    | finite t n e =>
      obtain ⟨hlt, hgt⟩ := compare_finite m n d e
      cases s <;> cases t
      · -- Among negative numbers the larger exponent comes first.
        refine ⟨_, rfl, ?_, ?_⟩
        · rw [Ordering.swap_eq_lt, hgt]
          simp only [place, Precedes]
          grind
        · rw [Ordering.swap_eq_gt, hlt]
          simp only [place, Precedes]
          grind
      · simp [UnpackedFloat.compare, place, Precedes]
      · simp [UnpackedFloat.compare, place, Precedes]
      · refine ⟨_, rfl, ?_, ?_⟩
        · rw [hlt]
          simp only [place, Precedes]
          grind
        · rw [hgt]
          simp only [place, Precedes]
          grind

theorem compare_eq_none {a b : UnpackedFloat} (h : a.isNaN = true ∨ b.isNaN = true) :
    a.compare b = none := by
  cases a <;> cases b <;> simp_all [UnpackedFloat.isNaN, UnpackedFloat.compare]

theorem lt_iff (a b : UnpackedFloat) :
    a.lt b = true ↔ a.isNaN = false ∧ b.isNaN = false ∧ Precedes (place a) (place b) := by
  by_cases h : a.isNaN = false ∧ b.isNaN = false
  · obtain ⟨o, ho, hlt, -⟩ := exists_compare h.1 h.2
    simp [UnpackedFloat.lt, ho, h, ← hlt]
  · rw [UnpackedFloat.lt, compare_eq_none (by grind)]
    grind

theorem le_iff (a b : UnpackedFloat) :
    a.le b = true ↔ a.isNaN = false ∧ b.isNaN = false ∧ ¬Precedes (place b) (place a) := by
  by_cases h : a.isNaN = false ∧ b.isNaN = false
  · obtain ⟨o, ho, -, hgt⟩ := exists_compare h.1 h.2
    simp only [UnpackedFloat.le, ho, h, ← hgt]
    cases o <;> decide
  · rw [UnpackedFloat.le, compare_eq_none (by grind)]
    grind

theorem beq_self (a : UnpackedFloat) : a.beq a = !a.isNaN := by
  cases h : a.isNaN with
  | true => rw [UnpackedFloat.beq, compare_eq_none (.inl h)]; rfl
  | false =>
    obtain ⟨o, ho, hlt, hgt⟩ := exists_compare h h
    have hself : ¬Precedes (place a) (place a) := fun hp => hp.asymm hp
    cases o with
    | lt => exact absurd (hlt.1 rfl) hself
    | gt => exact absurd (hgt.1 rfl) hself
    | eq => rw [UnpackedFloat.beq, ho]; rfl

/-- The number behind the bits. -/
def unpacked (x : Float32) : UnpackedFloat := x.toModel.unpack

theorem isNaN_eq (x : Float32) : Scalar.isNaN x = (unpacked x).isNaN := by
  have h : (x == x) = (unpacked x).beq (unpacked x) := rfl
  rw [Scalar.isNaN, h, beq_self, Bool.not_not]

theorem float_lt_iff (x y : Float32) : x < y ↔ (unpacked x).lt (unpacked y) = true := by
  have h : x < y ↔ decide (x.toModel < y.toModel) = true := Iff.rfl
  rw [h, decide_eq_true_iff]
  rfl

theorem float_le_iff (x y : Float32) : x ≤ y ↔ (unpacked x).le (unpacked y) = true := by
  have h : x ≤ y ↔ decide (x.toModel ≤ y.toModel) = true := Iff.rfl
  rw [h, decide_eq_true_iff]
  rfl

instance isOrdered : Scalar.IsOrdered Float32 where
  lt_asymm {a b} hab hba := by
    rw [float_lt_iff, lt_iff] at hab hba
    exact hab.2.2.asymm hba.2.2
  lt_or_lt {a b c} hab hc := by
    simp only [float_lt_iff, lt_iff, isNaN_eq] at *
    exact (hab.2.2.or (place (unpacked c))).imp (fun h => ⟨hab.1, hc, h⟩)
      fun h => ⟨hc, hab.2.1, h⟩
  isNaN_of_lt {a b} hab := by
    simp only [float_lt_iff, lt_iff, isNaN_eq] at *
    exact ⟨hab.1, hab.2.1⟩
  le_iff {a b} := by
    simp only [float_le_iff, le_iff, float_lt_iff, lt_iff, isNaN_eq]
    grind

end Binary32

end Radiance
