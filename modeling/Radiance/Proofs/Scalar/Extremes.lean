import Radiance.Proofs.Scalar.Exact
import Radiance.Proofs.Scalar.Neutral

/-!
# Least and greatest numbers

Folding the smaller of two numbers over a list, from infinity on, gives the least of the defined
numbers in the list; undefined numbers do not count, wherever they stand.  The same holds of the
larger of two and the greatest number, so both are read as one selection along an order.

## Main definitions

* `Scalar.Selects`: an operation keeps the first of two numbers in an order.
* `Scalar.IsFirst`: the first of the defined numbers of a set, with `Scalar.IsLeastDefined` and
  `Scalar.IsGreatestDefined` for the two directions.

## Main statements

* `Scalar.Selects.isFirst_foldl`: what a fold of a selection gives.
* `Scalar.IsFirst.rel`: the first of more numbers does not come later.
* `Binary32.selects_min`, `Binary32.selects_max`: the two selections of rounded numbers.
* `Exact.selects_min`, `Exact.selects_max`: the two selections of exact numbers.
-/

namespace Radiance

namespace Scalar

variable {α : Type} [Scalar α]

/-- The first of the defined numbers of a set; of a set without any, the number that no other comes
after. -/
structure IsFirst (r : α → α → Prop) (last : α) (values : Set α) (m : α) : Prop where
  defined : isNaN m = false
  first : ∀ v ∈ values, isNaN v = false → r m v
  mem_or : m ∈ values ∨ (∀ v ∈ values, isNaN v = true) ∧ m = last

/-- The least of the defined numbers, infinity if there is none. -/
abbrev IsLeastDefined (values : Set α) (m : α) : Prop := IsFirst (· ≤ ·) infinity values m

/-- The greatest of the defined numbers, minus infinity if there is none. -/
abbrev IsGreatestDefined (values : Set α) (m : α) : Prop :=
  IsFirst (fun a b => b ≤ a) (-infinity) values m

/-- An operation keeps the first of two numbers in an order, and a defined number rather than an
undefined one.  No number comes after `last`. -/
structure Selects (r : α → α → Prop) (last : α) (pick : α → α → α) : Prop where
  eq_or : ∀ a b, pick a b = a ∨ pick a b = b
  rel_left : ∀ {a : α} (b), isNaN a = false → r (pick a b) a
  rel_right : ∀ (a) {b : α}, isNaN b = false → r (pick a b) b
  trans : ∀ {a b c : α}, r a b → r b c → r a c
  defined : ∀ {a b : α}, r a b → isNaN a = false
  last_defined : isNaN last = false
  rel_last : ∀ {a : α}, isNaN a = false → r a last
  eq_last : ∀ {a : α}, r last a → a = last

variable {r : α → α → Prop} {last : α} {pick : α → α → α}

/-- A fold ends at its start or at one of the numbers, and before all of them. -/
theorem Selects.foldl_spec (h : Selects r last pick) (values : List α) {start : α}
    (hstart : isNaN start = false) :
    (values.foldl pick start = start ∨ values.foldl pick start ∈ values) ∧
      r (values.foldl pick start) start ∧
      ∀ v ∈ values, isNaN v = false → r (values.foldl pick start) v := by
  induction values generalizing start with
  | nil =>
    have hself : pick start start = start := (h.eq_or start start).elim id id
    have hrefl := h.rel_left start hstart
    rw [hself] at hrefl
    exact ⟨.inl rfl, hrefl, by simp⟩
  | cons v rest ih =>
    have hstep := h.rel_left v hstart
    obtain ⟨hmem, hpick, hrest⟩ := ih (h.defined hstep)
    rw [List.foldl_cons]
    refine ⟨?_, h.trans hpick hstep, fun w hw hdefined => ?_⟩
    · obtain hmem | hmem := hmem
      · obtain heq | heq := h.eq_or start v <;> rw [hmem, heq]
        · exact .inl rfl
        · exact .inr List.mem_cons_self
      · exact .inr (List.mem_cons_of_mem v hmem)
    · obtain rfl | hw := List.mem_cons.1 hw
      · exact h.trans hpick (h.rel_right start hdefined)
      · exact hrest w hw hdefined

theorem Selects.isFirst_foldl (h : Selects r last pick) (values : List α) :
    IsFirst r last {v | v ∈ values} (values.foldl pick last) := by
  obtain ⟨hmem, hlast, hfirst⟩ := h.foldl_spec values h.last_defined
  refine ⟨h.defined hlast, hfirst, ?_⟩
  obtain heq | hmem := hmem
  · -- The fold did not move.  Then the defined numbers of the list are where it started.
    by_cases hsome : ∃ v ∈ values, isNaN v = false
    · obtain ⟨v, hv, hdefined⟩ := hsome
      have hv' : v = last := h.eq_last (heq ▸ hfirst v hv hdefined)
      exact .inl (heq.trans hv'.symm ▸ hv)
    · exact .inr ⟨fun v hv => by simpa using fun hdefined => hsome ⟨v, hv, hdefined⟩, heq⟩
  · exact .inl hmem

/-- A fold that selects from numbers read off other things gives the first of these numbers. -/
theorem Selects.isFirst_foldl_of_hom (h : Selects r last pick) {β γ : Type} (f : β → α) (g : γ → α)
    {op : β → γ → β} {start : β} (hstart : f start = last)
    (hop : ∀ b c, f (op b c) = pick (f b) (g c)) (items : List γ) :
    IsFirst r last (g '' {c | c ∈ items}) (f (items.foldl op start)) := by
  have hfold : f (items.foldl op start) = (items.map g).foldl pick last := by
    rw [List.foldl_map, ← hstart]
    exact (List.foldl_hom f fun b c => (hop b c).symm).symm
  have hvalues : g '' {c | c ∈ items} = {v | v ∈ items.map g} := by
    ext v
    simp
  rw [hfold, hvalues]
  exact h.isFirst_foldl (items.map g)

/-- The first of more numbers does not come later. -/
theorem IsFirst.rel (h : Selects r last pick) {s t : Set α} {m n : α} (ht : IsFirst r last t m)
    (hs : IsFirst r last s n) (hst : s ⊆ t) : r m n := by
  obtain hn | ⟨-, rfl⟩ := hs.mem_or
  · exact ht.first n (hst hn) hs.defined
  · exact h.rel_last ht.defined

/-- The first of numbers that are all defined is one of them. -/
theorem IsFirst.exists_eq {ι : Type} {f : ι → α} {s : Set ι} {m : α}
    (h : IsFirst r last (f '' s) m) (hs : s.Nonempty) (hdefined : ∀ i ∈ s, isNaN (f i) = false) :
    ∃ i ∈ s, f i = m ∧ ∀ j ∈ s, r (f i) (f j) := by
  obtain ⟨i, hi, heq⟩ | ⟨hundefined, -⟩ := h.mem_or
  · exact ⟨i, hi, heq, fun j hj => heq ▸ h.first _ ⟨j, hj, rfl⟩ (hdefined j hj)⟩
  · obtain ⟨i, hi⟩ := hs
    exact absurd (hundefined _ ⟨i, hi, rfl⟩) (by simp [hdefined i hi])

end Scalar

/-! ## Binary32 -/

namespace Binary32

open Float.Model (UnpackedFloat)

theorem unpacked_infinity : unpacked Scalar.infinity = .infinity .positive := rfl

theorem unpacked_neg_infinity : unpacked (-Scalar.infinity) = .infinity .negative := rfl

/-- Defined numbers at the same place are the same, up to the sign of a zero. -/
theorem eq_or_zero_of_place_eq {a b : UnpackedFloat} (ha : a.isNaN = false) (hb : b.isNaN = false)
    (h : place a = place b) : a = b ∨ (∃ s, a = .zero s) ∧ ∃ t, b = .zero t := by
  cases a with
  | notANumber => simp [UnpackedFloat.isNaN] at ha
  | infinity s =>
    cases b with
    | notANumber => simp [UnpackedFloat.isNaN] at hb
    | infinity t => cases s <;> cases t <;> simp [place] at h ⊢
    | zero t => cases s <;> simp [place] at h
    | finite t => cases s <;> cases t <;> simp [place] at h
  | zero s =>
    cases b with
    | notANumber => simp [UnpackedFloat.isNaN] at hb
    | infinity t => cases t <;> simp [place] at h
    | zero t => exact .inr ⟨⟨s, rfl⟩, ⟨t, rfl⟩⟩
    | finite t => cases t <;> simp [place] at h
  | finite s =>
    cases b with
    | notANumber => simp [UnpackedFloat.isNaN] at hb
    | infinity t => cases s <;> cases t <;> simp [place] at h
    | zero t => cases s <;> simp [place] at h
    | finite t => cases s <;> cases t <;> simp_all [place]

/-- Numbers that are level are the same, up to the sign of a zero. -/
theorem eqUpToZeroSign_of_le {x y : Float32} (hxy : x ≤ y) (hyx : y ≤ x) :
    Scalar.EqUpToZeroSign x y := by
  rw [float_le_iff, le_iff] at hxy hyx
  have hplace : place (unpacked x) = place (unpacked y) := by
    have hx := hxy.2.2
    have hy := hyx.2.2
    unfold Precedes at hx hy
    ext <;> omega
  obtain heq | ⟨hx, hy⟩ := eq_or_zero_of_place_eq hxy.1 hxy.2.1 hplace
  · left
    rw [← pack_unpacked x, heq, pack_unpacked]
  · exact .inr ⟨(beq_zero_iff x).2 hx, (beq_zero_iff y).2 hy⟩

theorem isNaN_infinity : Scalar.isNaN (Scalar.infinity : Float32) = false := by
  rw [isNaN_eq, unpacked_infinity]
  rfl

theorem isNaN_neg_infinity : Scalar.isNaN (-Scalar.infinity : Float32) = false := by
  rw [isNaN_eq, unpacked_neg_infinity]
  rfl

theorem le_infinity {x : Float32} (h : Scalar.isNaN x = false) : x ≤ Scalar.infinity := by
  rw [isNaN_eq] at h
  rw [float_le_iff, le_iff, unpacked_infinity]
  refine ⟨h, rfl, ?_⟩
  cases unpacked x with
  | infinity s | finite s => cases s <;> simp [place, Precedes]
  | zero s | notANumber => simp [place, Precedes]

theorem neg_infinity_le {x : Float32} (h : Scalar.isNaN x = false) : -Scalar.infinity ≤ x := by
  rw [isNaN_eq] at h
  rw [float_le_iff, le_iff, unpacked_neg_infinity]
  refine ⟨rfl, h, ?_⟩
  cases unpacked x with
  | infinity s | finite s => cases s <;> simp [place, Precedes]
  | zero s | notANumber => simp [place, Precedes]

theorem eq_infinity_of_le {x : Float32} (h : Scalar.infinity ≤ x) : x = Scalar.infinity := by
  have hle := le_infinity (Scalar.IsOrdered.le_iff.1 h).2.1
  refine (eqUpToZeroSign_of_le hle h).resolve_right fun hzero => ?_
  obtain ⟨s, hs⟩ := (beq_zero_iff _).1 hzero.2
  cases unpacked_infinity.symm.trans hs

theorem eq_neg_infinity_of_le {x : Float32} (h : x ≤ -Scalar.infinity) : x = -Scalar.infinity := by
  have hle := neg_infinity_le (Scalar.IsOrdered.le_iff.1 h).1
  refine (eqUpToZeroSign_of_le h hle).resolve_right fun hzero => ?_
  obtain ⟨s, hs⟩ := (beq_zero_iff _).1 hzero.2
  cases unpacked_neg_infinity.symm.trans hs

theorem selects_min : Scalar.Selects (· ≤ ·) (Scalar.infinity : Float32) Scalar.min where
  eq_or := Scalar.min_eq_or
  rel_left _ h := Scalar.min_le_of_left (Scalar.le_refl h)
  rel_right _ _ h := Scalar.min_le_of_right (Scalar.le_refl h)
  trans := Scalar.le_trans
  defined h := (Scalar.IsOrdered.le_iff.1 h).1
  last_defined := isNaN_infinity
  rel_last := le_infinity
  eq_last := eq_infinity_of_le

theorem selects_max :
    Scalar.Selects (fun a b => b ≤ a) (-Scalar.infinity : Float32) Scalar.max where
  eq_or := Scalar.max_eq_or
  rel_left _ h := Scalar.le_max_of_left (Scalar.le_refl h)
  rel_right _ _ h := Scalar.le_max_of_right (Scalar.le_refl h)
  trans hab hbc := Scalar.le_trans hbc hab
  defined h := (Scalar.IsOrdered.le_iff.1 h).2.1
  last_defined := isNaN_neg_infinity
  rel_last := neg_infinity_le
  eq_last := eq_neg_infinity_of_le

end Binary32

/-! ## Exact scalars -/

namespace Exact

variable {z : ZeroSign} {a : Exact z}

theorem negInfinity_le (h : a ≠ undefined) : negInfinity ≤ a := by
  rw [le_def, lt_def]
  cases a <;> simp_all [lt]

theorem eq_infinity_of_le (h : infinity ≤ a) : a = infinity :=
  ((le_def _ _).1 h).elim (fun hlt => absurd hlt not_infinity_lt) fun heq => heq.1.symm

theorem eq_negInfinity_of_le (h : a ≤ negInfinity) : a = negInfinity := by
  rw [le_def, lt_def] at h
  cases a <;> simp_all [lt]

theorem selects_min : Scalar.Selects (· ≤ ·) (infinity : Exact z) Scalar.min where
  eq_or := Scalar.min_eq_or
  rel_left _ h := Scalar.min_le_of_left (Scalar.le_refl h)
  rel_right _ _ h := Scalar.min_le_of_right (Scalar.le_refl h)
  trans := Scalar.le_trans
  defined h := (Scalar.IsOrdered.le_iff.1 h).1
  last_defined := by simp
  rel_last h := le_infinity (isNaN_eq_false_iff.1 h)
  eq_last := eq_infinity_of_le

theorem selects_max : Scalar.Selects (fun a b => b ≤ a) (negInfinity : Exact z) Scalar.max where
  eq_or := Scalar.max_eq_or
  rel_left _ h := Scalar.le_max_of_left (Scalar.le_refl h)
  rel_right _ _ h := Scalar.le_max_of_right (Scalar.le_refl h)
  trans hab hbc := Scalar.le_trans hbc hab
  defined h := (Scalar.IsOrdered.le_iff.1 h).2.1
  last_defined := by simp
  rel_last h := negInfinity_le (isNaN_eq_false_iff.1 h)
  eq_last := eq_negInfinity_of_le

end Exact

end Radiance
