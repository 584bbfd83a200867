import Mathlib
import Radiance.Shape.Hierarchy

/-!
# Rearranging a range of the permutation

Building a hierarchy only ever moves items inside the range of the node it divides.  `Rearranges`
says so of two permutations, and the two-pointer partition is the one step that needs it.

## Main statements

* `Rearranges.range_perm`: a rearranged range holds the same items as before.
* `partition_spec`, `Partitioned.range_perm`: the partition rearranges its range, and the place it
  gives separates the items that belong to the left from the others.
-/

namespace Radiance.Hierarchy

/-- Some permutation of the places from `first` up to `last` turns one array into the other. -/
structure Rearranges (first last : Nat) (before after : Array Nat) : Prop where
  perm : after.toList.Perm before.toList
  frame : ∀ p, p < first ∨ last ≤ p → after[p]? = before[p]?

namespace Rearranges

variable {first last : Nat} {a b c : Array Nat}

theorem refl (first last : Nat) (a : Array Nat) : Rearranges first last a a :=
  ⟨.refl _, fun _ _ => rfl⟩

theorem trans (hab : Rearranges first last a b) (hbc : Rearranges first last b c) :
    Rearranges first last a c :=
  ⟨hbc.perm.trans hab.perm, fun p hp => (hbc.frame p hp).trans (hab.frame p hp)⟩

/-- What moves inside a range moves inside any larger range. -/
theorem mono {first' last' : Nat} (h : Rearranges first last a b) (hfirst : first' ≤ first)
    (hlast : last ≤ last') : Rearranges first' last' a b :=
  ⟨h.perm, fun p hp => h.frame p (by omega)⟩

theorem size_eq (h : Rearranges first last a b) : b.size = a.size := by
  simpa using h.perm.length_eq

/-- Two places of a range change places. -/
theorem swap {i j : Nat} (hi : first ≤ i ∧ i < last) (hj : first ≤ j ∧ j < last)
    (hlast : last ≤ a.size) : Rearranges first last a (a.swapIfInBounds i j) := by
  have hia : i < a.size := by omega
  have hja : j < a.size := by omega
  refine ⟨?_, fun p hp => ?_⟩
  · rw [Array.swapIfInBounds_def, dif_pos hia, dif_pos hja]
    exact (Array.swap_perm hia hja).toList
  · by_cases hpa : p < a.size
    · rw [Array.getElem?_eq_getElem (by simpa using hpa), Array.getElem?_eq_getElem hpa,
        Array.getElem_swapIfInBounds_of_ne_of_ne (by omega) (by omega)]
    · rw [Array.getElem?_eq_none (by simpa using hpa), Array.getElem?_eq_none (by omega)]

end Rearranges

/-! ## Ranges -/

theorem range_eq_take_drop {indices : Array Nat} {first count : Nat}
    (h : first + count ≤ indices.size) :
    range indices first count = (indices.toList.drop first).take count := by
  apply List.ext_getElem
  · simp [range]
    omega
  · intro k hk _
    have hk' : k < count := by simpa [range] using hk
    simp [range, Array.getElem_toList, Array.getD, show first + k < indices.size by omega]

theorem mem_range {indices : Array Nat} {first count i : Nat} :
    i ∈ range indices first count ↔
      ∃ p, first ≤ p ∧ p < first + count ∧ indices.getD p 0 = i := by
  simp only [range, List.mem_map, List.mem_range]
  constructor
  · rintro ⟨k, hk, rfl⟩
    exact ⟨first + k, by omega, by omega, rfl⟩
  · rintro ⟨p, hfirst, hlast, rfl⟩
    exact ⟨p - first, by omega, by rw [Nat.add_sub_cancel' hfirst]⟩

/-- A range is made of its part in front of a place and its part behind it. -/
theorem range_append (indices : Array Nat) {first middle count : Nat} (hfirst : first ≤ middle)
    (hlast : middle ≤ first + count) :
    range indices first count =
      range indices first (middle - first) ++ range indices middle (first + count - middle) := by
  have hcount : count = (middle - first) + (first + count - middle) := by omega
  conv_lhs => rw [hcount]
  rw [range, List.range_add, List.map_append, List.map_map]
  congr 1
  refine List.map_congr_left fun k _ => ?_
  simp only [Function.comp_apply]
  rw [← Nat.add_assoc, Nat.add_sub_cancel' hfirst]

/-- A range is the same for two arrays that agree on its places. -/
theorem range_congr {a b : Array Nat} {first count : Nat}
    (h : ∀ p, first ≤ p → p < first + count → b[p]? = a[p]?) :
    range b first count = range a first count := by
  refine List.map_congr_left fun k hk => ?_
  have hk' : k < count := List.mem_range.1 hk
  simp only [Array.getD_eq_getD_getElem?, h (first + k) (by omega) (by omega)]

theorem range_all (indices : Array Nat) : range indices 0 indices.size = indices.toList := by
  rw [range_eq_take_drop (by omega), List.drop_zero, List.take_of_length_le (by simp)]

/-- A rearranged range holds the same items as before. -/
theorem Rearranges.range_perm {first count : Nat} {a b : Array Nat}
    (h : Rearranges first (first + count) a b) (hsize : first + count ≤ a.size) :
    (range b first count).Perm (range a first count) := by
  have hb : b.size = a.size := h.size_eq
  have hfront : b.toList.take first = a.toList.take first := by
    apply List.ext_getElem?
    intro p
    by_cases hp : p < first
    · simpa [List.getElem?_take, hp] using h.frame p (.inl hp)
    · rw [List.getElem?_take, List.getElem?_take, if_neg hp, if_neg hp]
  have hback : b.toList.drop (first + count) = a.toList.drop (first + count) := by
    apply List.ext_getElem?
    intro p
    simpa using h.frame (first + count + p) (.inr (by omega))
  have hcut : ∀ x : Array Nat, first + count ≤ x.size →
      x.toList = x.toList.take first ++ (range x first count ++ x.toList.drop (first + count)) := by
    intro x hx
    rw [range_eq_take_drop hx, ← List.drop_drop, List.take_append_drop, List.take_append_drop]
  have hperm := h.perm
  rw [hcut a hsize, hcut b (by omega), hfront, hback, List.perm_append_left_iff,
    List.perm_append_right_iff] at hperm
  exact hperm

/-! ## The partition -/

/-- What the partition of the places from `i` up to `j` gives. -/
structure Partitioned (goesLeft : Nat → Bool) (indices : Array Nat) (i j : Nat)
    (result : Array Nat × Nat) : Prop where
  rearranges : Rearranges i j indices result.1
  le_middle : i ≤ result.2
  middle_le : result.2 ≤ j
  left : ∀ p, i ≤ p → p < result.2 → goesLeft (result.1.getD p 0)
  right : ∀ p, result.2 ≤ p → p < j → ¬goesLeft (result.1.getD p 0)

theorem getD_congr {a b : Array Nat} {p : Nat} (h : b[p]? = a[p]?) : b.getD p 0 = a.getD p 0 := by
  simp only [Array.getD_eq_getD_getElem?, h]

/-- The partition separates its range. -/
theorem partition_spec (goesLeft : Nat → Bool) (indices : Array Nat) (i j : Nat) (hij : i ≤ j)
    (hj : j ≤ indices.size) :
    Partitioned goesLeft indices i j (partition goesLeft indices i j) := by
  fun_induction partition goesLeft indices i j with
  | case1 indices i j hlt hleft ih =>
    have h := ih (by omega) hj
    refine ⟨h.rearranges.mono (by omega) (by omega), by have := h.le_middle; omega, h.middle_le,
      fun p hip hp => ?_, h.right⟩
    obtain rfl | hne := Nat.eq_or_lt_of_le hip
    · rw [getD_congr (h.rearranges.frame _ (.inl (by omega)))]
      exact hleft
    · exact h.left p hne hp
  | case2 indices i j hlt hright ih =>
    have h := ih (by omega) (by simp; omega)
    have hswap : Rearranges i j indices (indices.swapIfInBounds i (j - 1)) :=
      .swap ⟨by omega, by omega⟩ ⟨by omega, by omega⟩ hj
    refine ⟨hswap.trans (h.rearranges.mono (by omega) (by omega)), h.le_middle,
      by have := h.middle_le; omega, h.left, fun p hp hpj => ?_⟩
    obtain rfl | hne := Nat.eq_or_lt_of_le (show p ≤ j - 1 by omega)
    · -- The place behind what is still to be looked at holds the item just moved there.
      rw [getD_congr (h.rearranges.frame _ (.inr (by omega)))]
      have hmoved : (indices.swapIfInBounds i (j - 1)).getD (j - 1) 0 = indices.getD i 0 := by
        have hi : i < indices.size := by omega
        have hj' : j - 1 < indices.size := by omega
        simp [Array.getD_eq_getD_getElem?, Array.getElem_swapIfInBounds_right hi, hi, hj']
      rw [hmoved]
      exact hright
    · exact h.right p hp hne
  | case3 indices i j hge =>
    exact ⟨.refl _ _ _, Nat.le_refl _, hij, fun p h₁ h₂ => by omega, fun p h₁ h₂ => by omega⟩

/-- The partition brings the items that go left to the front and the others to the back. -/
theorem Partitioned.range_perm {goesLeft : Nat → Bool} {indices after : Array Nat}
    {first count middle : Nat}
    (h : Partitioned goesLeft indices first (first + count) (after, middle))
    (hsize : first + count ≤ indices.size) :
    (range after first (middle - first)).Perm ((range indices first count).filter goesLeft) ∧
      (range after middle (first + count - middle)).Perm
        ((range indices first count).filter (!goesLeft ·)) := by
  have hperm := (h.rearranges.range_perm hsize).symm
  rw [range_append after h.le_middle h.middle_le] at hperm
  have hleft : ∀ i ∈ range after first (middle - first), goesLeft i = true := by
    intro i hi
    obtain ⟨p, hfirst, hlast, rfl⟩ := mem_range.1 hi
    exact h.left p hfirst (by omega)
  have hright : ∀ i ∈ range after middle (first + count - middle), goesLeft i = false := by
    intro i hi
    obtain ⟨p, hfirst, hlast, rfl⟩ := mem_range.1 hi
    simpa using h.right p hfirst (by omega)
  constructor
  · have hfilter := (hperm.filter goesLeft).symm
    rwa [List.filter_append, List.filter_eq_self.2 hleft,
      List.filter_eq_nil_iff.2 (by simpa using hright), List.append_nil] at hfilter
  · have hfilter := (hperm.filter (!goesLeft ·)).symm
    rwa [List.filter_append, List.filter_eq_nil_iff.2 (by simpa using hleft),
      List.filter_eq_self.2 (by simpa using hright), List.nil_append] at hfilter

end Radiance.Hierarchy
