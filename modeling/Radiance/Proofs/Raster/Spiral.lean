import Mathlib
import Radiance.Raster.Bucket

/-!
# Rings of the spiral

A ring holds the cells at one distance from the center, where the distance of a cell is the larger
of its steps along the two axes.  The ring runs along four sides of `2 * rank` cells each, so a
place on it is a side and a shift along that side.  Each side ends where the next one starts, so the
ring is walked cell by cell and closes at its end.

## Main definitions

* `Spiral.distance`: the number of the ring that a cell belongs to.
* `Spiral.side`: the cell at a shift along one of the four sides.
* `Spiral.IsStep`: two cells are one step along one axis apart.
* `Spiral.offsetWord`: the cells of a ring, computed in signed words of 32 bits.

## Main statements

* `Spiral.mem_ring`: a ring holds exactly the cells at its distance.
* `Spiral.nodup_ring`: it holds each of them once.
* `Spiral.isStep_offset`: one cell of a ring lies beside the next one.
* `Spiral.toInts_offsetWord`: no word of a ring leaves its range as long as its length does not.
* `Spiral.offset_walks_ring`: all of this about one ring.
-/

namespace Radiance.Spiral

/-- The number of rings around the center that a cell is away from it. -/
def distance (c : Int × Int) : Nat := max c.1.natAbs c.2.natAbs

/-- The cell at a shift along one of the four sides of a ring, from the upper left corner on. -/
def side (rank : Nat) (q s : Nat) : Int × Int :=
  match q with
  | 0 => ((s : Int) - rank, -(rank : Int))
  | 1 => ((rank : Int), (s : Int) - rank)
  | 2 => ((rank : Int) - s, (rank : Int))
  | _ => (-(rank : Int), (rank : Int) - s)

/-- The place on a ring of the cell with an index: the ring starts one step after its corner. -/
def placeOf (rank index : Nat) : Nat := (index + 1) % (8 * rank)

theorem offset_eq_side {rank : Nat} (h : 0 < rank) (index : Nat) :
    offset rank index =
      side rank (placeOf rank index / (2 * rank)) (placeOf rank index % (2 * rank)) :=
  (if_neg (Nat.ne_of_gt h)).trans rfl

theorem placeOf_lt {rank : Nat} (h : 0 < rank) (index : Nat) : placeOf rank index < 8 * rank :=
  Nat.mod_lt _ (by omega)

theorem placeOf_injective {rank i j : Nat} (hi : i < 8 * rank) (hj : j < 8 * rank)
    (h : placeOf rank i = placeOf rank j) : i = j := by
  simp only [placeOf] at h
  obtain hi' | hi' := Nat.lt_or_ge (i + 1) (8 * rank) <;>
    obtain hj' | hj' := Nat.lt_or_ge (j + 1) (8 * rank)
  · rw [Nat.mod_eq_of_lt hi', Nat.mod_eq_of_lt hj'] at h
    omega
  · have hj'' : j + 1 = 8 * rank := by omega
    rw [Nat.mod_eq_of_lt hi', hj'', Nat.mod_self] at h
    omega
  · have hi'' : i + 1 = 8 * rank := by omega
    rw [hi'', Nat.mod_self, Nat.mod_eq_of_lt hj'] at h
    omega
  · omega

theorem exists_placeOf {rank p : Nat} (hp : p < 8 * rank) :
    ∃ i < 8 * rank, placeOf rank i = p := by
  obtain rfl | hpos := Nat.eq_zero_or_pos p
  · exact ⟨8 * rank - 1, by omega, by rw [placeOf, Nat.sub_add_cancel (by omega), Nat.mod_self]⟩
  · exact ⟨p - 1, by omega, by rw [placeOf, Nat.sub_add_cancel hpos, Nat.mod_eq_of_lt hp]⟩

/-! ## Sides -/

theorem distance_side {rank q s : Nat} (hq : q < 4) (hs : s < 2 * rank) :
    distance (side rank q s) = rank := by
  simp only [distance]
  match q, hq with
  | 0, _ => simp only [side]; omega
  | 1, _ => simp only [side]; omega
  | 2, _ => simp only [side]; omega
  | 3, _ => simp only [side]; omega

theorem side_injective {rank q q' s s' : Nat} (hq : q < 4) (hq' : q' < 4) (hs : s < 2 * rank)
    (hs' : s' < 2 * rank) (h : side rank q s = side rank q' s') : q = q' ∧ s = s' := by
  match q, hq, q', hq' with
  | 0, _, 0, _ | 0, _, 1, _ | 0, _, 2, _ | 0, _, 3, _
  | 1, _, 0, _ | 1, _, 1, _ | 1, _, 2, _ | 1, _, 3, _
  | 2, _, 0, _ | 2, _, 1, _ | 2, _, 2, _ | 2, _, 3, _
  | 3, _, 0, _ | 3, _, 1, _ | 3, _, 2, _ | 3, _, 3, _ =>
    simp only [side, Prod.mk.injEq] at h
    omega

theorem exists_side {rank : Nat} (hrank : 0 < rank) {c : Int × Int} (h : distance c = rank) :
    ∃ q < 4, ∃ s < 2 * rank, side rank q s = c := by
  obtain ⟨x, y⟩ := c
  simp only [distance] at h
  by_cases htop : y = -rank ∧ x < rank
  · exact ⟨0, by omega, (x + rank).toNat, by omega, by simp only [side, Prod.mk.injEq]; omega⟩
  by_cases hright : x = rank ∧ y < rank
  · exact ⟨1, by omega, (y + rank).toNat, by omega, by simp only [side, Prod.mk.injEq]; omega⟩
  by_cases hbottom : y = rank ∧ -rank < x
  · exact ⟨2, by omega, (rank - x).toNat, by omega, by simp only [side, Prod.mk.injEq]; omega⟩
  · exact ⟨3, by omega, (rank - y).toNat, by omega, by simp only [side, Prod.mk.injEq]; omega⟩

/-! ## Rings -/

theorem ringLength_mono {rank rank' : Nat} (h : rank ≤ rank') :
    ringLength rank ≤ ringLength rank' := by
  simp only [ringLength]
  split <;> split <;> omega

theorem side_of_place {rank p : Nat} (hp : p < 8 * rank) :
    p / (2 * rank) < 4 ∧ p % (2 * rank) < 2 * rank :=
  ⟨Nat.div_lt_of_lt_mul (by omega), Nat.mod_lt _ (by omega)⟩

theorem distance_offset {rank index : Nat} (h : index < ringLength rank) :
    distance (offset rank index) = rank := by
  obtain rfl | hrank := Nat.eq_zero_or_pos rank
  · rfl
  · obtain ⟨hq, hs⟩ := side_of_place (placeOf_lt hrank index)
    rw [offset_eq_side hrank, distance_side hq hs]

theorem offset_injective {rank i j : Nat} (hi : i < ringLength rank) (hj : j < ringLength rank)
    (h : offset rank i = offset rank j) : i = j := by
  obtain rfl | hrank := Nat.eq_zero_or_pos rank
  · simp only [ringLength, if_true] at hi hj
    omega
  · simp only [ringLength, Nat.ne_of_gt hrank, if_false] at hi hj
    obtain ⟨hqi, hsi⟩ := side_of_place (placeOf_lt hrank i)
    obtain ⟨hqj, hsj⟩ := side_of_place (placeOf_lt hrank j)
    rw [offset_eq_side hrank, offset_eq_side hrank] at h
    obtain ⟨hq, hs⟩ := side_injective hqi hqj hsi hsj h
    refine placeOf_injective hi hj ?_
    rw [← Nat.div_add_mod (placeOf rank i) (2 * rank), hq, hs, Nat.div_add_mod]

theorem exists_offset {rank : Nat} {c : Int × Int} (h : distance c = rank) :
    ∃ index < ringLength rank, offset rank index = c := by
  obtain rfl | hrank := Nat.eq_zero_or_pos rank
  · obtain ⟨x, y⟩ := c
    simp only [distance] at h
    exact ⟨0, by simp [ringLength], by simp only [offset, if_true, Prod.mk.injEq]; omega⟩
  · obtain ⟨q, hq, s, hs, rfl⟩ := exists_side hrank h
    have hplace : 2 * rank * q + s < 8 * rank := by
      have : 2 * rank * q ≤ 2 * rank * 3 := Nat.mul_le_mul_left _ (by omega)
      omega
    obtain ⟨index, hindex, heq⟩ := exists_placeOf hplace
    refine ⟨index, by simpa [ringLength, Nat.ne_of_gt hrank] using hindex, ?_⟩
    rw [offset_eq_side hrank, heq, Nat.mul_add_div (by omega), Nat.div_eq_of_lt hs,
      Nat.mul_add_mod, Nat.mod_eq_of_lt hs, Nat.add_zero]

/-- A ring holds exactly the cells at its distance. -/
@[simp] theorem mem_ring {rank : Nat} {c : Int × Int} : c ∈ ring rank ↔ distance c = rank := by
  simp only [ring, List.mem_map, List.mem_range]
  constructor
  · rintro ⟨index, hindex, rfl⟩
    exact distance_offset hindex
  · exact exists_offset

/-- A ring holds no cell twice. -/
theorem nodup_ring (rank : Nat) : (ring rank).Nodup :=
  List.Nodup.map_on (fun _ hi _ hj => offset_injective (List.mem_range.1 hi) (List.mem_range.1 hj))
    List.nodup_range

/-! ## Around a ring -/

/-- Two cells are one step along one axis apart. -/
def IsStep (c d : Int × Int) : Prop := (d.1 - c.1).natAbs + (d.2 - c.2).natAbs = 1

theorem isStep_side {rank q : Nat} (hq : q < 4) (s : Nat) :
    IsStep (side rank q s) (side rank q (s + 1)) := by
  match q, hq with
  | 0, _ => simp only [IsStep, side]; omega
  | 1, _ => simp only [IsStep, side]; omega
  | 2, _ => simp only [IsStep, side]; omega
  | 3, _ => simp only [IsStep, side]; omega

/-- Where a side ends the next one starts, the first one after the last. -/
theorem side_end {rank q : Nat} (hq : q < 4) :
    side rank q (2 * rank) = side rank ((q + 1) % 4) 0 := by
  match q, hq with
  | 0, _ => simp only [side, Prod.mk.injEq]; omega
  | 1, _ => simp only [side, Prod.mk.injEq]; omega
  | 2, _ => simp only [side, Prod.mk.injEq]; omega
  | 3, _ => simp only [side, Prod.mk.injEq]; omega

/-- The next place of a ring is one shift further along a side. -/
theorem side_next {rank p : Nat} (hp : p < 8 * rank) :
    side rank ((p + 1) % (8 * rank) / (2 * rank)) ((p + 1) % (8 * rank) % (2 * rank)) =
      side rank (p / (2 * rank)) (p % (2 * rank) + 1) := by
  obtain ⟨hq, hlt⟩ := side_of_place hp
  have hs : p % (2 * rank) + 1 ≤ 2 * rank := hlt
  have hparts : p + 1 = 2 * rank * (p / (2 * rank)) + (p % (2 * rank) + 1) := by
    rw [← Nat.add_assoc, Nat.div_add_mod]
  rw [show 8 * rank = 2 * rank * 4 by omega, Nat.mod_mul_right_div_self, Nat.mod_mul_right_mod,
    hparts, Nat.mul_add_div (by omega), Nat.mul_add_mod]
  generalize p / (2 * rank) = q at hq ⊢
  generalize p % (2 * rank) + 1 = s at hs ⊢
  obtain hlt | rfl := Nat.lt_or_eq_of_le hs
  · rw [Nat.div_eq_of_lt hlt, Nat.mod_eq_of_lt hlt, Nat.add_zero, Nat.mod_eq_of_lt hq]
  · rw [Nat.div_self (by omega), Nat.mod_self, side_end hq]

theorem placeOf_next (rank index : Nat) :
    placeOf rank ((index + 1) % (8 * rank)) = (placeOf rank index + 1) % (8 * rank) := by
  simp only [placeOf, Nat.mod_add_mod]

/-- One cell of a ring lies beside the next one, and the last one beside the first one. -/
theorem isStep_offset {rank : Nat} (hrank : 0 < rank) (index : Nat) :
    IsStep (offset rank index) (offset rank ((index + 1) % (8 * rank))) := by
  have hplace := placeOf_lt hrank index
  rw [offset_eq_side hrank, offset_eq_side hrank, placeOf_next, side_next hplace]
  exact isStep_side (side_of_place hplace).1 _


/-! ## Words -/

/-- The cell at a place of ring `rank`, computed in signed words of 32 bits. -/
def offsetWord (rank index : Int32) : Int32 × Int32 :=
  if rank = 0 then (0, 0)
  else
    let place := (index + 1) % (8 * rank)
    let quarter := place / (2 * rank)
    let shift := place % (2 * rank)
    if quarter = 0 then (shift - rank, -rank)
    else if quarter = 1 then (rank, shift - rank)
    else if quarter = 2 then (rank - shift, rank)
    else (-rank, rank - shift)

/-- The integers that a pair of words stands for. -/
def toInts (c : Int32 × Int32) : Int × Int := (c.1.toInt, c.2.toInt)

/-- A word stands for a natural number. -/
def Stands (w : Int32) (n : Nat) : Prop := w.toInt = n

namespace Stands

variable {v w : Int32} {m n : Nat}

theorem lt (h : Stands w n) : n < 2 ^ 31 := by
  have hlt := w.toInt_lt
  have heq : w.toInt = n := h
  omega

theorem ofNat (h : n < 2 ^ 31) : Stands (.ofNat n) n := Int32.toInt_ofNat_of_lt h

theorem add (hv : Stands v m) (hw : Stands w n) (h : m + n < 2 ^ 31) : Stands (v + w) (m + n) := by
  rw [Stands, Int32.toInt_add, hv, hw]
  exact Int.bmod_eq_of_le (by omega) (by omega)

theorem mul (hv : Stands v m) (hw : Stands w n) (h : m * n < 2 ^ 31) : Stands (v * w) (m * n) := by
  rw [Stands, Int32.toInt_mul, hv, hw, ← Int.natCast_mul]
  exact Int.bmod_eq_of_le (by omega) (by omega)

theorem mod (hv : Stands v m) (hw : Stands w n) : Stands (v % w) (m % n) := by
  rw [Stands, Int32.toInt_mod, hv, hw]
  rfl

theorem div (hv : Stands v m) (hw : Stands w n) : Stands (v / w) (m / n) := by
  have hle := Nat.div_le_self m n
  have hlt := hv.lt
  rw [Stands, Int32.toInt_div, hv, hw, ← Int.ofNat_tdiv]
  generalize m / n = q at hle
  exact Int.bmod_eq_of_le (by omega) (by omega)

theorem eq_iff (hv : Stands v m) (hw : Stands w n) : v = w ↔ m = n := by
  rw [← Int32.toInt_inj, hv, hw, Int.natCast_inj]

end Stands

/-- The words of a ring whose length is a word stand for the integers that they are meant to be. -/
theorem toInts_offsetWord {v w : Int32} {rank index : Nat} (hv : Stands v rank)
    (hw : Stands w index) (hpos : 0 < rank) (hrange : 8 * rank < 2 ^ 31)
    (hindex : index < 8 * rank) : toInts (offsetWord v w) = offset rank index := by
  have hplace : Stands ((w + 1) % (8 * v)) (placeOf rank index) :=
    (hw.add (w := 1) (n := 1) rfl (by omega)).mod (Stands.mul (m := 8) rfl hv hrange)
  have hside : Stands (2 * v) (2 * rank) := Stands.mul (m := 2) rfl hv (by omega)
  have hquarter := hplace.div hside
  have hshift := hplace.mod hside
  obtain ⟨hq, hs⟩ := side_of_place (placeOf_lt hpos index)
  have hzero : v = 0 ↔ rank = 0 := hv.eq_iff (n := 0) rfl
  rw [offset_eq_side hpos, offsetWord, if_neg (hzero.not.2 hpos.ne')]
  dsimp only
  generalize (w + 1) % (8 * v) / (2 * v) = quarter at hquarter ⊢
  generalize (w + 1) % (8 * v) % (2 * v) = shift at hshift ⊢
  generalize placeOf rank index / (2 * rank) = q at hquarter hq ⊢
  generalize placeOf rank index % (2 * rank) = s at hshift hs ⊢
  have hforth : (shift - v).toInt = s - rank := by
    rw [Int32.toInt_sub, hshift, hv]
    exact Int.bmod_eq_of_le (by omega) (by omega)
  have hback : (v - shift).toInt = rank - s := by
    rw [Int32.toInt_sub, hshift, hv]
    exact Int.bmod_eq_of_le (by omega) (by omega)
  have hneg : (-v).toInt = -rank := by
    rw [Int32.toInt_neg, hv]
    exact Int.bmod_eq_of_le (by omega) (by omega)
  have hfirst : quarter = 0 ↔ q = 0 := hquarter.eq_iff (w := 0) (n := 0) rfl
  have hsecond : quarter = 1 ↔ q = 1 := hquarter.eq_iff (w := 1) (n := 1) rfl
  have hthird : quarter = 2 ↔ q = 2 := hquarter.eq_iff (w := 2) (n := 2) rfl
  simp only [hfirst, hsecond, hthird]
  match q, hq with
  | 0, _ => exact Prod.ext hforth hneg
  | 1, _ => exact Prod.ext hv hforth
  | 2, _ => exact Prod.ext hback hv
  | 3, _ => exact Prod.ext hneg hback

/-- The indices of a ring stand for its cells one by one, and consecutive ones, also the last and
the first, for cells one step apart.  If the length of the ring is a word, the cells can be computed
in words. -/
theorem offset_walks_ring {rank : Nat} (hpos : 0 < rank) :
    Set.BijOn (offset rank) {index | index < 8 * rank} {c | max c.1.natAbs c.2.natAbs = rank} ∧
      (∀ index < 8 * rank,
        IsStep (offset rank index) (offset rank ((index + 1) % (8 * rank)))) ∧
      (8 * rank < 2 ^ 31 → ∀ index < 8 * rank, ∀ v w : Int32, v.toInt = rank → w.toInt = index →
        toInts (offsetWord v w) = offset rank index) := by
  have hlength : ringLength rank = 8 * rank := if_neg hpos.ne'
  refine ⟨⟨fun index hindex => ?_, fun i hi j hj heq => ?_, fun c hc => ?_⟩,
    fun index _ => isStep_offset hpos index, fun hrange index hindex v w hv hw =>
    toInts_offsetWord hv hw hpos hrange hindex⟩
  · exact distance_offset (hlength ▸ hindex)
  · exact offset_injective (hlength ▸ hi) (hlength ▸ hj) heq
  · obtain ⟨index, hindex, heq⟩ := exists_offset hc
    exact ⟨index, hlength ▸ hindex, heq⟩

/-- The last cell of the largest ring whose length is a word lies beside the first one, and is
computed in words. -/
theorem offset_walks_ring_largest :
    0 < 268435455 ∧ 8 * 268435455 < 2 ^ 31 ∧
      IsStep (offset 268435455 2147483639) (offset 268435455 0) ∧
      toInts (offsetWord 268435455 2147483639) = offset 268435455 2147483639 := by
  have hpos : 0 < 268435455 := by decide
  have hrange : 8 * 268435455 < 2 ^ 31 := by decide
  obtain ⟨-, hsteps, hwords⟩ := offset_walks_ring hpos
  exact ⟨hpos, hrange, hsteps 2147483639 (by decide),
    hwords hrange 2147483639 (by decide) _ _ rfl rfl⟩

end Radiance.Spiral
