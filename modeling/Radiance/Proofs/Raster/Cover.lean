import Radiance.Proofs.Raster.Span
import Radiance.Proofs.Raster.Spiral

/-!
# The buckets cover the image

The buckets of an image are the cells that meet it, cut off at its edges, in the order of the
spiral.  The rings that meet an image come before all that do not, so the first ring outside the
image ends the list and no cell is lost.  All of this holds as long as the words count the cells up
to that ring.

## Main definitions

* `Bucket.Inside`: a cell has a part inside the image.
* `Bucket.cells`: the cells inside the image in the order of the spiral.
* `Bucket.rankOutside`: the first ring outside the image.
* `Bucket.Sound`: the words count the cells up to that ring.
* `Bucket.IsClip`: a bucket is the part of a cell inside the image.
* `Bucket.Covers`: what the buckets of an image are.

## Main statements

* `Bucket.sound_of_lt`: when the words count the cells.
* `Bucket.Sound.generate_eq`: the buckets are the clips of the cells inside the image.
* `Bucket.generate_covers`: they cover the image, each pixel once.
-/

namespace Radiance.Bucket

/-- A cell has a part inside the image. -/
def Inside (width height size : UInt32) (c : Int × Int) : Prop :=
  Span.Meets width.toNat size.toNat c.1 ∧ Span.Meets height.toNat size.toNat c.2

instance (width height size : UInt32) (c : Int × Int) : Decidable (Inside width height size c) :=
  inferInstanceAs (Decidable (_ ∧ _))

def spans (width height size : UInt32) (c : Int × Int) : Span × Span :=
  (Span.ofCell width size c.1, Span.ofCell height size c.2)

/-- The cells of a ring that meet the image. -/
def ringInside (width height size : UInt32) (rank : Nat) : List (Int × Int) :=
  (Spiral.ring rank).filter fun c => decide (Inside width height size c)

/-- The cells that meet the image in the order of the spiral. -/
def cells (width height size : UInt32) : List (Int × Int) :=
  (List.range (max width.toNat height.toNat + 1)).flatMap (ringInside width height size)

/-- The first ring outside the image. -/
def rankOutside (width height size : UInt32) : Nat :=
  (max width.toNat height.toNat + 3 * size.toNat - 1) / (2 * size.toNat)

/-- The words of the search for buckets count the cells: up to the first ring outside the image
every span is the part of its cell inside the image. -/
structure Sound (width height size : UInt32) : Prop where
  width_pos : 0 < width.toNat
  height_pos : 0 < height.toNat
  size_pos : 0 < size.toNat
  clips : ∀ c : Int × Int, Spiral.distance c ≤ rankOutside width height size →
    Span.Clips width size c.1 ∧ Span.Clips height size c.2

section Rings

variable {width height size : UInt32} {rank : Nat} {c : Int × Int}

@[simp] theorem mem_ringInside :
    c ∈ ringInside width height size rank ↔
      Spiral.distance c = rank ∧ Inside width height size c := by
  simp [ringInside]

theorem lt_rankOutside_iff (hs : 0 < size.toNat) :
    rank < rankOutside width height size ↔
      2 * (size.toNat * rank) < max width.toNat height.toNat + size.toNat := by
  rw [rankOutside, ← Nat.add_one_le_iff, Nat.le_div_iff_mul_le (by omega), Nat.mul_comm,
    Nat.mul_add, Nat.mul_one, Nat.mul_assoc]
  omega

theorem rankOutside_pos (hs : 0 < size.toNat) : 0 < rankOutside width height size :=
  (lt_rankOutside_iff hs).2 (by omega)

/-- The first ring outside the image is at most half the image and two cells away. -/
theorem two_mul_mul_rankOutside_le (width height size : UInt32) :
    2 * (size.toNat * rankOutside width height size) ≤
      max width.toNat height.toNat + 3 * size.toNat - 1 := by
  rw [← Nat.mul_assoc]
  exact Nat.mul_div_le _ _

theorem two_mul_rankOutside_le (hs : 0 < size.toNat) :
    2 * rankOutside width height size ≤ max width.toNat height.toNat + 3 := by
  have hle := two_mul_mul_rankOutside_le width height size
  refine Nat.le_of_not_lt fun hgt => ?_
  have hmul : size.toNat * (max width.toNat height.toNat + 4) ≤
      size.toNat * (2 * rankOutside width height size) := Nat.mul_le_mul_left _ hgt
  have himage : max width.toNat height.toNat ≤ size.toNat * max width.toNat height.toNat :=
    Nat.le_mul_of_pos_left _ hs
  rw [Nat.mul_add, Nat.mul_left_comm] at hmul
  omega

theorem Inside.distance_lt (hs : 0 < size.toNat) (h : Inside width height size c) :
    Spiral.distance c < rankOutside width height size := by
  have hx := h.1.two_mul_mul_natAbs_lt
  have hy := h.2.two_mul_mul_natAbs_lt
  rw [lt_rankOutside_iff hs, Spiral.distance]
  obtain hle | hle := Nat.le_total c.1.natAbs c.2.natAbs
  · rw [Nat.max_eq_right hle]
    omega
  · rw [Nat.max_eq_left hle]
    omega

section Positive

variable (hw : 0 < width.toNat) (hh : 0 < height.toNat) (hs : 0 < size.toNat)
include hw hh hs

/-- Every ring before the first one outside the image has a cell on the longer axis inside it. -/
theorem exists_inside (h : rank < rankOutside width height size) :
    ∃ c, Spiral.distance c = rank ∧ Inside width height size c := by
  rw [lt_rankOutside_iff hs] at h
  obtain hle | hle := Nat.le_total width.toNat height.toNat
  · rw [Nat.max_eq_right hle] at h
    exact ⟨(0, rank), by simp [Spiral.distance], Span.meets_zero hw hs, Span.meets_of_lt hh hs h⟩
  · rw [Nat.max_eq_left hle] at h
    exact ⟨(rank, 0), by simp [Spiral.distance], Span.meets_of_lt hw hs h, Span.meets_zero hh hs⟩

/-- A ring outside the image means that all further rings are outside it too. -/
theorem ringInside_eq_nil_iff :
    ringInside width height size rank = [] ↔ rankOutside width height size ≤ rank := by
  rw [List.eq_nil_iff_forall_not_mem, ← Nat.not_lt]
  constructor
  · intro hnil hlt
    obtain ⟨c, hc⟩ := exists_inside hw hh hs hlt
    exact hnil c (mem_ringInside.2 hc)
  · intro hge c hc
    obtain ⟨rfl, hin⟩ := mem_ringInside.1 hc
    exact hge (hin.distance_lt hs)

theorem ringInside_zero : ringInside width height size 0 = [(0, 0)] := by
  have hin : Inside width height size (0, 0) := ⟨Span.meets_zero hw hs, Span.meets_zero hh hs⟩
  simp [ringInside, Spiral.ring, Spiral.ringLength, Spiral.offset, hin]

theorem flatMap_ringInside {limit : Nat} (hrank : rankOutside width height size ≤ rank)
    (hle : rank ≤ limit) :
    (List.range limit).flatMap (ringInside width height size) =
      (List.range rank).flatMap (ringInside width height size) := by
  obtain ⟨extra, rfl⟩ := Nat.exists_eq_add_of_le hle
  have hnil : ((List.range extra).map (rank + ·)).flatMap (ringInside width height size) = [] := by
    refine List.flatMap_eq_nil_iff.2 fun rank' hrank' => ?_
    obtain ⟨k, -, rfl⟩ := List.mem_map.1 hrank'
    exact (ringInside_eq_nil_iff hw hh hs).2 (by omega)
  rw [List.range_add, List.flatMap_append, hnil, List.append_nil]

end Positive

end Rings

/-! ## Cells -/

section Cells

variable {width height size : UInt32} {c : Int × Int}

theorem pairwise_cells (width height size : UInt32) :
    (cells width height size).Pairwise fun c c' => Spiral.distance c ≤ Spiral.distance c' := by
  refine List.pairwise_flatMap.2 ⟨fun rank _ => ?_, List.pairwise_lt_range.imp ?_⟩
  · refine List.pairwise_of_forall_mem_list fun c hc c' hc' => ?_
    exact Nat.le_of_eq ((mem_ringInside.1 hc).1.trans (mem_ringInside.1 hc').1.symm)
  · intro rank rank' hlt c hc c' hc'
    rw [(mem_ringInside.1 hc).1, (mem_ringInside.1 hc').1]
    omega

theorem nodup_cells (width height size : UInt32) : (cells width height size).Nodup := by
  refine List.nodup_flatMap.2 ⟨fun rank _ => (Spiral.nodup_ring rank).filter _, ?_⟩
  refine List.pairwise_lt_range.imp fun {rank rank'} hlt c hc hc' => ?_
  have h := (mem_ringInside.1 hc).1
  have h' := (mem_ringInside.1 hc').1
  omega

theorem mem_cells (hs : 0 < size.toNat) :
    c ∈ cells width height size ↔ Inside width height size c := by
  simp only [cells, List.mem_flatMap, List.mem_range, mem_ringInside]
  constructor
  · rintro ⟨rank, -, -, h⟩
    exact h
  · intro h
    have hlt := h.distance_lt hs
    have hle := @two_mul_rankOutside_le width height size hs
    exact ⟨Spiral.distance c, by omega, rfl, h⟩

end Cells

/-! ## The search -/

section Search

variable {width height size : UInt32} {rank limit : Nat} {c : Int × Int}

theorem cell?_eq (hx : Span.Clips width size c.1) (hy : Span.Clips height size c.2) :
    cell? width height size c =
      if Inside width height size c then some (spans width height size c) else none := by
  simp only [cell?, hx.isEmpty_eq, hy.isEmpty_eq, Inside, spans]
  by_cases hmx : Span.Meets width.toNat size.toNat c.1 <;>
    by_cases hmy : Span.Meets height.toNat size.toNat c.2 <;> simp [hmx, hmy]

theorem filterMap_ring (h : ∀ c : Int × Int, Spiral.distance c = rank →
      Span.Clips width size c.1 ∧ Span.Clips height size c.2) :
    (Spiral.ring rank).filterMap (cell? width height size) =
      (ringInside width height size rank).map (spans width height size) := by
  rw [← List.filterMap_eq_map', ringInside, List.filterMap_filter]
  refine List.filterMap_congr fun c hc => ?_
  obtain ⟨hx, hy⟩ := h c (Spiral.mem_ring.1 hc)
  rw [cell?_eq hx hy]
  simp

namespace Sound

variable (h : Sound width height size)
include h

theorem filterMap_ring (hrank : rank ≤ rankOutside width height size) :
    (Spiral.ring rank).filterMap (cell? width height size) =
      (ringInside width height size rank).map (spans width height size) :=
  Bucket.filterMap_ring fun c hc => h.clips c (by omega)

/-- The search finds the cells of all its rings: it ends early only where nothing is left. -/
theorem cellsFrom_eq (limit : Nat) (hrank : rank ≤ rankOutside width height size) :
    cellsFrom width height size limit rank =
      ((List.range' rank limit).flatMap (ringInside width height size)).map
        (spans width height size) := by
  have hnil {rank : Nat} := @ringInside_eq_nil_iff width height size rank h.width_pos
    h.height_pos h.size_pos
  induction limit generalizing rank with
  | zero => rfl
  | succ limit ih =>
    simp only [cellsFrom, h.filterMap_ring hrank, List.isEmpty_iff, List.map_eq_nil_iff, hnil]
    split
    case isTrue hstop =>
      have hrest : (List.range' rank (limit + 1)).flatMap (ringInside width height size) = [] :=
        List.flatMap_eq_nil_iff.2 fun r hr =>
          hnil.2 (Nat.le_trans hstop.2 (List.mem_range'_1.1 hr).1)
      rw [hrest, List.map_nil]
    case isFalse hgo =>
      -- A ring that does not end the search comes before the first one outside the image.
      have hpos := @rankOutside_pos width height size h.size_pos
      rw [ih (by omega), List.range'_succ, List.flatMap_cons, List.map_append]

/-- However many rings are allowed beyond the first one outside the image, the search finds all
cells that meet the image. -/
theorem cellsFrom_zero (hlimit : rankOutside width height size ≤ limit) :
    cellsFrom width height size limit 0 =
      (cells width height size).map (spans width height size) := by
  have hflat {limit : Nat} (hle : rankOutside width height size ≤ limit) :=
    flatMap_ringInside h.width_pos h.height_pos h.size_pos (Nat.le_refl _) hle
  have hle := @two_mul_rankOutside_le width height size h.size_pos
  have hcells : rankOutside width height size ≤ max width.toNat height.toNat + 1 := by
    have := h.width_pos
    omega
  rw [h.cellsFrom_eq _ (Nat.zero_le _), ← List.range_eq_range', hflat hlimit, cells,
    hflat hcells]

end Sound

section Range

variable (hs : 0 < size.toNat) (himage : max width.toNat height.toNat < 2 ^ 31)
  (hsize : size.toNat < 2 ^ 31)
  (hlast : Span.margin (max width.toNat height.toNat) size.toNat +
    size.toNat * rankOutside width height size < 2 ^ 31)
include hs himage hsize hlast

/-- On an axis no longer than the longer side, the words wrap around for no cell of the image. -/
theorem clips_of_natAbs_le {image : UInt32} {step : Int} (hi : 0 < image.toNat)
    (hle : image.toNat ≤ max width.toNat height.toNat)
    (hstep : step.natAbs ≤ rankOutside width height size) : Span.Clips image size step := by
  have hfar := (@lt_rankOutside_iff width height size (rankOutside width height size) hs).not.1
    (Nat.lt_irrefl _)
  have hm := Span.two_mul_margin (max width.toNat height.toNat) size.toNat
  have hm' := Span.two_mul_margin image.toNat size.toNat
  have hmul : size.toNat * step.natAbs ≤ size.toNat * rankOutside width height size :=
    Nat.mul_le_mul_left _ hstep
  have habs : ((size.toNat : Int) * step).natAbs = size.toNat * step.natAbs := Int.natAbs_mul _ _
  -- A cell before the ring outside the image stops where that ring starts at the latest.
  have hnext : step < rankOutside width height size →
      size.toNat * step + size.toNat ≤ (size.toNat : Int) * rankOutside width height size := by
    intro hlt
    have hle : (size.toNat : Int) * (step + 1) ≤ size.toNat * rankOutside width height size :=
      Int.mul_le_mul_of_nonneg_left (by omega) (by omega)
    rwa [Int.mul_add, Int.mul_one] at hle
  rw [← Int.natCast_mul] at hlast hnext
  refine Span.clips_of_lt (by omega) hsize hi hs ?_ ?_ ?_ <;> rw [Span.origin]
  · omega
  · omega
  · intro hin
    obtain hlt | heq := Int.lt_or_eq_of_le (show step ≤ rankOutside width height size by omega)
    · have := hnext hlt
      omega
    · rw [heq, ← Int.natCast_mul] at hin
      omega

/-- The words count the cells if the ring outside the image starts within their range. -/
theorem sound_of_lt (hw : 0 < width.toNat) (hh : 0 < height.toNat) : Sound width height size := by
  refine ⟨hw, hh, hs, fun c hc => ⟨?_, ?_⟩⟩
  · exact clips_of_natAbs_le hs himage hsize hlast hw (Nat.le_max_left _ _)
      (Nat.le_trans (Nat.le_max_left _ _) hc)
  · exact clips_of_natAbs_le hs himage hsize hlast hh (Nat.le_max_right _ _)
      (Nat.le_trans (Nat.le_max_right _ _) hc)

end Range

theorem sound (hw : IsExtent width) (hh : IsExtent height) (hs : IsExtent size) :
    Sound width height size := by
  have hfar := two_mul_mul_rankOutside_le width height size
  have hm := Span.two_mul_margin (max width.toNat height.toNat) size.toNat
  obtain ⟨hw₁, hw₂⟩ := hw
  obtain ⟨hh₁, hh₂⟩ := hh
  obtain ⟨hs₁, hs₂⟩ := hs
  refine sound_of_lt hs₁ (by omega) (by omega) ?_ hw₁ hh₁
  rw [← Int.natCast_mul]
  omega

end Search

/-! ## Clips -/

/-- The bucket of a cell at a place of the order. -/
def ofCell (width height size : UInt32) (c : Int × Int) (index : Nat) : Bucket :=
  let x := Span.ofCell width size c.1
  let y := Span.ofCell height size c.2
  ⟨x.start, y.start, x.length, y.length, index⟩

/-- A bucket is the part of a cell inside the image. -/
structure IsClip (width height size : UInt32) (c : Int × Int) (b : Bucket) : Prop where
  left : (b.x.toNat : Int) = max 0 (Span.origin width.toNat size.toNat c.1)
  right : (b.x.toNat + b.width.toNat : Int) =
    min (width.toNat : Int) (Span.origin width.toNat size.toNat c.1 + size.toNat)
  top : (b.y.toNat : Int) = max 0 (Span.origin height.toNat size.toNat c.2)
  bottom : (b.y.toNat + b.height.toNat : Int) =
    min (height.toNat : Int) (Span.origin height.toNat size.toNat c.2 + size.toNat)

section Clips

variable {width height size : UInt32} {c : Int × Int} {b : Bucket} {k : Nat}

theorem toNat_add_ofNat {n m : UInt32} {k : Nat} (hk : k < m.toNat)
    (h : n.toNat + m.toNat ≤ 2 ^ 32) : (n + UInt32.ofNat k).toNat = n.toNat + k := by
  rw [UInt32.toNat_add, UInt32.toNat_ofNat', Nat.mod_eq_of_lt (show k < 2 ^ 32 by omega),
    Nat.mod_eq_of_lt (by omega)]

/-- The pixels of a bucket whose coordinates do not wrap around. -/
theorem mem_pixels (hx : b.x.toNat + b.width.toNat ≤ 2 ^ 32)
    (hy : b.y.toNat + b.height.toNat ≤ 2 ^ 32) {p : Pixel} :
    p ∈ b.pixels ↔
      (b.x.toNat ≤ p.x.toNat ∧ p.x.toNat < b.x.toNat + b.width.toNat) ∧
        b.y.toNat ≤ p.y.toNat ∧ p.y.toNat < b.y.toNat + b.height.toNat := by
  obtain ⟨px, py⟩ := p
  simp only [pixels, List.mem_flatMap, List.mem_range, List.mem_map, Pixel.mk.injEq]
  constructor
  · rintro ⟨dy, hdy, dx, hdx, rfl, rfl⟩
    rw [toNat_add_ofNat hdx hx, toNat_add_ofNat hdy hy]
    omega
  · rintro ⟨⟨hx₁, hx₂⟩, hy₁, hy₂⟩
    refine ⟨py.toNat - b.y.toNat, by omega, px.toNat - b.x.toNat, by omega, ?_, ?_⟩
    · refine UInt32.toNat_inj.1 ?_
      rw [toNat_add_ofNat (by omega) hx]
      omega
    · refine UInt32.toNat_inj.1 ?_
      rw [toNat_add_ofNat (by omega) hy]
      omega

/-- The cell that holds a pixel. -/
def cellAt (width height size : UInt32) (p : Pixel) : Int × Int :=
  ((p.x.toNat - Span.margin width.toNat size.toNat) / size.toNat,
    (p.y.toNat - Span.margin height.toNat size.toNat) / size.toNat)

theorem IsClip.within (h : IsClip width height size c b) :
    b.x.toNat + b.width.toNat ≤ width.toNat ∧ b.y.toNat + b.height.toNat ≤ height.toNat := by
  have hr := h.right
  have hb := h.bottom
  omega

theorem IsClip.nonempty (hs : IsExtent size) (hw : IsExtent width) (hh : IsExtent height)
    (hin : Inside width height size c) (h : IsClip width height size c b) :
    0 < b.width.toNat ∧ 0 < b.height.toNat := by
  obtain ⟨hl, hr, ht, hb⟩ := h
  obtain ⟨hx, hy⟩ := hin
  simp only [Span.Meets] at hx hy
  have := hs.1
  have := hw.1
  have := hh.1
  omega

theorem IsClip.extent_le (h : IsClip width height size c b) :
    b.width.toNat ≤ size.toNat ∧ b.height.toNat ≤ size.toNat := by
  obtain ⟨hl, hr, ht, hb⟩ := h
  omega

theorem IsClip.lt_of_mem (h : IsClip width height size c b) {p : Pixel} (hp : p ∈ b.pixels) :
    p.x < width ∧ p.y < height := by
  obtain ⟨hwx, hwy⟩ := h.within
  have hwidth := width.toNat_lt
  have hheight := height.toNat_lt
  obtain ⟨⟨-, hx⟩, -, hy⟩ := (mem_pixels (by omega) (by omega)).1 hp
  exact ⟨UInt32.lt_iff_toNat_lt.2 (by omega), UInt32.lt_iff_toNat_lt.2 (by omega)⟩

/-- A clip holds the pixels of the image that its cell holds. -/
theorem IsClip.mem_pixels_iff (hs : 0 < size.toNat) (h : IsClip width height size c b) {p : Pixel}
    (hx : p.x < width) (hy : p.y < height) :
    p ∈ b.pixels ↔ c = cellAt width height size p := by
  obtain ⟨hwx, hwy⟩ := h.within
  have hwidth := width.toNat_lt
  have hheight := height.toNat_lt
  have hx' := UInt32.lt_iff_toNat_lt.1 hx
  have hy' := UInt32.lt_iff_toNat_lt.1 hy
  rw [mem_pixels (by omega) (by omega), cellAt, Prod.ext_iff, ← Span.mem_cell_iff hs,
    ← Span.mem_cell_iff hs]
  obtain ⟨hl, hr, ht, hb⟩ := h
  constructor
  · rintro ⟨⟨hx₁, hx₂⟩, hy₁, hy₂⟩
    omega
  · rintro ⟨⟨hx₁, hx₂⟩, hy₁, hy₂⟩
    omega

theorem inside_cellAt (hs : 0 < size.toNat) {p : Pixel} (hx : p.x < width) (hy : p.y < height) :
    Inside width height size (cellAt width height size p) := by
  obtain ⟨hx₁, hx₂⟩ := (@Span.mem_cell_iff width.toNat _ _ hs p.x.toNat).2 rfl
  obtain ⟨hy₁, hy₂⟩ := (@Span.mem_cell_iff height.toNat _ _ hs p.y.toNat).2 rfl
  exact ⟨Span.meets_of_mem (UInt32.lt_iff_toNat_lt.1 hx) hx₁ hx₂,
    Span.meets_of_mem (UInt32.lt_iff_toNat_lt.1 hy) hy₁ hy₂⟩

namespace Sound

variable (h : Sound width height size)
include h

theorem isClip_ofCell (hin : Inside width height size c) (index : Nat) :
    IsClip width height size c (ofCell width height size c index) := by
  obtain ⟨hx, hy⟩ := h.clips c (Nat.le_of_lt (hin.distance_lt h.size_pos))
  exact
    { left := hx.start_eq hin.1
      right := hx.stop_eq hin.1
      top := hy.start_eq hin.2
      bottom := hy.stop_eq hin.2 }

/-- The buckets of an image are those of the cells that meet it. -/
theorem generate_eq :
    generate width height size =
      (cells width height size).zipIdx.map fun (c, k) => ofCell width height size c k := by
  have hne : ¬(width = 0 ∨ height = 0 ∨ size = 0) := by
    have hw := h.width_pos
    have hh := h.height_pos
    have hs := h.size_pos
    rintro (rfl | rfl | rfl) <;> simp_all
  have hlimit : rankOutside width height size ≤ Nat.max width.toNat height.toNat + 2 := by
    have hle := @two_mul_rankOutside_le width height size h.size_pos
    change _ ≤ max width.toNat height.toNat + 2
    omega
  rw [generate, if_neg hne, h.cellsFrom_zero hlimit, List.zipIdx_map, List.map_map]
  rfl

theorem length_generate :
    (generate width height size).length = (cells width height size).length := by
  simp [h.generate_eq]

theorem getElem?_generate (k : Nat) :
    (generate width height size)[k]? =
      (cells width height size)[k]?.map fun c => ofCell width height size c k := by
  simp [h.generate_eq, Function.comp_def]

theorem exists_cell (hk : (generate width height size)[k]? = some b) :
    ∃ c, (cells width height size)[k]? = some c ∧ Inside width height size c ∧
      IsClip width height size c b ∧ b.index = k := by
  rw [h.getElem?_generate] at hk
  obtain ⟨c, hc, rfl⟩ := Option.map_eq_some_iff.1 hk
  have hin : Inside width height size c := (mem_cells h.size_pos).1 (List.mem_of_getElem? hc)
  exact ⟨c, hc, hin, h.isClip_ofCell hin k, rfl⟩

theorem exists_clip (hb : b ∈ generate width height size) :
    ∃ c, Inside width height size c ∧ IsClip width height size c b := by
  obtain ⟨k, hk⟩ := List.mem_iff_getElem?.1 hb
  obtain ⟨c, -, hin, hclip, -⟩ := h.exists_cell hk
  exact ⟨c, hin, hclip⟩

/-- A pixel lies in the bucket of its cell and in no other. -/
theorem mem_pixels_iff {p : Pixel} (hx : p.x < width) (hy : p.y < height) :
    (∃ b, (generate width height size)[k]? = some b ∧ p ∈ b.pixels) ↔
      (cells width height size)[k]? = some (cellAt width height size p) := by
  constructor
  · rintro ⟨b, hb, hp⟩
    obtain ⟨c, hc, -, hclip, -⟩ := h.exists_cell hb
    rw [hc, (hclip.mem_pixels_iff h.size_pos hx hy).1 hp]
  · intro hc
    have hclip := h.isClip_ofCell (inside_cellAt h.size_pos hx hy) k
    exact ⟨_, by rw [h.getElem?_generate, hc]; rfl,
      (hclip.mem_pixels_iff h.size_pos hx hy).2 rfl⟩

theorem exists_mem_pixels {p : Pixel} :
    (∃ b ∈ generate width height size, p ∈ b.pixels) ↔ p.x < width ∧ p.y < height := by
  constructor
  · rintro ⟨b, hb, hp⟩
    obtain ⟨c, -, hclip⟩ := h.exists_clip hb
    exact hclip.lt_of_mem hp
  · rintro ⟨hx, hy⟩
    obtain ⟨k, hk⟩ :=
      List.mem_iff_getElem?.1 ((mem_cells h.size_pos).2 (inside_cellAt h.size_pos hx hy))
    obtain ⟨b, hb, hp⟩ := (h.mem_pixels_iff hx hy).2 hk
    exact ⟨b, List.mem_of_getElem? hb, hp⟩

end Sound

end Clips

/-! ## Cover -/

/-- The buckets cut an image into the cells of a size, in the order of the spiral. -/
structure Covers (width height size : UInt32) (buckets : List Bucket) : Prop where
  existsUnique : ∀ p : Pixel, p.x < width → p.y < height →
    ∃! k : Nat, ∃ b, buckets[k]? = some b ∧ p ∈ b.pixels
  nonempty : ∀ b ∈ buckets, 0 < b.width ∧ 0 < b.height
  within : ∀ b ∈ buckets,
    b.x.toNat + b.width.toNat ≤ width.toNat ∧ b.y.toNat + b.height.toNat ≤ height.toNat
  extent_le : ∀ b ∈ buckets, b.width ≤ size ∧ b.height ≤ size
  index_eq : ∀ (k : Nat) (b : Bucket), buckets[k]? = some b → b.index = k
  /-- The center comes first and the rings follow each other. -/
  spiral : ∃ cells : List (Int × Int),
    List.Forall₂ (IsClip width height size) cells buckets ∧ cells.head? = some (0, 0) ∧
      cells.Pairwise fun c c' => Spiral.distance c ≤ Spiral.distance c'

section Cover

variable {width height size : UInt32} {b : Bucket} {k : Nat}

theorem existsUnique_cellAt (hs : IsExtent size) {p : Pixel} (hx : p.x < width)
    (hy : p.y < height) :
    ∃! k : Nat, (cells width height size)[k]? = some (cellAt width height size p) := by
  have hmem := (mem_cells hs.1).2 (inside_cellAt hs.1 hx hy)
  obtain ⟨k, hk⟩ := List.mem_iff_getElem?.1 hmem
  refine ⟨k, hk, fun j hj => ?_⟩
  have hlt : j < (cells width height size).length := (List.getElem?_eq_some_iff.1 hj).1
  exact (List.getElem?_inj hlt (nodup_cells width height size)).1 (hj.trans hk.symm)

variable (hw : IsExtent width) (hh : IsExtent height) (hs : IsExtent size)
include hw hh hs

theorem head?_cells : (cells width height size).head? = some (0, 0) := by
  rw [cells, List.range_succ_eq_map, List.flatMap_cons, ringInside_zero hw.1 hh.1 hs.1]
  rfl

theorem exists_cell_of_generate (h : (generate width height size)[k]? = some b) :
    ∃ c, (cells width height size)[k]? = some c ∧ Inside width height size c ∧
      IsClip width height size c b ∧ b.index = k :=
  (sound hw hh hs).exists_cell h

theorem exists_cell_of_mem (h : b ∈ generate width height size) :
    ∃ c, Inside width height size c ∧ IsClip width height size c b :=
  (sound hw hh hs).exists_clip h

theorem mem_pixels_generate {p : Pixel} (hx : p.x < width) (hy : p.y < height) :
    (∃ b, (generate width height size)[k]? = some b ∧ p ∈ b.pixels) ↔
      (cells width height size)[k]? = some (cellAt width height size p) :=
  (sound hw hh hs).mem_pixels_iff hx hy

theorem nodup_generate : (generate width height size).Nodup := by
  refine List.nodup_iff_getElem?_ne_getElem?.2 fun i j hij hj heq => ?_
  obtain ⟨b, hb⟩ : ∃ b, (generate width height size)[j]? = some b :=
    ⟨_, List.getElem?_eq_getElem hj⟩
  obtain ⟨-, -, -, -, hindex⟩ := exists_cell_of_generate hw hh hs hb
  obtain ⟨-, -, -, -, hindex'⟩ := exists_cell_of_generate hw hh hs (heq.trans hb)
  omega

theorem forall₂_isClip :
    List.Forall₂ (IsClip width height size) (cells width height size)
      (generate width height size) := by
  refine List.forall₂_iff_get.2 ⟨(sound hw hh hs).length_generate.symm, fun k hk hk' => ?_⟩
  obtain ⟨c, hc, -, hclip, -⟩ :=
    exists_cell_of_generate hw hh hs (List.getElem?_eq_getElem hk')
  obtain rfl : (cells width height size)[k] = c := by
    rwa [List.getElem?_eq_getElem hk, Option.some_inj] at hc
  exact hclip

theorem filterMap_cell? {rank : Nat} (hrank : rank ≤ rankOutside width height size) :
    (Spiral.ring rank).filterMap (cell? width height size) =
      (ringInside width height size rank).map (spans width height size) :=
  (sound hw hh hs).filterMap_ring hrank

theorem cellsFrom_of_le {rank limit : Nat} (h : ringInside width height size rank = [])
    (hle : rank ≤ limit) :
    cellsFrom width height size limit 0 =
      (cells width height size).map (spans width height size) :=
  (sound hw hh hs).cellsFrom_zero
    (Nat.le_trans ((ringInside_eq_nil_iff hw.1 hh.1 hs.1).1 h) hle)

/-- The search meets a ring outside the image, and so it ends. -/
theorem exists_stop :
    ∃ last, 0 < last ∧ 2 * last ≤ max width.toNat height.toNat + 3 ∧
      ringInside width height size last = [] ∧ last ≤ rankOutside width height size :=
  ⟨rankOutside width height size, rankOutside_pos hs.1, two_mul_rankOutside_le hs.1,
    (ringInside_eq_nil_iff hw.1 hh.1 hs.1).2 (Nat.le_refl _), Nat.le_refl _⟩

/-- The buckets of an image cover it, and the search for them ends at the first ring outside the
image. -/
theorem generate_covers :
    Covers width height size (generate width height size) ∧
      ∃ last, 0 < last ∧ Spiral.ringLength last < 2 ^ 31 ∧
        (Spiral.ring last).filterMap (cell? width height size) = [] ∧
        ∀ limit, last ≤ limit → cellsFrom width height size limit 0 =
          cellsFrom width height size (Nat.max width.toNat height.toNat + 2) 0 := by
  refine ⟨⟨fun p hx hy => ?_, fun b hb => ?_, fun b hb => ?_, fun b hb => ?_, fun k b hb => ?_,
    ⟨cells width height size, forall₂_isClip hw hh hs, head?_cells hw hh hs,
      pairwise_cells width height size⟩⟩, ?_⟩
  · simpa only [mem_pixels_generate hw hh hs hx hy] using existsUnique_cellAt hs hx hy
  · obtain ⟨c, hin, hclip⟩ := exists_cell_of_mem hw hh hs hb
    exact hclip.nonempty hs hw hh hin
  · obtain ⟨c, -, hclip⟩ := exists_cell_of_mem hw hh hs hb
    exact hclip.within
  · obtain ⟨c, -, hclip⟩ := exists_cell_of_mem hw hh hs hb
    exact hclip.extent_le
  · obtain ⟨c, -, -, -, hindex⟩ := exists_cell_of_generate hw hh hs hb
    exact hindex
  · obtain ⟨last, hpos, hlast, hnil, hmul⟩ := exists_stop hw hh hs
    have hwidth := hw.2
    have hheight := hh.2
    refine ⟨last, hpos, ?_, ?_, fun limit hle => ?_⟩
    · rw [Spiral.ringLength, if_neg (by omega)]
      omega
    · rw [filterMap_cell? hw hh hs hmul, hnil, List.map_nil]
    · rw [cellsFrom_of_le hw hh hs hnil hle,
        cellsFrom_of_le hw hh hs hnil (by simp only [Nat.max_def] at *; omega)]

end Cover

/-- A strip lower than a bucket, whose outer buckets are cut off. -/
theorem generate_covers_strip :
    (IsExtent 9 ∧ IsExtent 2 ∧ IsExtent 4) ∧
      generate 9 2 4 = [⟨2, 0, 4, 2, 0⟩, ⟨6, 0, 3, 2, 1⟩, ⟨0, 0, 2, 2, 2⟩] ∧
      Covers 9 2 4 (generate 9 2 4) := by
  have hw : IsExtent 9 := by decide
  have hh : IsExtent 2 := by decide
  have hs : IsExtent 4 := by decide
  exact ⟨⟨hw, hh, hs⟩, by decide +kernel, (generate_covers hw hh hs).1⟩

end Radiance.Bucket
