import Radiance.CommandLine
import Radiance.Proofs.Raster.Cover
import Radiance.Proofs.Scalar.Exact

/-!
# The range of the words

The buckets of an image are searched for in signed words of 32 bits, while the sides of the image
and the size of the buckets may be any words without a sign.  For an image whose sides are far from
the largest word, all words of the search stay in their range up to buckets of about a third of the
number of words.  Beyond it they wrap around: first in the ring outside the image, where it does no
harm, and then in the cells of the image, so that a part of the image or all of it is lost.

## Main definitions

* `Span.InRange`: the words of a cell stay in their range.
* `Bucket.Searched`: the rings that the search comes to.
* `Bucket.InRange`: all words of the search stay in their range.
* `Bucket.Complete`: the buckets hold as many pixels as the image.

## Main statements

* `Bucket.inRange_iff`: when all words of the search stay in their range.
* `Bucket.Sound.pixels_perm`: the pixels of the buckets are the pixels of the image.
* `Bucket.generate_eq_nil_of_longest`, `Bucket.generate_eq_nil_of_size`: sizes without any bucket.
* `Bucket.search_in_range`: which resolutions and sizes of buckets are searched as they should be.
-/

namespace Radiance

namespace Span

/-- The words of a cell stand for the integers that they are meant to: no cast, difference, product
or sum leaves the range of a word. -/
structure InRange (image size : UInt32) (step : Int) : Prop where
  image_eq : image.toInt32.toInt = image.toNat
  size_eq : size.toInt32.toInt = size.toNat
  difference_eq : (image.toInt32 - size.toInt32).toInt = (image.toNat : Int) - size.toNat
  margin_eq : ((image.toInt32 - size.toInt32) / 2).toInt = margin image.toNat size.toNat
  step_eq : (Int32.ofInt step).toInt = step
  shift_eq : (size.toInt32 * Int32.ofInt step).toInt = size.toNat * step
  start_eq : (startWord image size step).toInt = origin image.toNat size.toNat step
  stop_eq : (stopWord image size step).toInt = origin image.toNat size.toNat step + size.toNat

section Cells

variable {image size : UInt32} {step : Int}

theorem inRange_of_lt (hi : image.toNat < 2 ^ 31) (hs : size.toNat < 2 ^ 31)
    (hs₀ : 0 < size.toNat) (hshift : size.toNat * step.natAbs < 2 ^ 31)
    (hlo : -2 ^ 31 ≤ origin image.toNat size.toNat step)
    (hhi : origin image.toNat size.toNat step + size.toNat < 2 ^ 31) : InRange image size step := by
  have habs : ((size.toNat : Int) * step).natAbs = size.toNat * step.natAbs := Int.natAbs_mul _ _
  have hle : step.natAbs ≤ size.toNat * step.natAbs := Nat.le_mul_of_pos_left _ hs₀
  have hstep : (Int32.ofInt step).toInt = step :=
    Int32.toInt_ofInt_of_le (by omega) (by omega)
  refine
    { image_eq := toInt_toInt32 hi
      size_eq := toInt_toInt32 hs
      difference_eq := toInt_difference hi hs
      margin_eq := toInt_margin hi hs
      step_eq := hstep
      shift_eq := ?_
      start_eq := ?_
      stop_eq := ?_ }
  · rw [Int32.toInt_mul, toInt_toInt32 hs, hstep]
    exact Int.bmod_eq_of_le (by omega) (by omega)
  · rw [toInt_startWord hi hs]
    exact Int.bmod_eq_of_le (by omega) (by omega)
  · rw [toInt_stopWord hi hs]
    exact Int.bmod_eq_of_le (by omega) (by omega)

namespace InRange

variable (h : InRange image size step)
include h

theorem image_lt : image.toNat < 2 ^ 31 := by
  have hlt := Int32.toInt_lt image.toInt32
  rw [h.image_eq] at hlt
  omega

theorem size_lt : size.toNat < 2 ^ 31 := by
  have hlt := Int32.toInt_lt size.toInt32
  rw [h.size_eq] at hlt
  omega

theorem stop_lt : origin image.toNat size.toNat step + size.toNat < 2 ^ 31 := by
  have hlt := Int32.toInt_lt (stopWord image size step)
  rwa [h.stop_eq] at hlt

theorem clips (hi : 0 < image.toNat) (hs : 0 < size.toNat) : Clips image size step := by
  have hle := Int32.le_toInt (startWord image size step)
  rw [h.start_eq] at hle
  exact clips_of_words h.image_lt h.size_lt hi hs hle h.stop_lt

end InRange

/-! ## Sizes that are read as negative numbers -/

theorem toInt_toInt32_of_le {n : UInt32} (h : 2 ^ 31 ≤ n.toNat) :
    n.toInt32.toInt = (n.toNat : Int) - 2 ^ 32 := by
  have hlt := n.toNat_lt
  have hcast : n.toInt32.toBitVec.toNat = n.toNat := by
    rw [UInt32.toBitVec_toInt32]
    rfl
  rw [Int32.toInt, BitVec.toInt_eq_toNat_cond, hcast, if_neg (by omega)]
  omega

theorem isEmpty_of_image (h : 2 ^ 31 ≤ image.toNat) : (ofCell image size step).isEmpty = true := by
  have himage := toInt_toInt32_of_le h
  have hlt := image.toNat_lt
  rw [isEmpty_iff]
  omega

/-- With a size that is read as a small negative number, the cells next to the center stop before
they start. -/
theorem isEmpty_of_size (hi : image.toNat ≤ 2 ^ 30) (hs : 3 * 2 ^ 30 < size.toNat)
    (hstep : step.natAbs ≤ 1) : (ofCell image size step).isEmpty = true := by
  have hlt := size.toNat_lt
  obtain ⟨back, hback⟩ : ∃ back : Int, back = 2 ^ 32 - size.toNat := ⟨_, rfl⟩
  have hsize : size.toInt32.toInt = -back := by
    rw [toInt_toInt32_of_le (by omega)]
    omega
  have hshift : (-back * step).natAbs ≤ back.natAbs := by
    rw [Int.natAbs_mul, Int.natAbs_neg]
    exact Nat.le_trans (Nat.mul_le_mul_left _ hstep) (Nat.mul_one _).le
  have hmargin : ((image.toInt32 - size.toInt32) / 2).toInt = (image.toNat + back) / 2 := by
    have htwo : Int32.toInt 2 = 2 := rfl
    rw [Int32.toInt_div, Int32.toInt_sub, hsize, toInt_toInt32 (by omega), htwo,
      Int.bmod_eq_of_le (n := image.toNat - -back) (by omega) (by omega), Int.sub_neg,
      Int.tdiv_eq_ediv_of_nonneg (by omega)]
    exact Int.bmod_eq_of_le (by omega) (by omega)
  have hproduct : (size.toInt32 * Int32.ofInt step).toInt = -back * step := by
    rw [Int32.toInt_mul, hsize, Int32.toInt_ofInt_of_le (by omega) (by omega)]
    exact Int.bmod_eq_of_le (by omega) (by omega)
  have hstart : (startWord image size step).toInt = (image.toNat + back) / 2 + -back * step := by
    rw [startWord, Int32.toInt_add, hmargin, hproduct]
    exact Int.bmod_eq_of_le (by omega) (by omega)
  rw [isEmpty_iff, stopWord, Int32.toInt_add, hstart, hsize,
    Int.bmod_eq_of_le (by omega) (by omega)]
  omega

end Cells

end Span

namespace Bucket

/-- The rings that the search comes to: every ring before one of them, but for the center, has a
bucket. -/
def Searched (width height size : UInt32) (rank : Nat) : Prop :=
  ∀ rank', 0 < rank' → rank' < rank →
    (Spiral.ring rank').filterMap (cell? width height size) ≠ []

/-- All words of the search stay in their range: the lengths of the rings that it comes to, and the
words of their cells. -/
def InRange (width height size : UInt32) : Prop :=
  ∀ rank, Searched width height size rank → Spiral.ringLength rank < 2 ^ 31 ∧
    ∀ c ∈ Spiral.ring rank, Span.InRange width size c.1 ∧ Span.InRange height size c.2

section Search

variable {width height size : UInt32} {rank : Nat} {c : Int × Int}

theorem Sound.le_of_searched (h : Sound width height size)
    (hrank : Searched width height size rank) : rank ≤ rankOutside width height size := by
  refine Nat.le_of_not_lt fun hlt => ?_
  refine hrank _ (rankOutside_pos h.size_pos) hlt ?_
  rw [h.filterMap_ring (Nat.le_refl _),
    (ringInside_eq_nil_iff h.width_pos h.height_pos h.size_pos).2 (Nat.le_refl _), List.map_nil]

/-- On an axis no longer than the longer side, the words stay in their range up to a ring whose last
cell on the longer axis stops at a word. -/
theorem inRange_of_natAbs_le {image : UInt32} {step : Int} (hs : 0 < size.toNat)
    (himage : max width.toNat height.toNat < 2 ^ 31) (hsize : size.toNat < 2 ^ 31)
    (hlast : Span.margin (max width.toNat height.toNat) size.toNat +
      size.toNat * (rank + 1) < 2 ^ 31)
    (hle : image.toNat ≤ max width.toNat height.toNat) (hstep : step.natAbs ≤ rank) :
    Span.InRange image size step := by
  have hm := Span.two_mul_margin (max width.toNat height.toNat) size.toNat
  have hm' := Span.two_mul_margin image.toNat size.toNat
  have hmul : size.toNat * step.natAbs ≤ size.toNat * rank := Nat.mul_le_mul_left _ hstep
  have habs : ((size.toNat : Int) * step).natAbs = size.toNat * step.natAbs := Int.natAbs_mul _ _
  rw [Int.mul_add, Int.mul_one, ← Int.natCast_mul] at hlast
  refine Span.inRange_of_lt (by omega) hsize hs (by omega) ?_ ?_ <;> rw [Span.origin] <;> omega

section Positive

variable (hw : 0 < width.toNat) (hh : 0 < height.toNat) (hs : 0 < size.toNat)
include hw hh hs

/-- A search whose words stay in their range comes to the first ring outside the image. -/
theorem InRange.searched (h : InRange width height size) :
    ∀ rank ≤ rankOutside width height size, Searched width height size rank := by
  intro rank
  induction rank with
  | zero => exact fun _ rank' _ hlt => absurd hlt (Nat.not_lt_zero _)
  | succ rank ih =>
    intro hrank rank' hpos hlt
    have hbefore := ih (by omega)
    obtain hlt | rfl := Nat.lt_succ_iff_lt_or_eq.1 hlt
    · exact hbefore rank' hpos hlt
    · have hclips := (h rank' hbefore).2
      rw [filterMap_ring fun c hc => ?_, ne_eq, List.map_eq_nil_iff,
        ringInside_eq_nil_iff hw hh hs]
      · omega
      · obtain ⟨hx, hy⟩ := hclips c (Spiral.mem_ring.2 hc)
        exact ⟨hx.clips hw hs, hy.clips hh hs⟩

/-- The words of the search stay in their range exactly if the sides and the size are read as they
are, the length of the first ring outside the image is a word, and its last cell stops at a word. -/
theorem inRange_iff :
    InRange width height size ↔
      max width.toNat height.toNat < 2 ^ 31 ∧ size.toNat < 2 ^ 31 ∧
        Spiral.ringLength (rankOutside width height size) < 2 ^ 31 ∧
        Span.margin (max width.toNat height.toNat) size.toNat +
          size.toNat * (rankOutside width height size + 1) < 2 ^ 31 := by
  constructor
  · intro h
    obtain ⟨hring, hcells⟩ := h _ (h.searched hw hh hs _ (Nat.le_refl _))
    obtain ⟨hx, hy⟩ := hcells (rankOutside width height size, rankOutside width height size)
      (Spiral.mem_ring.2 (by simp [Spiral.distance]))
    have hwidth := hx.image_lt
    have hheight := hy.image_lt
    have hright := hx.stop_lt
    have hbottom := hy.stop_lt
    rw [Span.origin] at hright hbottom
    refine ⟨by omega, hx.size_lt, hring, ?_⟩
    rw [Int.mul_add, Int.mul_one, ← Int.add_assoc]
    obtain hle | hle := Nat.le_total width.toNat height.toNat
    · rwa [Nat.max_eq_right hle]
    · rwa [Nat.max_eq_left hle]
  · rintro ⟨himage, hsize, hring, hlast⟩ rank hrank
    have hsound : Sound width height size := by
      refine sound_of_lt hs himage hsize ?_ hw hh
      rw [Int.mul_add, Int.mul_one] at hlast
      omega
    have hle := hsound.le_of_searched hrank
    refine ⟨Nat.lt_of_le_of_lt (Spiral.ringLength_mono hle) hring, fun c hc => ?_⟩
    have hdistance := Spiral.mem_ring.1 hc
    rw [Spiral.distance] at hdistance
    exact ⟨inRange_of_natAbs_le hs himage hsize hlast (Nat.le_max_left _ _) (by omega),
      inRange_of_natAbs_le hs himage hsize hlast (Nat.le_max_right _ _) (by omega)⟩

theorem InRange.sound (h : InRange width height size) : Sound width height size := by
  obtain ⟨himage, hsize, -, hlast⟩ := (inRange_iff hw hh hs).1 h
  rw [Int.mul_add, Int.mul_one] at hlast
  exact sound_of_lt hs himage hsize (by omega) hw hh

end Positive

end Search

/-! ## Pixels -/

/-- There are buckets, and they hold as many pixels as the image.  If their pixels are counted in
words, the sum wraps around as the product of the sides does. -/
structure Complete (width height : UInt32) (buckets : List Bucket) : Prop where
  ne_nil : buckets ≠ []
  sum_pixels : (buckets.map fun b => b.pixels.length).sum = width.toNat * height.toNat
  sum_pixelCount : (buckets.map pixelCount).sum = width * height

section Pixels

variable {width height size : UInt32} {b : Bucket}

@[simp] theorem length_pixels (b : Bucket) : b.pixels.length = b.width.toNat * b.height.toNat := by
  rw [pixels_eq_map_range, List.length_map, List.length_range, Nat.mul_comm]

theorem nodup_pixels (hx : b.x.toNat + b.width.toNat ≤ 2 ^ 32)
    (hy : b.y.toNat + b.height.toNat ≤ 2 ^ 32) : b.pixels.Nodup := by
  refine List.nodup_flatMap.2 ⟨fun dy _ => ?_, ?_⟩
  · refine List.Nodup.map_on (fun dx hdx dx' hdx' heq => ?_) List.nodup_range
    have hword := congrArg (fun p : Pixel => p.x.toNat) heq
    simp only [toNat_add_ofNat (List.mem_range.1 hdx) hx,
      toNat_add_ofNat (List.mem_range.1 hdx') hx] at hword
    omega
  · refine List.pairwise_lt_range.imp_of_mem fun {dy dy'} hdy hdy' hlt p hp hp' => ?_
    obtain ⟨dx, -, rfl⟩ := List.mem_map.1 hp
    obtain ⟨dx', -, heq⟩ := List.mem_map.1 hp'
    have hword := congrArg (fun p : Pixel => p.y.toNat) heq
    simp only [toNat_add_ofNat (List.mem_range.1 hdy) hy,
      toNat_add_ofNat (List.mem_range.1 hdy') hy] at hword
    omega

theorem sum_pixelCount (buckets : List Bucket) :
    (buckets.map pixelCount).sum =
      UInt32.ofNat (buckets.map fun b => b.pixels.length).sum := by
  induction buckets with
  | nil => rfl
  | cons b buckets ih =>
    simp only [List.map_cons, List.sum_cons, ih, UInt32.ofNat_add, length_pixels,
      UInt32.ofNat_mul, UInt32.ofNat_toNat, pixelCount]

namespace Sound

variable (h : Sound width height size)
include h

theorem nodup_flatMap_pixels : ((generate width height size).flatMap pixels).Nodup := by
  have hwidth := width.toNat_lt
  have hheight := height.toNat_lt
  refine List.nodup_flatMap.2 ⟨fun b hb => ?_, List.pairwise_iff_getElem.2 ?_⟩
  · obtain ⟨c, -, hclip⟩ := h.exists_clip hb
    obtain ⟨hwx, hwy⟩ := hclip.within
    exact nodup_pixels (by omega) (by omega)
  · intro i j hi hj hlt p hp hp'
    obtain ⟨c, -, hclip⟩ := h.exists_clip (List.getElem_mem hi)
    obtain ⟨hx, hy⟩ := hclip.lt_of_mem hp
    have hcell := (h.mem_pixels_iff hx hy).1 ⟨_, List.getElem?_eq_getElem hi, hp⟩
    have hcell' := (h.mem_pixels_iff hx hy).1 ⟨_, List.getElem?_eq_getElem hj, hp'⟩
    have hlength := (List.getElem?_eq_some_iff.1 hcell).1
    have heq := (List.getElem?_inj hlength (nodup_cells width height size)).1
      (hcell.trans hcell'.symm)
    omega

/-- The pixels of the buckets are the pixels of the image in another order. -/
theorem pixels_perm :
    ((generate width height size).flatMap pixels).Perm (Bucket.mk 0 0 width height 0).pixels := by
  have hwidth := width.toNat_lt
  have hheight := height.toNat_lt
  have hx : (Bucket.mk 0 0 width height 0).x.toNat + width.toNat ≤ 2 ^ 32 := by simp; omega
  have hy : (Bucket.mk 0 0 width height 0).y.toNat + height.toNat ≤ 2 ^ 32 := by simp; omega
  refine (List.perm_ext_iff_of_nodup h.nodup_flatMap_pixels (nodup_pixels hx hy)).2 fun p => ?_
  rw [List.mem_flatMap, h.exists_mem_pixels, mem_pixels hx hy, UInt32.lt_iff_toNat_lt,
    UInt32.lt_iff_toNat_lt]
  simp

theorem complete : Complete width height (generate width height size) := by
  have hsum : ((generate width height size).map fun b => b.pixels.length).sum =
      width.toNat * height.toNat := by
    rw [← List.length_flatMap, h.pixels_perm.length_eq, length_pixels]
  refine ⟨fun hnil => ?_, hsum, ?_⟩
  · have hpos := Nat.mul_pos h.width_pos h.height_pos
    rw [← hsum, hnil] at hpos
    exact Nat.lt_irrefl _ hpos
  · rw [sum_pixelCount, hsum, UInt32.ofNat_mul, UInt32.ofNat_toNat, UInt32.ofNat_toNat]

end Sound

end Pixels

/-! ## Lost buckets -/

section Lost

variable {width height size : UInt32}

/-- If the ring outside the image starts beyond the range of the words, the last cell of the longer
axis is lost. -/
theorem exists_lost (hw : 0 < width.toNat) (hh : 0 < height.toNat) (hs : 0 < size.toNat)
    (himage : max width.toNat height.toNat < 2 ^ 31) (hsize : size.toNat < 2 ^ 31)
    (hlast : 2 ^ 31 ≤ Span.margin (max width.toNat height.toNat) size.toNat +
      size.toNat * rankOutside width height size) :
    ∃ c, Inside width height size c ∧ cell? width height size c = none := by
  obtain ⟨rank, hrank⟩ : ∃ rank, rankOutside width height size = rank + 1 :=
    Nat.exists_eq_add_one.2 (rankOutside_pos hs)
  have hlt := (@lt_rankOutside_iff width height size rank hs).1 (by omega)
  have hm := Span.two_mul_margin (max width.toNat height.toNat) size.toNat
  rw [hrank] at hlast
  have haxis {image : UInt32} (hi : image.toNat = max width.toNat height.toNat) :
      (Span.ofCell image size rank).isEmpty = true := by
    rw [Span.isEmpty_iff, Span.toInt_stopWord (by omega) hsize, Span.origin, hi,
      ← Int.sub_mul_bmod_self_right _ 1]
    push_cast at hlast
    rw [Int.mul_add, Int.mul_one, ← Int.natCast_mul] at hlast
    rw [← Int.natCast_mul, Int.bmod_eq_of_le (by omega) (by omega)]
    omega
  obtain hle | hle := Nat.le_total width.toNat height.toNat
  · rw [Nat.max_eq_right hle] at hlt haxis
    refine ⟨(0, rank), ⟨Span.meets_zero hw hs, Span.meets_of_lt hh hs hlt⟩, ?_⟩
    simp [cell?, haxis rfl]
  · rw [Nat.max_eq_left hle] at hlt haxis
    refine ⟨(rank, 0), ⟨Span.meets_of_lt hw hs hlt, Span.meets_zero hh hs⟩, ?_⟩
    simp [cell?, haxis rfl]

/-- Without a cell in the first two rings there are no buckets. -/
theorem generate_eq_nil (h : ∀ c : Int × Int, Spiral.distance c ≤ 1 →
    cell? width height size c = none) : generate width height size = [] := by
  have hring {rank : Nat} (hrank : rank ≤ 1) :
      (Spiral.ring rank).filterMap (cell? width height size) = [] :=
    List.filterMap_eq_nil_iff.2 fun c hc => h c (by rwa [Spiral.mem_ring.1 hc])
  have hsearch (limit : Nat) : cellsFrom width height size (limit + 2) 0 = [] := by
    simp [cellsFrom, hring]
  rw [generate, hsearch]
  simp

theorem generate_eq_nil_of_longest (h : 2 ^ 31 ≤ max width.toNat height.toNat) :
    generate width height size = [] := by
  refine generate_eq_nil fun c _ => ?_
  obtain hw | hh := le_max_iff.1 h
  · simp [cell?, Span.isEmpty_of_image hw]
  · simp [cell?, Span.isEmpty_of_image hh]

theorem generate_eq_nil_of_size (himage : max width.toNat height.toNat ≤ 2 ^ 30)
    (hsize : 3 * 2 ^ 30 < size.toNat) : generate width height size = [] := by
  refine generate_eq_nil fun c hc => ?_
  rw [Spiral.distance] at hc
  simp [cell?, Span.isEmpty_of_size (Nat.le_trans (Nat.le_max_left _ _) himage) hsize
    (Nat.le_trans (Nat.le_max_left _ _) hc)]

end Lost

end Bucket

/-! ## Resolutions and sizes of a run -/

theorem Description.resolution_pos {α : Type} [Scalar α] {d : Description α}
    (h : d.validate = .ok ()) : 0 < d.camera.width.toNat ∧ 0 < d.camera.height.toNat := by
  have hne : ¬(d.camera.width = 0 ∨ d.camera.height = 0) := by
    intro hzero
    obtain ⟨e, he⟩ : ∃ e, d.validate = .error e := by
      rw [validate]
      cases d.output
      case none => exact ⟨.missingOutput, rfl⟩
      case some =>
        rw [if_pos hzero]
        exact ⟨.invalidResolution d.camera.width d.camera.height, rfl⟩
    rw [he] at h
    cases h
  rw [not_or, ← UInt32.toNat_inj, ← UInt32.toNat_inj] at hne
  exact ⟨Nat.pos_of_ne_zero hne.1, Nat.pos_of_ne_zero hne.2⟩

theorem CommandLine.Options.bucketSize_pos (options : Options) :
    0 < (bucketSize options).toNat := by
  rw [bucketSize]
  split
  case isTrue => decide
  case isFalse h => exact Nat.pos_of_ne_zero fun hzero => h (UInt32.toNat_inj.1 hzero)

/-- What the search for buckets does with a resolution that passes the check of a description and a
size that a run is asked for.  Its words stay in their range exactly if the last cell of the first
ring outside the image stops at a word, and then the buckets are complete.  They are complete even
if only the words of that ring leave their range, but if the ring starts beyond it a cell of the
image is lost.  Sides that are read as negative numbers leave no bucket at all, and neither do sizes
that are read as small negative numbers. -/
theorem Bucket.search_in_range {α : Type} [Scalar α] {d : Description α} (hd : d.validate = .ok ())
    (options : Options) :
    let width := d.camera.width
    let height := d.camera.height
    let size := CommandLine.Options.bucketSize options
    let longest := max width.toNat height.toNat
    let last := rankOutside width height size
    (InRange width height size ↔
      longest < 2 ^ 31 ∧ size.toNat < 2 ^ 31 ∧ Spiral.ringLength last < 2 ^ 31 ∧
        Span.margin longest size.toNat + size.toNat * (last + 1) < 2 ^ 31) ∧
    (InRange width height size → Complete width height (generate width height size)) ∧
    (longest < 2 ^ 31 → size.toNat < 2 ^ 31 → Spiral.ringLength last < 2 ^ 31 →
      (Span.margin longest size.toNat + size.toNat * last < 2 ^ 31 →
        Complete width height (generate width height size)) ∧
      (2 ^ 31 ≤ Span.margin longest size.toNat + size.toNat * last →
        ∃ c, Inside width height size c ∧ cell? width height size c = none)) ∧
    (2 ^ 31 ≤ longest → generate width height size = []) ∧
    (longest ≤ 2 ^ 30 → 3 * 2 ^ 30 < size.toNat → generate width height size = []) := by
  intro width height size longest last
  obtain ⟨hw, hh⟩ := Description.resolution_pos hd
  have hs : 0 < size.toNat := CommandLine.Options.bucketSize_pos options
  refine ⟨inRange_iff hw hh hs, fun h => ?_, fun himage hsize _ => ⟨fun hlast => ?_,
    fun hlast => ?_⟩, generate_eq_nil_of_longest, generate_eq_nil_of_size⟩
  · exact (h.sound hw hh hs).complete
  · exact (sound_of_lt hs himage hsize hlast hw hh).complete
  · exact exists_lost hw hh hs himage hsize hlast

/-! ### A scene without shapes -/

/-- A scene without shapes and lights for an image of a resolution. -/
noncomputable def Description.blank (width height : UInt32) : Description (Exact .plus) where
  camera := ⟨width, height, 90, .x, [], 0, 1⟩
  sampler := .standard
  integrator := .direct
  output := some "image.png"
  shared := []
  instances := []
  lights := []

theorem Description.validate_blank {width height : UInt32} (hw : width ≠ 0) (hh : height ≠ 0) :
    (blank width height).validate = .ok () := by
  have hfov : (90 : ℝ) < 180 := by norm_num
  simp [validate, blank, backgroundCount, SamplerSpec.standard, SamplerSpec.defaultCount, hw, hh,
    hfov, pure, Except.pure, bind, Except.bind]

/-- An image of 9 by 2 pixels in buckets of 4: the words stay in their range up to the second ring,
which lies outside the image, and three buckets hold its 18 pixels. -/
theorem Bucket.search_in_range_strip :
    (Description.blank 9 2).validate = .ok () ∧
      CommandLine.Options.bucketSize { scene := "scene.json", blockSize := 4 } = 4 ∧
      rankOutside 9 2 4 = 2 ∧ InRange 9 2 4 ∧
      ((generate 9 2 4).map fun b => b.pixels.length).sum = 18 := by
  have hvalid : (Description.blank 9 2).validate = .ok () :=
    Description.validate_blank (by decide) (by decide)
  obtain ⟨hrange, hcomplete, -⟩ :=
    search_in_range hvalid { scene := "scene.json", blockSize := 4 }
  have hin : InRange 9 2 4 := hrange.2 (by decide)
  exact ⟨hvalid, rfl, rfl, hin, (hcomplete hin).sum_pixels⟩

/-- The largest word as the size of the buckets leaves an image of 4 by 4 pixels without any. -/
theorem Bucket.search_in_range_largest :
    (Description.blank 4 4).validate = .ok () ∧
      CommandLine.Options.bucketSize { scene := "scene.json", blockSize := 4294967295 } =
        4294967295 ∧
      ¬InRange 4 4 4294967295 ∧ generate 4 4 4294967295 = [] ∧
      ((generate 4 4 4294967295).map fun b => b.pixels.length).sum ≠
        (4 : UInt32).toNat * (4 : UInt32).toNat := by
  have hnil : generate 4 4 4294967295 = [] := generate_eq_nil_of_size (by decide) (by decide)
  refine ⟨Description.validate_blank (by decide) (by decide), rfl, fun h => ?_, hnil, ?_⟩
  · exact (h.sound (by decide) (by decide) (by decide)).complete.ne_nil hnil
  · rw [hnil]
    decide

end Radiance
