import Mathlib
import Radiance.Raster.Bucket

/-!
# Cells along an axis

A cell is a range of integers of the bucket size, and the cells of an axis stand side by side.  The
words that a span is computed from count these integers modulo the number of words.  A span is the
part of its cell that lies inside the image as long as only the words of cells outside the image
wrap around.

## Main definitions

* `IsExtent`: sides of images and buckets that are far from the largest word.
* `Span.origin`: where a cell starts.
* `Span.Meets`: a cell has a part inside the image.
* `Span.startWord`, `Span.stopWord`: the words that count where a cell starts and stops.
* `Span.Clips`: a span is the part of its cell that lies inside the image.

## Main statements

* `Span.mem_cell_iff`: every pixel lies in exactly one cell.
* `Span.Meets.two_mul_mul_natAbs_lt`: how far from the center a cell that meets the image can be.
* `Span.toInt_startWord`, `Span.toInt_stopWord`: what the words count.
* `Span.clips_of_lt`: the spans that are the parts of their cells.
-/

namespace Radiance

/-- The side of an image or a bucket whose cells can be counted in words of 32 bits. -/
def IsExtent (n : UInt32) : Prop := 1 ≤ n.toNat ∧ n.toNat ≤ 2 ^ 28

instance (n : UInt32) : Decidable (IsExtent n) :=
  inferInstanceAs (Decidable (1 ≤ n.toNat ∧ n.toNat ≤ 2 ^ 28))

namespace Span

/-- Where the cell at the center of an axis starts. -/
def margin (image size : Nat) : Int := ((image : Int) - size).tdiv 2

/-- Where the cell at a number of steps from the center starts. -/
def origin (image size : Nat) (step : Int) : Int := margin image size + size * step

/-- The cell at a number of steps from the center has a part inside the image. -/
def Meets (image size : Nat) (step : Int) : Prop :=
  origin image size step < image ∧ 0 < origin image size step + size

instance (image size : Nat) (step : Int) : Decidable (Meets image size step) :=
  inferInstanceAs (Decidable (_ ∧ _))

section Cells

variable {image size : Nat} {step : Int}

/-- The center cell leaves as much of the axis on either side, up to the rounding towards zero. -/
theorem two_mul_margin (image size : Nat) :
    (size ≤ image → (image : Int) - size - 1 ≤ 2 * margin image size ∧
      2 * margin image size ≤ (image : Int) - size) ∧
    (image ≤ size → (image : Int) - size ≤ 2 * margin image size ∧
      2 * margin image size ≤ (image : Int) - size + 1) := by
  have hsign : Int.sign 2 = 1 := rfl
  simp only [margin, Int.tdiv_eq_ediv, hsign]
  split <;> omega

theorem meets_zero (hi : 0 < image) (hs : 0 < size) : Meets image size 0 := by
  have hm := two_mul_margin image size
  simp only [Meets, origin]
  omega

/-- A cell that meets the image is at most half the image away from the center. -/
theorem Meets.two_mul_mul_natAbs_lt (h : Meets image size step) :
    2 * (size * step.natAbs) < image + size := by
  have hm := two_mul_margin image size
  simp only [Meets, origin] at h
  obtain hstep | hstep := Int.natAbs_eq step
  · rw [hstep] at h
    omega
  · rw [hstep, Int.mul_neg] at h
    omega

/-- On the side where the axis ends last, all cells up to this distance meet the image. -/
theorem meets_of_lt (hi : 0 < image) (hs : 0 < size) {steps : Nat}
    (h : 2 * (size * steps) < image + size) : Meets image size steps := by
  have hm := two_mul_margin image size
  obtain rfl | hsteps := Nat.eq_zero_or_pos steps
  · exact meets_zero hi hs
  · have hle : size ≤ size * steps := Nat.le_mul_of_pos_right _ hsteps
    simp only [Meets, origin, ← Int.natCast_mul]
    omega

/-- Every point of the axis lies in exactly one cell. -/
theorem mem_cell_iff (hs : 0 < size) {x : Int} :
    origin image size step ≤ x ∧ x < origin image size step + size ↔
      step = (x - margin image size) / size := by
  have hpos : (0 : Int) < size := by omega
  rw [eq_comm, Int.ediv_eq_iff_of_pos hpos, Int.mul_comm step, origin]
  constructor <;> omega

theorem meets_of_mem {x : Nat} (hx : x < image) (hlo : origin image size step ≤ x)
    (hhi : (x : Int) < origin image size step + size) : Meets image size step := by
  simp only [Meets]
  omega

end Cells

/-! ## Spans -/

/-- The word that counts where a cell starts. -/
def startWord (image size : UInt32) (step : Int) : Int32 :=
  (image.toInt32 - size.toInt32) / 2 + size.toInt32 * Int32.ofInt step

/-- The word that counts where a cell stops. -/
def stopWord (image size : UInt32) (step : Int) : Int32 :=
  startWord image size step + size.toInt32

/-- A span is the part of its cell that lies inside the image, and it is empty if there is none. -/
structure Clips (image size : UInt32) (step : Int) : Prop where
  isEmpty_eq : (ofCell image size step).isEmpty = !decide (Meets image.toNat size.toNat step)
  start_eq : Meets image.toNat size.toNat step →
    ((ofCell image size step).start.toNat : Int) = max 0 (origin image.toNat size.toNat step)
  stop_eq : Meets image.toNat size.toNat step →
    ((ofCell image size step).start.toNat + (ofCell image size step).length.toNat : Int) =
      min (image.toNat : Int) (origin image.toNat size.toNat step + size.toNat)

section Words

variable {image size : UInt32} {step : Int}

theorem toInt_toInt32 {n : UInt32} (h : n.toNat < 2 ^ 31) : n.toInt32.toInt = n.toNat := by
  rw [Int32.toInt, UInt32.toBitVec_toInt32, BitVec.toInt_eq_toNat_of_lt]
  · rfl
  · change 2 * n.toNat < 2 ^ 32
    omega

theorem toNat_toUInt32 {n : Int32} (h : 0 ≤ n.toInt) : (n.toUInt32.toNat : Int) = n.toInt := by
  rw [Int32.toNat_toUInt32_of_le (Int32.le_iff_toInt_le.2 h)]
  exact Int.toNat_of_nonneg h

theorem ofCell_eq :
    ofCell image size step =
      ⟨if startWord image size step < 0 then 0 else startWord image size step,
        if image.toInt32 < stopWord image size step then image.toInt32
        else stopWord image size step⟩ := rfl

theorem isEmpty_iff :
    (ofCell image size step).isEmpty = true ↔
      min image.toInt32.toInt (stopWord image size step).toInt ≤
        max 0 (startWord image size step).toInt := by
  have hzero : Int32.toInt 0 = 0 := rfl
  simp only [isEmpty, ofCell_eq, decide_eq_true_eq, Int32.le_iff_toInt_le, Int32.lt_iff_toInt_lt,
    hzero]
  split <;> split <;> omega

section Counts

variable (hi : image.toNat < 2 ^ 31) (hs : size.toNat < 2 ^ 31)
include hi hs

theorem toInt_difference :
    (image.toInt32 - size.toInt32).toInt = (image.toNat : Int) - size.toNat := by
  rw [Int32.toInt_sub, toInt_toInt32 hi, toInt_toInt32 hs]
  exact Int.bmod_eq_of_le (by omega) (by omega)

theorem toInt_margin :
    ((image.toInt32 - size.toInt32) / 2).toInt = margin image.toNat size.toNat := by
  have hm := two_mul_margin image.toNat size.toNat
  rw [Int32.toInt_div, toInt_difference hi hs]
  exact Int.bmod_eq_of_le (by change _ ≤ margin _ _; omega) (by change margin _ _ < _; omega)

/-- The start of a cell is counted modulo the number of words, whatever wraps around before. -/
theorem toInt_startWord :
    (startWord image size step).toInt = (origin image.toNat size.toNat step).bmod (2 ^ 32) := by
  rw [startWord, Int32.toInt_add, toInt_margin hi hs, Int32.toInt_mul, toInt_toInt32 hs,
    Int32.toInt_ofInt, Int.mul_bmod_bmod, Int.add_bmod_bmod]
  rfl

theorem toInt_stopWord :
    (stopWord image size step).toInt =
      (origin image.toNat size.toNat step + size.toNat).bmod (2 ^ 32) := by
  rw [stopWord, Int32.toInt_add, toInt_startWord hi hs, toInt_toInt32 hs, Int.bmod_add_bmod]

variable (hi₀ : 0 < image.toNat) (hs₀ : 0 < size.toNat)
include hi₀ hs₀

/-- The span of a cell whose start and stop are words is the part of the cell inside the image. -/
theorem clips_of_words (hlo : -2 ^ 31 ≤ origin image.toNat size.toNat step)
    (hhi : origin image.toNat size.toNat step + size.toNat < 2 ^ 31) : Clips image size step := by
  have hstart : (startWord image size step).toInt = origin image.toNat size.toNat step := by
    rw [toInt_startWord hi hs]
    exact Int.bmod_eq_of_le (by omega) (by omega)
  have hstop : (stopWord image size step).toInt =
      origin image.toNat size.toNat step + size.toNat := by
    rw [toInt_stopWord hi hs]
    exact Int.bmod_eq_of_le (by omega) (by omega)
  have hzero : Int32.toInt 0 = 0 := rfl
  have hfrom : (ofCell image size step).lo.toInt =
      max 0 (origin image.toNat size.toNat step) := by
    simp only [ofCell_eq, Int32.lt_iff_toInt_lt, hstart, hzero]
    split <;> omega
  have hto : (ofCell image size step).hi.toInt =
      min (image.toNat : Int) (origin image.toNat size.toNat step + size.toNat) := by
    simp only [ofCell_eq, Int32.lt_iff_toInt_lt, hstop, toInt_toInt32 hi]
    split
    · rw [toInt_toInt32 hi]
      omega
    · omega
  have hfirst : ((ofCell image size step).start.toNat : Int) =
      max 0 (origin image.toNat size.toNat step) := by
    rw [start, toNat_toUInt32 (by omega), hfrom]
  refine ⟨?_, fun _ => hfirst, fun h => ?_⟩
  · rw [isEmpty, ← decide_not, decide_eq_decide, Int32.le_iff_toInt_le, hfrom, hto, Meets]
    constructor <;> omega
  · simp only [Meets] at h
    have hlength : ((ofCell image size step).hi - (ofCell image size step).lo).toInt =
        (ofCell image size step).hi.toInt - (ofCell image size step).lo.toInt := by
      rw [Int32.toInt_sub]
      exact Int.bmod_eq_of_le (by omega) (by omega)
    rw [hfirst, length, toNat_toUInt32 (by omega), hlength, hfrom, hto]
    omega

/-- A word may wrap around if its cell lies outside the image: the span is empty all the same. -/
theorem clips_of_lt (hlo : -2 ^ 31 ≤ origin image.toNat size.toNat step + size.toNat)
    (hhi : origin image.toNat size.toNat step < 2 ^ 31)
    (hin : origin image.toNat size.toNat step < image.toNat →
      origin image.toNat size.toNat step + size.toNat < 2 ^ 31) : Clips image size step := by
  by_cases hwords : -2 ^ 31 ≤ origin image.toNat size.toNat step ∧
      origin image.toNat size.toNat step + size.toNat < 2 ^ 31
  · exact clips_of_words hi hs hi₀ hs₀ hwords.1 hwords.2
  · have hout : ¬Meets image.toNat size.toNat step := by
      simp only [Meets]
      omega
    have hstop : (stopWord image size step).toInt < 0 := by
      rw [toInt_stopWord hi hs]
      obtain hlt | hge := lt_or_ge (origin image.toNat size.toNat step + size.toNat) (2 ^ 31)
      · rw [Int.bmod_eq_of_le (by omega) (by omega)]
        omega
      · rw [← Int.sub_mul_bmod_self_right _ 1, Int.bmod_eq_of_le (by omega) (by omega)]
        omega
    refine ⟨?_, fun h => absurd h hout, fun h => absurd h hout⟩
    rw [decide_eq_false hout, Bool.not_false, isEmpty_iff]
    omega

end Counts

end Words

end Span

end Radiance
