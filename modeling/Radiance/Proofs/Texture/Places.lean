import Mathlib
import Radiance.Proofs.Raster.FrameBuffer

/-!
# Places of pixels

Images and frame buffers both hold their pixels row by row.  A frame buffer counts places in words
of 64 bits, which no width and height can exhaust; an image counts them in words of 32 bits.  So an
image is read like a frame buffer up to 2³² pixels, and in a larger one pixels share places.

## Main definitions

* `Image.frameBuffer`: the frame buffer of the size and pixels of an image.
* `Image.CountsExactly`, `Image.SeparatesPixels`: places are counted without a wrap-around, and
  different pixels have different ones.

## Main statements

* `Image.toNat_offset`: the place in an image is that in the frame buffer, up to multiples of 2³².
* `Image.agrees_frameBuffer_iff`: what an image and its frame buffer read, at every size.
-/

namespace Radiance

theorem FrameBuffer.offset_lt_words {α : Type} (f : FrameBuffer α) (p : Pixel) :
    f.offset p < 2 ^ 64 := by
  have hx := p.x.toNat_lt
  have hy : p.y.toNat ≤ 2 ^ 32 - 1 := Nat.le_pred_of_lt p.y.toNat_lt
  have hwidth : f.width.toNat ≤ 2 ^ 32 - 1 := Nat.le_pred_of_lt f.width.toNat_lt
  have hrows := Nat.mul_le_mul hy hwidth
  rw [offset]
  omega

namespace Image

section

variable {α : Type} {image : Image α}

/-- The frame buffer of the same size with the same pixels. -/
def frameBuffer (image : Image α) : FrameBuffer α := ⟨image.width, image.height, image.pixels⟩

/-- The place of each pixel is the number of pixels in front of it. -/
def CountsExactly (image : Image α) : Prop :=
  ∀ p, image.frameBuffer.Has p → (image.offset p.x p.y).toNat = image.frameBuffer.offset p

/-- Different pixels have different places. -/
def SeparatesPixels (image : Image α) : Prop :=
  ∀ p q, image.frameBuffer.Has p → image.frameBuffer.Has q →
    image.offset p.x p.y = image.offset q.x q.y → p = q

theorem toNat_offset (image : Image α) (p : Pixel) :
    (image.offset p.x p.y).toNat = image.frameBuffer.offset p % 2 ^ 32 := by
  rw [offset, UInt32.toNat_add, UInt32.toNat_mul, Nat.mod_add_mod]
  rfl

/-- Whether or not the place has wrapped around, there is a pixel. -/
theorem toNat_offset_lt (hfull : image.frameBuffer.IsFull) {p : Pixel}
    (hp : image.frameBuffer.Has p) : (image.offset p.x p.y).toNat < image.pixels.size := by
  rw [toNat_offset]
  exact Nat.lt_of_le_of_lt (Nat.mod_le _ _) (FrameBuffer.offset_lt hfull hp)

theorem countsExactly_of_le (hfull : image.frameBuffer.IsFull)
    (hsize : image.width.toNat * image.height.toNat ≤ 2 ^ 32) : image.CountsExactly := by
  intro p hp
  have hplace : image.frameBuffer.offset p < image.width.toNat * image.height.toNat :=
    hfull ▸ FrameBuffer.offset_lt hfull hp
  rw [toNat_offset, Nat.mod_eq_of_lt (Nat.lt_of_lt_of_le hplace hsize)]

theorem CountsExactly.separatesPixels (h : image.CountsExactly) : image.SeparatesPixels := by
  intro p q hp hq hoffset
  refine FrameBuffer.offset_injective hp hq ?_
  rw [← h p hp, ← h q hq, hoffset]

/-- In an image of more than 2³² pixels the pixel behind the first 2³² ones has the place of the
first one. -/
theorem le_of_separatesPixels (hfull : image.frameBuffer.IsFull) (h : image.SeparatesPixels) :
    image.width.toNat * image.height.toNat ≤ 2 ^ 32 := by
  refine Nat.le_of_not_lt fun hlarge => ?_
  have hsize : 2 ^ 32 < image.frameBuffer.pixels.size := hfull ▸ hlarge
  obtain ⟨first, hfirst, hzero⟩ := FrameBuffer.exists_offset_eq hfull (i := 0) (by omega)
  obtain ⟨beyond, hbeyond, hwrapped⟩ := FrameBuffer.exists_offset_eq hfull hsize
  have hshared : image.offset first.x first.y = image.offset beyond.x beyond.y := by
    rw [← UInt32.toNat_inj]
    simp only [toNat_offset, hzero, hwrapped, Nat.zero_mod, Nat.mod_self]
  have hsame := h first beyond hfirst hbeyond hshared
  rw [← hsame, hzero] at hwrapped
  omega

end

variable {α : Type} [Scalar α] {image : Image α}

theorem getElem?_toNat_offset (hfull : image.frameBuffer.IsFull) {p : Pixel}
    (hp : image.frameBuffer.Has p) :
    image.pixels[(image.offset p.x p.y).toNat]? = some (image.get p.x p.y) := by
  have hplace := toNat_offset_lt hfull hp
  rw [get, Array.getD, dif_pos hplace]
  exact Array.getElem?_eq_getElem hplace

/-- What an image with all its pixels and its frame buffer read at a pixel.  The frame buffer reads
the entry of the number of pixels in front of it, and no other pixel has this entry; the image reads
the entry of this number up to multiples of 2³².  So up to 2³² pixels, and in no larger image, both
read the same entries, and different pixels have different ones. -/
theorem agrees_frameBuffer_iff (hfull : image.frameBuffer.IsFull) :
    (∀ p, image.frameBuffer.Has p →
      let place := p.y.toNat * image.width.toNat + p.x.toNat
      place < 2 ^ 64 ∧ place < image.pixels.size ∧
        image.frameBuffer.get? p = image.pixels[place]? ∧
        image.pixels[place % 2 ^ 32]? = some (image.get p.x p.y)) ∧
    (∀ p q, image.frameBuffer.Has p → image.frameBuffer.Has q →
      image.frameBuffer.offset p = image.frameBuffer.offset q → p = q) ∧
    (image.width.toNat * image.height.toNat ≤ 2 ^ 32 →
      ∀ p, image.frameBuffer.Has p → image.frameBuffer.get? p = some (image.get p.x p.y)) ∧
    (image.width.toNat * image.height.toNat ≤ 2 ^ 32 ↔ image.CountsExactly) ∧
    (image.width.toNat * image.height.toNat ≤ 2 ^ 32 ↔ image.SeparatesPixels) := by
  have hexact := countsExactly_of_le hfull
  refine ⟨fun p hp => ⟨FrameBuffer.offset_lt_words image.frameBuffer p,
    FrameBuffer.offset_lt hfull hp, rfl, ?_⟩, fun p q => FrameBuffer.offset_injective,
    fun hsize p hp => ?_, ⟨hexact, fun h => le_of_separatesPixels hfull h.separatesPixels⟩,
    ⟨fun hsize => (hexact hsize).separatesPixels, le_of_separatesPixels hfull⟩⟩
  · rw [← getElem?_toNat_offset hfull hp, toNat_offset]
    rfl
  · rw [← getElem?_toNat_offset hfull hp, hexact hsize p hp]
    rfl

/-- An image of three columns and two rows of black and white pixels. -/
def checkers : Image Float32 :=
  ⟨3, 2, #[Vec3.zero, Vec3.one, Vec3.zero, Vec3.one, Vec3.zero, Vec3.one]⟩

/-- The last pixel of a small image is its last entry. -/
theorem agrees_frameBuffer_iff_checkers : checkers.frameBuffer.IsFull ∧
    checkers.frameBuffer.Has ⟨2, 1⟩ ∧
    checkers.frameBuffer.get? ⟨2, 1⟩ = some (checkers.get 2 1) ∧
    checkers.pixels[5]? = some (checkers.get 2 1) ∧ checkers.SeparatesPixels := by
  have hfull : checkers.frameBuffer.IsFull := rfl
  have hp : checkers.frameBuffer.Has ⟨2, 1⟩ := ⟨by decide, by decide⟩
  obtain ⟨hread, -, hagree, -, hseparates⟩ := agrees_frameBuffer_iff hfull
  have hsize : checkers.width.toNat * checkers.height.toNat ≤ 2 ^ 32 := by decide
  exact ⟨hfull, hp, hagree hsize _ hp, (hread _ hp).2.2.2, hseparates.1 hsize⟩

/-- A ribbon of one pixel more than places can count: all pixels are white but the last one, which
is black. -/
def ribbon : Image Float32 :=
  ⟨641, 6700417, (Array.replicate (2 ^ 32) Vec3.one).push Vec3.zero⟩

theorem isFull_ribbon : ribbon.frameBuffer.IsFull := by
  simp [FrameBuffer.IsFull, frameBuffer, ribbon]

/-- The last pixel of the ribbon is black in the frame buffer, but read as the first pixel in the
image. -/
theorem agrees_frameBuffer_not_ribbon : ribbon.frameBuffer.IsFull ∧
    ribbon.frameBuffer.Has ⟨640, 6700416⟩ ∧
    ribbon.frameBuffer.get? ⟨640, 6700416⟩ = some Vec3.zero ∧
    ribbon.get 640 6700416 = Vec3.one ∧
    (¬∀ p, ribbon.frameBuffer.Has p →
      ribbon.frameBuffer.get? p = some (ribbon.get p.x p.y)) ∧
    ¬ribbon.SeparatesPixels := by
  have hlast : ribbon.frameBuffer.Has ⟨640, 6700416⟩ := ⟨by decide, by decide⟩
  have hfirst : ribbon.frameBuffer.Has ⟨0, 0⟩ := ⟨by decide, by decide⟩
  have hblack : ribbon.frameBuffer.get? ⟨640, 6700416⟩ = some Vec3.zero := by
    change ribbon.pixels[4294967296]? = _
    simp [ribbon, Array.getElem_push]
  have hwhite : ribbon.get 640 6700416 = Vec3.one := by
    have hentry : some (ribbon.get 640 6700416) = ribbon.pixels[0]? :=
      (getElem?_toNat_offset isFull_ribbon hlast).symm
    rw [← Option.some_inj, hentry]
    simp [ribbon, Array.getElem_push]
  have hcolors : (Vec3.zero : Vec3 Float32) ≠ Vec3.one := by decide +kernel
  refine ⟨isFull_ribbon, hlast, hblack, hwhite, fun hagrees => ?_, fun hseparates => ?_⟩
  · have hread := hagrees _ hlast
    rw [hblack, hwhite, Option.some_inj] at hread
    exact hcolors hread
  · have hsame := hseparates _ _ hlast hfirst rfl
    simp at hsame

end Image

end Radiance
