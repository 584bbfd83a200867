import Radiance.Raster.Bucket
import Radiance.Texture

/-!
# Frame buffers

The linear colors of an image while it is rendered, and their encodings in image files.

## Main definitions

* `FrameBuffer`: pixels by rows, with `FrameBuffer.get?`, `FrameBuffer.set?` and
  `FrameBuffer.writeBucket?`.
* `FrameBuffer.fits`: whether an image of a size can be made at all.
* `displayByte`, `displayColor`: eight-bit colors for display.
-/

namespace Radiance

/-- The pixels of an image by rows, the top row first. -/
structure FrameBuffer (α : Type) where
  width : UInt32
  height : UInt32
  pixels : Array (Color α)
  deriving Repr, DecidableEq, Inhabited

namespace FrameBuffer

variable {α : Type} [Scalar α]

/-- A black image. -/
def black (width height : UInt32) : FrameBuffer α :=
  ⟨width, height, Array.replicate (width.toNat * height.toNat) .zero⟩

/-- Whether an image of a size can be made: its channels take less than half of all addresses. -/
def fits (width height : UInt32) : Bool := 12 * width.toNat * height.toNat < UInt64.size / 2

/-- The place of a pixel in the rows. -/
def offset (f : FrameBuffer α) (p : Pixel) : Nat := p.y.toNat * f.width.toNat + p.x.toNat

/-- The color of a pixel; only places beyond the last row have none. -/
def get? (f : FrameBuffer α) (p : Pixel) : Option (Color α) := f.pixels[f.offset p]?

/-- The image with one pixel changed. -/
def set? (f : FrameBuffer α) (p : Pixel) (c : Color α) : Option (FrameBuffer α) :=
  if f.offset p < f.pixels.size then
    some { f with pixels := f.pixels.setIfInBounds (f.offset p) c }
  else none

/-- The image with the pixels of a bucket changed, in order, as far as there are colors. -/
def writeBucket? (f : FrameBuffer α) (b : Bucket) (colors : List (Color α)) :
    Option (FrameBuffer α) :=
  ((b.firstPixels colors.length).zip colors).foldlM (fun f (p, c) => f.set? p c) f

end FrameBuffer

variable {α : Type} [Scalar α]

/-- The encoding of a channel for display, with exponent one half. -/
def displayValue (linear : α) : α := if 0 < linear then Scalar.sqrt linear else 0

/-- The byte of a channel for display. -/
def displayByte (linear : α) : UInt8 :=
  Scalar.toByte (255 * Scalar.clamp (displayValue linear) 0 1)

/-- Red, green, blue and full opacity. -/
def displayColor (c : Color α) : List UInt8 :=
  [displayByte c.x, displayByte c.y, displayByte c.z, 255]

end Radiance
