import Radiance.Vector

/-!
# Textures

Colors that vary over a surface: constants, checkerboards and images, looked up by texture
coordinates.

## Main definitions

* `Image`: pixels in rows, the top row first.
* `Texture`: a color for each texture coordinate, by `Texture.evaluate`.
* `Border`, `Filter`: what an image texture does between and outside its pixels.
* `Texture.isDefinedAt`: whether all pixels that a lookup needs are there; `Texture.evaluate?` is
  the color under this condition.
-/

namespace Radiance

/-- Linear pixels in rows, the top row first. -/
structure Image (α : Type) where
  width : UInt32
  height : UInt32
  pixels : Array (Color α)
  deriving Repr, DecidableEq, Inhabited

namespace Image

variable {α : Type} [Scalar α]

/-- The place of a pixel in the rows, counted in words of 32 bits. -/
def offset (image : Image α) (x y : UInt32) : UInt32 := y * image.width + x

/-- The pixel at a column and row. -/
def get (image : Image α) (x y : UInt32) : Color α :=
  image.pixels.getD (image.offset x y).toNat Vec3.zero

/-- Whether the pixel at a column and row is there. -/
def hasPixel (image : Image α) (x y : UInt32) : Bool := (image.offset x y).toNat < image.pixels.size

/-- The size of the pixels in memory. -/
def sizeBytes (image : Image α) : Nat := 12 * image.pixels.size

end Image

/-- How coordinates outside the image are read. -/
inductive Border
  /-- The nearest pixel of the edge. -/
  | clamp
  /-- The image is repeated. -/
  | tile
  deriving Repr, DecidableEq, Inhabited

/-- How coordinates between pixel centers are read. -/
inductive Filter
  /-- The pixel that holds the point. -/
  | nearest
  /-- A mean of the four nearest pixels. -/
  | bilinear
  deriving Repr, DecidableEq, Inhabited

/-- An image spread over the unit square, with its brightness scaled. -/
structure ImageTexture (α : Type) where
  image : Image α
  exposure : α
  border : Border
  filter : Filter
  deriving Repr, DecidableEq, Inhabited

namespace ImageTexture

variable {α : Type} [Scalar α]

/-- A pixel coordinate brought into `[0, size)`. -/
def resolve (border : Border) (size : UInt32) (x : Int64) : UInt32 :=
  let n : Int := size.toNat
  let x := x.toInt
  match border with
  | .clamp => UInt32.ofNat (if x < 0 then 0 else if n - 1 < x then n - 1 else x).toNat
  | .tile => UInt32.ofNat (x % n).toNat

/-- The pixel at coordinates that may lie outside the image. -/
def fetch (t : ImageTexture α) (x y : Int64) : Color α :=
  t.image.get (resolve t.border t.image.width x) (resolve t.border t.image.height y)

/-- Whether there is a pixel at coordinates that may lie outside the image.  An image without rows
or columns has none. -/
def hasPixel (t : ImageTexture α) (x y : Int64) : Bool :=
  t.image.width ≠ 0 && t.image.height ≠ 0 &&
    t.image.hasPixel (resolve t.border t.image.width x) (resolve t.border t.image.height y)

/-- The color at a point given in pixels, with the first row at the top. -/
def lookup (t : ImageTexture α) (p : Vec2 α) : Color α :=
  match t.filter with
  | .nearest => t.fetch (Scalar.toInt64 (Scalar.floor p.x)) (Scalar.toInt64 (Scalar.floor p.y))
  | .bilinear =>
    -- Pixel centers have half-integer coordinates.
    let q : Vec2 α := p - Vec2.splat 0.5
    let x := Scalar.toInt64 (Scalar.floor q.x)
    let y := Scalar.toInt64 (Scalar.floor q.y)
    let fx := q.x - Scalar.floor q.x
    let fy := q.y - Scalar.floor q.y
    let top := (1 - fx) • t.fetch x y + fx • t.fetch (x + 1) y
    let bottom := (1 - fx) • t.fetch x (y + 1) + fx • t.fetch (x + 1) (y + 1)
    (1 - fy) • top + fy • bottom

/-- The coordinates of the pixels that make up the color at a point given in pixels. -/
def neighbors (filter : Filter) (p : Vec2 α) : List (Int64 × Int64) :=
  match filter with
  | .nearest => [(Scalar.toInt64 (Scalar.floor p.x), Scalar.toInt64 (Scalar.floor p.y))]
  | .bilinear =>
    let q : Vec2 α := p - Vec2.splat 0.5
    let x := Scalar.toInt64 (Scalar.floor q.x)
    let y := Scalar.toInt64 (Scalar.floor q.y)
    [(x, y), (x + 1, y), (x, y + 1), (x + 1, y + 1)]

/-- Texture coordinates, whose origin is the lower left corner, in pixels. -/
def toPixels (t : ImageTexture α) (uv : Vec2 α) : Vec2 α :=
  ⟨uv.x * Scalar.ofNat t.image.width.toNat, (1 - uv.y) * Scalar.ofNat t.image.height.toNat⟩

/-- The color at texture coordinates. -/
def evaluate (t : ImageTexture α) (uv : Vec2 α) : Color α := t.exposure • t.lookup (t.toPixels uv)

/-- Whether all pixels that make up the color at texture coordinates are there. -/
def isDefinedAt (t : ImageTexture α) (uv : Vec2 α) : Bool :=
  (neighbors t.filter (t.toPixels uv)).all fun (x, y) => t.hasPixel x y

end ImageTexture

/-- A color for each texture coordinate. -/
inductive Texture (α : Type)
  | constant (value : Color α)
  | checkerboard (color₀ color₁ : Color α) (scale : Vec2 α)
  | image (t : ImageTexture α)
  deriving Repr, DecidableEq, Inhabited

namespace Texture

variable {α : Type} [Scalar α]

/-- Whether the tile of a scaled coordinate has an odd number. -/
def isOdd (x : α) : Bool := (Scalar.toInt64 (Scalar.floor x)).toInt % 2 = 1

/-- The color at texture coordinates. -/
def evaluate : Texture α → Vec2 α → Color α
  | constant value, _ => value
  | checkerboard color₀ color₁ scale, uv =>
    if isOdd (uv.x * scale.x) = isOdd (uv.y * scale.y) then color₀ else color₁
  | image t, uv => t.evaluate uv

/-- Whether there is a color at texture coordinates; only images may lack one. -/
def isDefinedAt : Texture α → Vec2 α → Bool
  | image t, uv => t.isDefinedAt uv
  | _, _ => true

/-- The color at texture coordinates, if there is one. -/
def evaluate? (t : Texture α) (uv : Vec2 α) : Option (Color α) :=
  if t.isDefinedAt uv then some (t.evaluate uv) else none

/-- The first channel at texture coordinates. -/
def scalar (t : Texture α) (uv : Vec2 α) : α := (t.evaluate uv).x

end Texture

/-- The linear value of a byte of display-encoded color. -/
def linearOfByte {α : Type} [Scalar α] (b : UInt8) : α :=
  let v : α := Scalar.ofNat b.toNat / 255
  if v ≤ 0.04045 then v / 12.92 else Scalar.pow ((v + 0.055) / 1.055) 2.4

end Radiance
