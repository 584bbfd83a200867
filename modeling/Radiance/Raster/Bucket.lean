import Radiance.Random.Sampler

/-!
# Buckets

An image is cut into square buckets, visited in a spiral from a bucket centered on the image, so
that the middle is rendered first.

## Main definitions

* `Bucket`: a rectangle of pixels with its place in the order.
* `Bucket.pixels`, `Bucket.firstPixels`: its pixels row by row, all or the first of them.
* `Spiral.offset`: the cells of a ring, one after the other.
* `Bucket.generate`: the buckets of an image.
* `BucketQueue`: the buckets still to be rendered.
-/

namespace Radiance

/-- A rectangle of pixels and its place in the order. -/
structure Bucket where
  x : UInt32
  y : UInt32
  width : UInt32
  height : UInt32
  index : Nat
  deriving Repr, DecidableEq, Inhabited

namespace Spiral

/-- The number of cells in a ring. -/
def ringLength (rank : Nat) : Nat := if rank = 0 then 1 else 8 * rank

/-- The cell at a place of ring `rank`, as steps right and down from the center.  The ring starts
one step after its upper left corner and runs clockwise. -/
def offset (rank index : Nat) : Int × Int :=
  if rank = 0 then (0, 0)
  else
    let r : Int := rank
    let place := (index + 1) % (8 * rank)
    let shift : Int := (place % (2 * rank) : Nat)
    match place / (2 * rank) with
    | 0 => (shift - r, -r)
    | 1 => (r, shift - r)
    | 2 => (r - shift, r)
    | _ => (-r, r - shift)

/-- The cells of a ring in order. -/
def ring (rank : Nat) : List (Int × Int) := (List.range (ringLength rank)).map (offset rank)

end Spiral

/-- A range of pixels along one axis, counted in words of 32 bits. -/
structure Span where
  lo : Int32
  hi : Int32
  deriving Repr, DecidableEq, Inhabited

namespace Span

/-- The part of an image axis that a cell covers: cells of the bucket size are laid out from one
that is centered on the axis, and cut off at the edges. -/
def ofCell (imageSize bucketSize : UInt32) (step : Int) : Span :=
  let image := imageSize.toInt32
  let size := bucketSize.toInt32
  let start := (image - size) / 2 + size * Int32.ofInt step
  let stop := start + size
  ⟨if start < 0 then 0 else start, if image < stop then image else stop⟩

def isEmpty (s : Span) : Bool := decide (s.hi ≤ s.lo)

def start (s : Span) : UInt32 := s.lo.toUInt32

def length (s : Span) : UInt32 := (s.hi - s.lo).toUInt32

end Span

namespace Bucket

def pixelCount (b : Bucket) : UInt32 := b.width * b.height

/-- The pixels of a bucket row by row. -/
def pixels (b : Bucket) : List Pixel :=
  (List.range b.height.toNat).flatMap fun dy =>
    (List.range b.width.toNat).map fun dx => ⟨b.x + UInt32.ofNat dx, b.y + UInt32.ofNat dy⟩

/-- A pixel of a bucket by its place in the rows. -/
def pixelAt (b : Bucket) (i : Nat) : Pixel :=
  ⟨b.x + UInt32.ofNat (i % b.width.toNat), b.y + UInt32.ofNat (i / b.width.toNat)⟩

theorem pixels_eq_map_range (b : Bucket) :
    b.pixels = (List.range (b.height.toNat * b.width.toNat)).map b.pixelAt := by
  unfold pixels
  induction b.height.toNat with
  | zero => simp
  | succ h ih =>
    rw [List.range_succ, List.flatMap_append, ih, Nat.succ_mul, List.range_add, List.map_append]
    congr 1
    simp only [List.flatMap_cons, List.flatMap_nil, List.append_nil, List.map_map]
    refine List.map_congr_left fun dx hdx => ?_
    have hw : dx < b.width.toNat := List.mem_range.1 hdx
    have hpos : 0 < b.width.toNat := Nat.lt_of_le_of_lt (Nat.zero_le dx) hw
    simp [pixelAt, Nat.mul_comm h, Nat.mod_eq_of_lt hw, Nat.mul_add_div hpos,
      Nat.div_eq_of_lt hw]

/-- The first pixels of a bucket, at most a number of them. -/
def firstPixels (b : Bucket) (count : Nat) : List Pixel :=
  (List.range (min count (b.height.toNat * b.width.toNat))).map b.pixelAt

theorem firstPixels_eq_take (b : Bucket) (count : Nat) :
    b.firstPixels count = b.pixels.take count := by
  rw [pixels_eq_map_range, ← List.map_take, List.take_range, firstPixels]

/-- The spans that a cell covers on both axes, unless it lies outside the image. -/
def cell? (width height size : UInt32) (step : Int × Int) : Option (Span × Span) :=
  let x := Span.ofCell width size step.1
  let y := Span.ofCell height size step.2
  if x.isEmpty || y.isEmpty then none else some (x, y)

/-- The cells inside the image from ring `rank` on, at most `limit` rings of them.  A ring outside
the image ends the list, because all further rings lie outside it too. -/
def cellsFrom (width height size : UInt32) : Nat → Nat → List (Span × Span)
  | 0, _ => []
  | limit + 1, rank =>
    let here := (Spiral.ring rank).filterMap (cell? width height size)
    if 0 < rank ∧ here.isEmpty then []
    else here ++ cellsFrom width height size limit (rank + 1)

/-- The buckets of an image in order.  Rings that meet the image are fewer than its longer side. -/
def generate (width height size : UInt32) : List Bucket :=
  if width = 0 ∨ height = 0 ∨ size = 0 then []
  else
    (cellsFrom width height size (Nat.max width.toNat height.toNat + 2) 0).zipIdx.map
      fun ((x, y), index) => ⟨x.start, y.start, x.length, y.length, index⟩

end Bucket

/-- The buckets of an image, of which the first `cursor` have been handed out. -/
structure BucketQueue where
  buckets : Array Bucket
  cursor : Nat := 0
  deriving Repr, DecidableEq, Inhabited

/-- The next bucket and the queue after it. -/
def BucketQueue.pop (q : BucketQueue) : Option Bucket × BucketQueue :=
  match q.buckets[q.cursor]? with
  | none => (none, q)
  | some b => (some b, { q with cursor := q.cursor + 1 })

end Radiance
