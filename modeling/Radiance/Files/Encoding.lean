import Radiance.Files.Picture
import Radiance.Numeral

/-!
# Bytes of image files

The plainest bytes of each format: pixels are stored without compression.

## Main definitions

* `FileContent.encode?`: the bytes of an image.
* `Encoding.pixmap?`: the pixels of a portable pixmap.
-/

namespace Radiance.Encoding

/-- A number as bytes, the lowest first. -/
def little (count n : Nat) : ByteArray :=
  ⟨((List.range count).map fun i => UInt8.ofNat (n >>> (8 * i))).toArray⟩

/-- A number as bytes, the highest first. -/
def big (count n : Nat) : ByteArray := ⟨(little count n).data.reverse⟩

/-- The bytes of a list of parts. -/
def concat (parts : List ByteArray) : ByteArray := parts.foldl (· ++ ·) .empty

/-- The rows of an image, each turned into bytes. -/
def rows {β : Type} (width height : UInt32) (pixels : Array β) (row : Array β → ByteArray) :
    List ByteArray :=
  (List.range height.toNat).map fun y =>
    row (pixels.extract (y * width.toNat) ((y + 1) * width.toNat))

/-- Pixels in the order red, green, blue. -/
def rgb (row : Array (UInt8 × UInt8 × UInt8)) : ByteArray :=
  row.foldl (fun bytes (r, g, b) => ((bytes.push r).push g).push b) .empty

/-- Pixels in the order blue, green, red. -/
def bgr (row : Array (UInt8 × UInt8 × UInt8)) : ByteArray :=
  row.foldl (fun bytes (r, g, b) => ((bytes.push b).push g).push r) .empty

/-! ## Portable network graphics -/

/-- One bit of the cyclic checksum. -/
def checksumBit (c : UInt32) : UInt32 :=
  if c &&& 1 = 1 then (c >>> 1) ^^^ 0xEDB88320 else c >>> 1

/-- The cyclic checksum of a chunk. -/
def checksum (data : ByteArray) : UInt32 :=
  ~~~ (data.foldl (fun c byte => (checksumBit ∘ checksumBit ∘ checksumBit ∘ checksumBit ∘
    checksumBit ∘ checksumBit ∘ checksumBit ∘ checksumBit) (c ^^^ byte.toUInt32)) 0xFFFFFFFF)

/-- The running sums that end a stream of stored blocks. -/
def sums (data : ByteArray) : Nat :=
  let (a, b) := data.foldl (fun (a, b) byte =>
    let a := (a + byte.toNat) % 65521
    (a, (b + a) % 65521)) (1, 0)
  b * 65536 + a

/-- Data as a stream of blocks that are stored as they are. -/
def stored (data : ByteArray) : ByteArray :=
  let limit := 65535
  let last := data.size / limit
  let blocks := (List.range (last + 1)).map fun i =>
    let block := data.extract (i * limit) ((i + 1) * limit)
    concat [little 1 (if i = last then 1 else 0), little 2 block.size,
      little 2 (limit - block.size), block]
  concat ([big 2 0x7801] ++ blocks ++ [big 4 (sums data)])

/-- A chunk with its length and checksum. -/
def chunk (name : String) (data : ByteArray) : ByteArray :=
  let body := name.toUTF8 ++ data
  concat [big 4 data.size, body, big 4 (checksum body).toNat]

def png (width height : UInt32) (pixels : Array (UInt8 × UInt8 × UInt8)) : ByteArray :=
  let header := concat [big 4 width.toNat, big 4 height.toNat, big 1 8, big 1 2, big 3 0]
  let lines := rows width height pixels fun row => little 1 0 ++ rgb row
  concat [big 8 0x89504E470D0A1A0A, chunk "IHDR" header, chunk "IDAT" (stored (concat lines)),
    chunk "IEND" .empty]

/-! ## Bitmaps -/

def bmp (width height : UInt32) (pixels : Array (UInt8 × UInt8 × UInt8)) : ByteArray :=
  let padding := (4 - 3 * width.toNat % 4) % 4
  let lines := rows width height pixels fun row => bgr row ++ little padding 0
  let size := (3 * width.toNat + padding) * height.toNat
  concat ([big 2 0x424D, little 4 (54 + size), little 4 0, little 4 54, little 4 40,
    little 4 width.toNat, little 4 height.toNat, little 2 1, little 2 24, little 4 0,
    little 4 size, little 16 0] ++ lines.reverse)

def tga (width height : UInt32) (pixels : Array (UInt8 × UInt8 × UInt8)) : ByteArray :=
  concat ([little 2 0, little 1 2, little 9 0, little 2 width.toNat, little 2 height.toNat,
    little 1 24, little 1 0x20] ++ rows width height pixels bgr)

/-! ## Linear images -/

def hdr (width height : UInt32) (pixels : Array (Color Float32)) : ByteArray :=
  let header := s!"#?RADIANCE\nFORMAT=32-bit_rle_rgbe\n\n-Y {height} +X {width}\n"
  let row (colors : Array (Color Float32)) : ByteArray :=
    colors.foldl (fun bytes c =>
      let s := SharedExponent.ofColor c
      (((bytes.push s.red).push s.green).push s.blue).push s.exponent) .empty
  concat (header.toUTF8 :: rows width height pixels row)

/-- A named property of an image with linear pixels. -/
def property (name type : String) (value : ByteArray) : ByteArray :=
  concat [name.toUTF8, little 1 0, type.toUTF8, little 1 0, little 4 value.size, value]

def exr (width height : UInt32) (pixels : Array (Color Float32)) : ByteArray :=
  let window := concat [little 8 0, little 4 (width.toNat - 1), little 4 (height.toNat - 1)]
  let channel (name : String) : ByteArray :=
    concat [name.toUTF8, little 1 0, little 4 2, little 4 0, little 4 1, little 4 1]
  let header := concat [little 4 20000630, little 4 2,
    property "channels" "chlist" (concat [channel "B", channel "G", channel "R", little 1 0]),
    property "compression" "compression" (little 1 0),
    property "dataWindow" "box2i" window,
    property "displayWindow" "box2i" window,
    property "lineOrder" "lineOrder" (little 1 0),
    property "pixelAspectRatio" "float" (little 4 0x3F800000),
    property "screenWindowCenter" "v2f" (little 8 0),
    property "screenWindowWidth" "float" (little 4 0x3F800000),
    little 1 0]
  let plane (f : Color Float32 → Float32) (row : Array (Color Float32)) : ByteArray :=
    concat (row.toList.map fun c => little 4 (f c).toBits.toNat)
  let lineSize := 12 * width.toNat
  let start := header.size + 8 * height.toNat
  let offsets := (List.range height.toNat).map fun y => little 8 (start + y * (8 + lineSize))
  let lines := rows width height pixels fun row =>
    concat [little 4 lineSize, plane (·.z) row, plane (·.y) row, plane (·.x) row]
  concat (header :: offsets ++ lines.zipIdx.map fun (line, y) => little 4 y ++ line)

/-! ## Portable pixmaps -/

/-- Splits off a word after blanks, and the one blank behind it. -/
def word (bytes : List UInt8) : List UInt8 × List UInt8 :=
  let isBlank (b : UInt8) : Bool := b = 32 || (9 ≤ b && b ≤ 13)
  let rest := bytes.dropWhile isBlank
  (rest.takeWhile fun b => !isBlank b, (rest.dropWhile fun b => !isBlank b).drop 1)

/-- The number of a word of digits. -/
def number? (word : List UInt8) : Option Nat :=
  Numeral.natural? (word.map fun b => Char.ofNat b.toNat)

/-- The pixels of a portable pixmap with a byte for each channel. -/
def pixmap? (data : ByteArray) : Option FileContent := do
  let (magic, rest) := word data.toList
  let (width, rest) := word rest
  let (height, rest) := word rest
  let (maximum, rest) := word rest
  let width ← number? width
  let height ← number? height
  if magic ≠ [0x50, 0x36] ∨ number? maximum ≠ some 255 then none
  else
    let bytes := rest.toArray
    if bytes.size < 3 * width * height then none
    else
      let at_ i := bytes.getD i 0
      let pixels := (Array.range (width * height)).map fun i =>
        (at_ (3 * i), at_ (3 * i + 1), at_ (3 * i + 2))
      some (.display (UInt32.ofNat width) (UInt32.ofNat height) false pixels)

end Radiance.Encoding

namespace Radiance

/-- The bytes of a file, for the formats that have a plain form. -/
def FileContent.encode? (ending : String) : FileContent → Option ByteArray
  | text content => some content.toUTF8
  | display width height _ pixels =>
    match ending with
    | "png" => some (Encoding.png width height pixels)
    | "bmp" => some (Encoding.bmp width height pixels)
    | "tga" => some (Encoding.tga width height pixels)
    | _ => none
  | linear width height pixels =>
    match ending with
    | "exr" => some (Encoding.exr width height pixels)
    | "hdr" => some (Encoding.hdr width height pixels)
    | _ => none

end Radiance
