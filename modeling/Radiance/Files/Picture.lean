import Radiance.Files.Tree
import Radiance.Raster.FrameBuffer
import Radiance.Scalar.Binary32
import Radiance.Texture

/-!
# Image files

Images read from files and written to files.

## Main definitions

* `FileTree.readImage`: the linear pixels of an image file.
* `SharedExponent`: a color as three bytes under one exponent.
* `FrameBuffer.content?`, `FrameBuffer.save`: the file of a rendered image.
-/

namespace Radiance

/-- Why there is no texture image. -/
inductive TextureError
  | unreadable (path : String)
  | empty (path : String)
  deriving Repr, DecidableEq, Inhabited

/-- The text of a texture error. -/
def TextureError.message : TextureError → String
  | unreadable path => s!"Failed to load texture {path}"
  | empty path => s!"Texture {path} has zero size"

/-- The file name endings of image formats. -/
def imageEndings : List String :=
  ["avif", "jpg", "jpeg", "png", "gif", "webp", "tif", "tiff", "tga", "dds", "bmp", "ico", "hdr",
    "exr", "pbm", "pam", "ppm", "pgm", "ff", "farbfeld", "qoi"]

/-- The formats whose files are not read without pixels. -/
def filledEndings : List String := ["bmp", "exr", "gif", "jpg", "jpeg", "tga"]

/-- Whether a format is read with an alpha channel, or without one: icons need it, and arbitrary
maps are not read with it. -/
def takesAlpha (ending : String) (hasAlpha : Bool) : Bool :=
  if hasAlpha then ending ≠ "pam" else ending ≠ "ico"

/-- The most rows and columns of a bitmap that is read. -/
def maxBitmapSize : UInt32 := 65535

/-- What stands in the way of reading an image of a size. -/
def readFault? (path : String) (width height : UInt32) (hasAlpha : Bool) : Option TextureError :=
  let ending := (PathName.ending? path).getD ""
  if !takesAlpha ending hasAlpha then some (.unreadable path)
  else if ending = "bmp" ∧ (maxBitmapSize < width ∨ maxBitmapSize < height) then
    some (.unreadable path)
  else if width ≠ 0 ∧ height ≠ 0 then none
  else if filledEndings.contains ending then some (.unreadable path)
  else some (.empty path)

/-- The linear pixels of an image file; bytes encoded for display are made linear. -/
def FileTree.readImage (t : FileTree) (path : String) : Except TextureError (Image Float32) :=
  if (PathName.ending? path).any imageEndings.contains then
    let read (image : Image Float32) (hasAlpha : Bool) : Except TextureError (Image Float32) :=
      match readFault? path image.width image.height hasAlpha with
      | some e => .error e
      | none => .ok image
    match t.find path with
    | .file (.display width height hasAlpha pixels) =>
      let linear := pixels.map fun (r, g, b) => ⟨linearOfByte r, linearOfByte g, linearOfByte b⟩
      read ⟨width, height, linear⟩ hasAlpha
    | .file (.linear width height pixels) => read ⟨width, height, pixels⟩ false
    | _ => .error (.unreadable path)
  else .error (.unreadable path)

/-! ## Writing images -/

/-- Why an image cannot be written. -/
inductive OutputError
  /-- The directory or the file cannot be made. -/
  | io
  /-- The format is not known, cannot hold the image, or cannot be written there. -/
  | format
  deriving Repr, DecidableEq, Inhabited

/-- Writing to a tree of files; what was written before a failure stays. -/
abbrev Writing := ExceptT OutputError (StateM FileTree)

/-- A color as three bytes under one exponent. -/
structure SharedExponent where
  red : UInt8
  green : UInt8
  blue : UInt8
  /-- The exponent of a full byte, plus 128; zero stands for black. -/
  exponent : UInt8
  deriving Repr, DecidableEq, Inhabited

namespace SharedExponent

/-- Two to a power, for a negative one as a reciprocal: below `2 ^ -127` it is zero. -/
def powerOfTwo (exponent : Int) : Float32 :=
  if exponent < 0 then 1 / Float32.scaleB 1 (-exponent) else Float32.scaleB 1 exponent

/-- The bytes of a color, cut off toward zero.  Colors without a positive channel are black. -/
def ofColor (c : Color Float32) : SharedExponent :=
  let largest := Scalar.max c.x (Scalar.max c.y c.z)
  if largest ≤ 0 then ⟨0, 0, 0, 0⟩
  else
    let exponent := largest.log2.floor.toInt32 + 1
    let scale := powerOfTwo exponent.toInt
    let channel (x : Float32) : UInt8 := (x / scale * 256).toUInt8
    ⟨channel c.x, channel c.y, channel c.z, UInt8.ofNat ((exponent.toInt + 128) % 256).toNat⟩

/-- The color of the bytes. -/
def toColor (s : SharedExponent) : Color Float32 :=
  if s.exponent = 0 then .zero
  else
    let unit := Float32.scaleB 1 ((s.exponent.toNat : Int) - 136)
    ⟨s.red.toFloat32 * unit, s.green.toFloat32 * unit, s.blue.toFloat32 * unit⟩

end SharedExponent

/-- The formats that hold an image with transparency, by their file name endings. -/
def writableEndings : List String :=
  ["exr", "hdr", "png", "bmp", "tga", "tif", "tiff", "gif", "ico", "jpg", "jpeg", "qoi", "pam",
    "webp"]

/-- The formats that hold an image without rows or without columns. -/
def emptyEndings : List String := ["exr", "hdr", "bmp", "tga", "gif", "jpg", "jpeg", "pam"]

/-- The most rows and columns that a format holds, if it sets a limit. -/
def sizeLimit? : String → Option UInt32
  | "ico" => some 256
  | "webp" => some 16384
  | "tga" => some 65535
  | "gif" => some 65535
  | "jpg" => some 65535
  | "jpeg" => some 65535
  | _ => none

/-- Whether a format holds an image of a size.  One of the formats holds an image without rows or
without columns, but none that lacks both. -/
def holds (ending : String) (width height : UInt32) : Bool :=
  writableEndings.contains ending &&
    (sizeLimit? ending).all (fun limit => width ≤ limit && height ≤ limit) &&
    ((width ≠ 0 && height ≠ 0) || emptyEndings.contains ending) &&
    (ending ≠ "exr" || width ≠ 0 || height ≠ 0)

/-- The file content of an image, if the format holds it: linear pixels for two formats, bytes for
display for the rest. -/
def FrameBuffer.content? (f : FrameBuffer Float32) (ending : String) : Option FileContent :=
  if !holds ending f.width f.height then none
  else if ending = "exr" then some (.linear f.width f.height f.pixels)
  else if ending = "hdr" then
    some (.linear f.width f.height (f.pixels.map fun c => (SharedExponent.ofColor c).toColor))
  else
    some (.display f.width f.height true
      (f.pixels.map fun c => (displayByte c.x, displayByte c.y, displayByte c.z)))

/-- Writes an image to a path, together with the directories above it.  Where the format is known
and does not hold the image, an empty file is left. -/
def FrameBuffer.save (f : FrameBuffer Float32) (path : String) : Writing Unit := do
  match PathName.parent? path with
  | none => pure ()
  | some "" => pure ()
  | some parent =>
    let (t, made) := (← get).makeDirectory parent
    set t
    if !made then throw .io
  let ending := (PathName.ending? path).getD ""
  if !imageEndings.contains ending then throw .format
  let content? := f.content? ending
  match (← get).write? path (content?.getD (.text "")) with
  | none => throw (if ending = "hdr" then .io else .format)
  | some t => set t
  if content?.isNone then throw .format

end Radiance
