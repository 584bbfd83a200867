import Radiance.Json
import Radiance.Report
import Radiance.Scalar.Binary32

/-!
# Numbers of a description

Reading and writing the numbers of scene files.

## Main definitions

* `JsonScalar`: scalars that are read from and written to JSON numbers.
-/

namespace Radiance

/-- Scalars that JSON numbers stand for. -/
class JsonScalar (α : Type) where
  /-- The scalar nearest to a number. -/
  ofNumber : Json.Number → α
  /-- The number of a scalar, unless it is infinite or undefined. -/
  toNumber? : α → Option Json.Number

namespace Binary32

open Float.Model.UnpackedFloat in
/-- The binary32 number nearest to a binary64 number, ties going to the even one. -/
def ofBinary64 (x : Float) : Float32 :=
  let rounded :=
    match unpack .binary64 x.toBits.toBitVec with
    | .finite sign mantissa exponent _ => round .binary32 sign mantissa exponent
    | special => special
  Float32.ofBits ⟨pack .binary32 rounded⟩

/-- Integers are rounded once; decimals are rounded to binary64 first. -/
def ofNumber : Json.Number → Float32
  | .integer n => Float32.ofInt n
  | n => ofBinary64 n.toFloat

end Binary32

instance : JsonScalar Float32 where
  ofNumber := Binary32.ofNumber
  toNumber? x :=
    if x.isFinite then
      some (if x == 0 then .integer 0 else Report.significant 9 x)
    else none

end Radiance
