import Radiance.Scalar

/-!
# Binary32 scalars

The scalar operations on 32-bit floating-point numbers, each rounded once.
-/

namespace Radiance

/-- The magnitude of `x` under the sign bit of `y`. -/
def Binary32.copySign (x y : Float32) : Float32 :=
  Float32.ofBits ((x.toBits &&& 0x7fffffff) ||| (y.toBits &&& 0x80000000))

open Float.Model.UnpackedFloat in
/-- The largest whole number that is not larger.  Only a number with digits below the point moves;
a zero keeps its sign. -/
def Binary32.floor (x : Float32) : Float32 :=
  match unpack .binary32 x.toBits.toBitVec with
  | .finite sign mantissa exponent _ =>
    if exponent < 0 then
      let whole := sign.apply mantissa >>> (-exponent).toNat
      Float32.ofBits ⟨pack .binary32 (ofInt .binary32 whole)⟩
    else x
  | _ => x

instance : Scalar Float32 where
  decidableLT := inferInstance
  decidableLE := inferInstance
  ofNat := Float32.ofNat
  ofScientific := Float32.ofScientific
  infinity := Float32.ofBits 0x7f800000
  pi := Float32.ofBits 0x40490fdb
  sqrt := Float32.sqrt
  abs := Float32.abs
  floor := Binary32.floor
  copySign := Binary32.copySign
  sin := Float32.sin
  cos := Float32.cos
  tan := Float32.tan
  acos := Float32.acos
  atan2 := Float32.atan2
  pow := Float32.pow
  toInt64 := Float32.toInt64

end Radiance
