import Radiance.Decimal
import Radiance.Geometry.Box
import Radiance.Geometry.Frame
import Radiance.Json

/-!
# Numbers in reports

Binary32 numbers as JSON in two forms.  The exact form has nine significant digits, enough to read
the same number back; the rounded form has five, and five decimals below one, so that it does not
depend on the last bits of trigonometric functions.

## Main definitions

* `Report.exact`, `Report.rounded`: the two forms of a number.
* `Report.vec2`, `Report.vec3`, `Report.box`, `Report.frame`: compound values in either form.
-/

namespace Radiance.Report

/-- The form a number is written in. -/
abbrev Form := Float32 → Json

/-- The texts of numbers that are not finite, and the integer zero. -/
def special? (x : Float32) : Option Json :=
  if x.isNaN then some (.str "NaN")
  else if x.isInf then some (.str (if x < 0 then "-inf" else "inf"))
  else if x == 0 then some (.nat 0)
  else none

/-- A nonzero number with a count of significant digits. -/
def significant (count : Nat) (x : Float32) : Json.Number :=
  let (digits, place) := (Binary32.magnitude x).scientific count
  .decimal (Binary32.isNegative x) digits (place - (count : Int) + 1)

/-- Nine significant digits. -/
def exact : Form := fun x => (special? x).getD (.num (significant 9 x))

/-- Five decimals below one and five significant digits from there on; a number whose decimals are
all zero is zero. -/
def rounded : Form := fun x =>
  (special? x).getD <|
    if Float32.abs x < 1 then
      match (Binary32.magnitude x).fixed 5 with
      | 0 => .nat 0
      | digits => .num (.decimal (Binary32.isNegative x) digits (-5))
    else .num (significant 5 x)

def vec2 (form : Form) (v : Vec2 Float32) : Json := .arr [form v.x, form v.y]

def vec3 (form : Form) (v : Vec3 Float32) : Json := .arr [form v.x, form v.y, form v.z]

def box (form : Form) (b : Box Float32) : Json := .arr [vec3 form b.min, vec3 form b.max]

/-- Tangent, bitangent and normal. -/
def frame (form : Form) (f : Frame Float32) : Json :=
  .arr [vec3 form f.tangent, vec3 form f.bitangent, vec3 form f.normal]

end Radiance.Report
