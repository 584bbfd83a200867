/-!
# Decimal text of binary numbers

Exact conversion of fractions to decimal digits.  Every function works on natural numbers, so the
digits are those of the exact value.  With a given number of digits a tie goes to the even digit,
and among the fewest digits it goes up.

## Main definitions

* `roundDiv`: the quotient rounded to the nearest natural number.
* `Fraction`: a nonnegative rational number, `Fraction.fixed` and `Fraction.scientific` its digits
  at a given place and with a given count.
* `Rounding.shortest`: the fewest digits that still lie in a rounding interval.
* `Binary32.magnitude`: the exact absolute value of a finite binary32 number.
-/

namespace Radiance

/-- The quotient rounded to the nearest natural number, a half going to the even one. -/
def roundDiv (num den : Nat) : Nat :=
  let q := num / den
  let r := num % den
  if 2 * r < den then q
  else if den < 2 * r then q + 1
  else q + q % 2

/-- The number of decimal digits, one for zero. -/
def digitCount (n : Nat) : Nat := (Nat.toDigits 10 n).length

/-- A nonnegative rational number. -/
structure Fraction where
  num : Nat
  den : Nat
  deriving Repr, DecidableEq

namespace Fraction

/-- The fraction `m * 2 ^ q`. -/
def ofBinary (m : Nat) (q : Int) : Fraction :=
  match q with
  | .ofNat k => ⟨m * Nat.pow 2 k, 1⟩
  | .negSucc k => ⟨m, Nat.pow 2 (k + 1)⟩

/-- The fraction times a power of ten. -/
def shift (v : Fraction) (places : Int) : Fraction :=
  match places with
  | .ofNat k => ⟨v.num * Nat.pow 10 k, v.den⟩
  | .negSucc k => ⟨v.num, v.den * Nat.pow 10 (k + 1)⟩

def lt (a b : Fraction) : Bool := a.num * b.den < b.num * a.den

def le (a b : Fraction) : Bool := a.num * b.den ≤ b.num * a.den

/-- The value in units of `10 ^ -places`, rounded to a whole number. -/
def fixed (v : Fraction) (places : Nat) : Nat :=
  let w := v.shift places
  roundDiv w.num w.den

/-- The place of the leading digit of a positive value: the `e` with `10 ^ e ≤ v < 10 ^ (e + 1)`. -/
def leadingPlace (v : Fraction) : Int :=
  let e : Int := (digitCount v.num : Int) - digitCount v.den
  if le ⟨1, 1⟩ (v.shift (-e)) then e else e - 1

/-- A positive value rounded to `count` digits: the digits as a whole number and the place of the
leading one. -/
def scientific (v : Fraction) (count : Nat) : Nat × Int :=
  let e := v.leadingPlace
  let w := v.shift ((count : Int) - 1 - e)
  let d := roundDiv w.num w.den
  if d = Nat.pow 10 count then (Nat.pow 10 (count - 1), e + 1) else (d, e)

end Fraction

/-- Digits with a decimal point `places` from the right. -/
def pointText (digits places : Nat) : String :=
  let whole := toString (digits / Nat.pow 10 places)
  if places = 0 then whole
  else
    let rest := toString (digits % Nat.pow 10 places)
    whole ++ "." ++ String.ofList (List.replicate (places - rest.length) '0') ++ rest

/-- The values that round to one and the same number. -/
structure Rounding where
  lower : Fraction
  value : Fraction
  upper : Fraction
  /-- Whether the two ends round to the number too. -/
  closed : Bool

namespace Rounding

/-- Whether a value rounds to the number. -/
def accepts (r : Rounding) (v : Fraction) : Bool :=
  if r.closed then r.lower.le v && v.le r.upper else r.lower.lt v && v.lt r.upper

/-- The decimal of `count` digits nearest to the value among its two neighbours that round to the
number, if one does: its digits and the place of the last one.  Of two neighbours at the same
distance it is the larger. -/
def digits? (r : Rounding) (count : Nat) : Option (Nat × Int) :=
  let place := r.value.leadingPlace - (count : Int) + 1
  let w := r.value.shift (-place)
  let below := w.num / w.den
  let unit (n : Nat) : Fraction := (Fraction.mk n 1).shift place
  let (nearest, other) :=
    if 2 * (w.num % w.den) < w.den then (below, below + 1) else (below + 1, below)
  if r.accepts (unit nearest) then some (nearest, place)
  else if r.accepts (unit other) then some (other, place)
  else none

/-- The fewest digits that round to the number, at most `limit` of them. -/
def shortest (r : Rounding) (limit : Nat) : Nat × Int :=
  match (List.range limit).findSome? fun n => r.digits? (n + 1) with
  | some d => d
  | none => (r.value.scientific limit).map id (· - (limit : Int) + 1)

end Rounding

/-- A whole number of units of `10 ^ place` without an exponent. -/
def placedText (digits : Nat) (place : Int) : String :=
  match place with
  | .ofNat k => toString (digits * Nat.pow 10 k)
  | .negSucc k =>
    let text := pointText digits (k + 1)
    let kept := (text.toList.reverse.dropWhile (· = '0')).reverse
    String.ofList (if kept.getLast? = some '.' then kept.dropLast else kept)

namespace Binary32

/-- The fields of a binary32 number: the sign, then `m` and `q` with the magnitude `m * 2 ^ q`. -/
def fields (x : Float32) : Bool × Nat × Int :=
  let bits := x.toBits.toNat
  let fraction : Nat := bits % Nat.pow 2 23
  let exponent : Nat := bits / Nat.pow 2 23 % Nat.pow 2 8
  let sign := decide (Nat.pow 2 31 ≤ bits)
  if exponent = 0 then (sign, fraction, -149)
  else (sign, fraction + Nat.pow 2 23, (exponent : Int) - 150)

/-- The exact absolute value of a finite number. -/
def magnitude (x : Float32) : Fraction :=
  let (_, m, q) := fields x
  Fraction.ofBinary m q

def isNegative (x : Float32) : Bool := (fields x).1

/-- The values that round to the absolute value of a positive finite number. -/
def rounding (x : Float32) : Rounding :=
  let (_, m, q) := fields x
  let low := if m = Nat.pow 2 23 ∧ -149 < q then Fraction.ofBinary (4 * m - 1) (q - 2)
    else Fraction.ofBinary (2 * m - 1) (q - 1)
  { lower := low
    value := Fraction.ofBinary m q
    upper := Fraction.ofBinary (2 * m + 1) (q - 1)
    closed := m % 2 = 0 }

/-- The fewest digits that read back as the same number, without an exponent. -/
def text (x : Float32) : String :=
  if x.isNaN then "NaN"
  else
    let sign := if isNegative x then "-" else ""
    if x.isInf then sign ++ "inf"
    else if x == 0 then sign ++ "0"
    else
      let (digits, place) := (rounding x).shortest 9
      sign ++ placedText digits place

/-- The value with a fixed number of decimals. -/
def fixedText (x : Float32) (places : Nat) : String :=
  (if isNegative x then "-" else "") ++ pointText ((magnitude x).fixed places) places

end Binary32

end Radiance
