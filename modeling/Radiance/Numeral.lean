import Radiance.Decimal
import Radiance.Scalar.Binary32

/-!
# Numerals

Numbers written as words: digits with a sign, and decimals with a point and an exponent.

## Main definitions

* `Numeral.natural?`, `Numeral.integer?`: whole numbers.
* `Numeral.number?`: binary32 numbers, rounded once.
-/

namespace Radiance.Numeral

/-- Splits off an optional sign: whether it is a minus, and the rest. -/
def signed : List Char → Bool × List Char
  | '-' :: rest => (true, rest)
  | '+' :: rest => (false, rest)
  | rest => (false, rest)

/-- The natural number of a nonempty list of digits. -/
def natural? (ds : List Char) : Option Nat :=
  if ds.isEmpty || !ds.all Char.isDigit then none
  else some (ds.foldl (fun n c => n * 10 + (c.toNat - '0'.toNat)) 0)

/-- An integer with an optional sign that a word of 64 bits holds. -/
def integer? (word : String) : Option Int := do
  let (negative, ds) := signed word.toList
  let n ← natural? ds
  if negative then if n ≤ Nat.pow 2 63 then some (-(n : Int)) else none
  else if n < Nat.pow 2 63 then some n else none

/-- The binary32 number nearest to `coefficient * 10 ^ exponent`, rounded once. -/
def nearest (coefficient : Nat) (exponent : Int) : Float32 :=
  let places : Int := digitCount coefficient + exponent
  if coefficient = 0 ∨ places < -100 then 0
  else if 100 < places then Scalar.infinity
  else Float32.ofScientific coefficient (exponent < 0) exponent.natAbs

/-- A decimal without its sign: digits with an optional point, and an optional exponent. -/
def decimal? (cs : List Char) : Option Float32 := do
  let whole := cs.takeWhile Char.isDigit
  let rest := cs.dropWhile Char.isDigit
  let (fraction, rest) :=
    match rest with
    | '.' :: r => (r.takeWhile Char.isDigit, r.dropWhile Char.isDigit)
    | r => ([], r)
  let coefficient ← natural? (whole ++ fraction)
  let exponent : Int ←
    match rest with
    | [] => some 0
    | mark :: r =>
      if mark = 'e' ∨ mark = 'E' then
        let (negative, ds) := signed r
        (natural? ds).map fun (n : Nat) => if negative then -(n : Int) else n
      else none
  return nearest coefficient (exponent - fraction.length)

/-- A number: a decimal, an infinity or the undefined number, with an optional sign. -/
def number? (word : String) : Option Float32 :=
  let (negative, cs) := signed word.toList
  let lower := String.ofList (cs.map Char.toLower)
  let magnitude :=
    if lower = "inf" ∨ lower = "infinity" then some Scalar.infinity
    else if lower = "nan" then some (0 / 0)
    else decimal? cs
  magnitude.map fun x => if negative then -x else x

end Radiance.Numeral
