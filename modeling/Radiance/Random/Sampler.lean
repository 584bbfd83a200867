import Radiance.Random.RadicalInverse
import Radiance.Random.Xoshiro
import Radiance.Vector

/-!
# Samplers

Sources of numbers in `[0, 1)`.  A sampler can be set to the sequence of one sample of one pixel, so
what a pixel shows does not depend on what was drawn before.

## Main definitions

* `Sampler`: what estimators ask of a source of numbers; `Sampler.next₁` and `Sampler.next₂` draw.
* `Independent`: uncorrelated pseudo-random numbers.
* `Halton`: a low-discrepancy sequence with a random shift per pixel and dimension.
* `Replay`: a fixed list of numbers, repeated.
* `Source`: one of the three.
-/

namespace Radiance

/-- A pixel by column and row. -/
structure Pixel where
  x : UInt32
  y : UInt32
  deriving Repr, DecidableEq, Inhabited

/-- A source of numbers with state `σ`. -/
class Sampler (σ : Type) (α : outParam Type) where
  /-- The next number and the state after it. -/
  draw : σ → α × σ
  /-- The state at the start of one sample of a pixel. -/
  seedPixel : σ → Pixel → UInt32 → σ
  /-- The state at the start of a sequence that belongs to no pixel. -/
  seed : σ → UInt64 → σ
  samplesPerPixel : σ → UInt32

namespace Sampler

variable {σ α : Type} [Sampler σ α]

/-- Draws a number. -/
def next₁ : StateM σ α := draw

/-- Draws a point of the unit square, first coordinate first. -/
def next₂ : StateM σ (Vec2 α) := do
  let x ← next₁
  let y ← next₁
  return ⟨x, y⟩

end Sampler

/-! ## Independent numbers -/

/-- Uncorrelated numbers from a generator. -/
structure Independent where
  seed : UInt64
  count : UInt32
  generator : Xoshiro
  deriving Repr, DecidableEq, Inhabited

namespace Independent

def ofSeed (count : UInt32) (seed : UInt64) : Independent := ⟨seed, count, .ofSeed seed⟩

instance : Sampler Independent Float32 where
  draw s :=
    let (u, generator) := s.generator.nextUnit
    (u, { s with generator })
  seedPixel s p i :=
    let bytes := SipHash.word s.seed ++ SipHash.half p.x ++ SipHash.half p.y ++ SipHash.half i
    { s with generator := .ofSeed (SipHash.hash bytes) }
  seed s i :=
    { s with generator := .ofSeed (SipHash.hash (SipHash.word s.seed ++ SipHash.word i)) }
  samplesPerPixel s := s.count

end Independent

/-! ## Low-discrepancy numbers -/

/-- Radical inverses in successive prime bases, shifted by an offset per dimension.  Past the last
prime the bases repeat under fresh offsets. -/
structure Halton where
  seed : UInt64
  count : UInt32
  index : UInt64
  dimension : Nat
  /-- The shifts of the dimensions of the current cycle. -/
  offsets : Array Float32
  /-- What the shifts are drawn from. -/
  offsetSeed : UInt64
  /-- How often the bases had repeated when the shifts were drawn. -/
  cycle : UInt64
  /-- The pixel the shifts belong to. -/
  pixel : Option Pixel
  deriving Repr, DecidableEq, Inhabited

namespace Halton

/-- The shifts of one cycle of dimensions. -/
def drawOffsets (offsetSeed cycle : UInt64) : Array Float32 :=
  let seed := if cycle = 0 then offsetSeed
    else SipHash.hash (SipHash.word offsetSeed ++ SipHash.word cycle)
  ((Xoshiro.ofSeed seed).units primeCount).toArray

/-- Replaces the shifts. -/
def randomize (s : Halton) (offsetSeed cycle : UInt64) : Halton :=
  { s with offsets := drawOffsets offsetSeed cycle, offsetSeed, cycle }

def ofSeed (count : UInt32) (seed : UInt64) : Halton :=
  { seed, count, index := 1, dimension := 0, offsets := drawOffsets seed 0, offsetSeed := seed
    cycle := 0, pixel := none }

/-- The shifts of a pixel in its first cycle. -/
def settle (s : Halton) (p : Pixel) : Halton :=
  if s.pixel ≠ some p then
    let bytes := SipHash.word s.seed ++ SipHash.half p.x ++ SipHash.half p.y
    { s.randomize (SipHash.hash bytes) 0 with pixel := some p }
  else if s.cycle ≠ 0 then s.randomize s.offsetSeed 0
  else s

/-- A number shifted around the unit interval. -/
def rotate (value offset : Float32) : Float32 :=
  let sum := value + offset
  Scalar.min (sum - Scalar.floor sum) oneMinusEpsilon

/-- The next number: the current dimension of the current point. -/
def next (s : Halton) : Float32 × Halton :=
  let cycle := UInt64.ofNat (s.dimension / primeCount)
  let s := if cycle ≠ s.cycle then s.randomize s.offsetSeed cycle else s
  let d := s.dimension % primeCount
  let value := rotate (radicalInverse (primes.getD d 2) s.index) (s.offsets.getD d 0)
  (value, { s with dimension := s.dimension + 1 })

instance : Sampler Halton Float32 where
  draw := next
  seedPixel s p i := { s.settle p with index := i.toUInt64 + 1, dimension := 0 }
  seed s i :=
    { s.randomize (SipHash.hash (SipHash.word s.seed ++ SipHash.word i)) 0 with
      pixel := none, index := 1, dimension := 0 }
  samplesPerPixel s := s.count

end Halton

/-! ## Given numbers -/

/-- A list of numbers drawn in turn and from the start again at its end; seeding leaves it alone. -/
structure Replay (α : Type) where
  values : Array α
  count : UInt32
  position : Nat := 0
  deriving Repr, Inhabited

instance {α : Type} [Scalar α] : Sampler (Replay α) α where
  draw s := (s.values.getD (s.position % s.values.size) 0, { s with position := s.position + 1 })
  seedPixel s _ _ := s
  seed s _ := s
  samplesPerPixel s := s.count

/-! ## Choice of sampler -/

/-- A sampler of any kind. -/
inductive Source
  | independent (s : Independent)
  | halton (s : Halton)
  | replay (s : Replay Float32)
  deriving Inhabited

instance : Sampler Source Float32 where
  draw
    | .independent s => let (u, s) := Sampler.draw s; (u, .independent s)
    | .halton s => let (u, s) := Sampler.draw s; (u, .halton s)
    | .replay s => let (u, s) := Sampler.draw s; (u, .replay s)
  seedPixel
    | .independent s, p, i => .independent (Sampler.seedPixel s p i)
    | .halton s, p, i => .halton (Sampler.seedPixel s p i)
    | .replay s, p, i => .replay (Sampler.seedPixel s p i)
  seed
    | .independent s, i => .independent (Sampler.seed s i)
    | .halton s, i => .halton (Sampler.seed s i)
    | .replay s, i => .replay (Sampler.seed s i)
  samplesPerPixel
    | .independent s => s.count
    | .halton s => s.count
    | .replay s => s.count

/-- Whether a number has been drawn from an empty list, which has none. -/
def Source.isOverdrawn : Source → Bool
  | .replay s => s.values.isEmpty && 0 < s.position
  | _ => false

end Radiance
