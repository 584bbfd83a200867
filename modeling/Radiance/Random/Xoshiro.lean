import Radiance.Random.SipHash

/-!
# Pseudo-random words

The xoshiro256++ generator, its four state words filled from a seed by successive outputs of a
splitting generator.
-/

namespace Radiance

/-- The four words of generator state. -/
structure Xoshiro where
  s₀ : UInt64
  s₁ : UInt64
  s₂ : UInt64
  s₃ : UInt64
  deriving Repr, DecidableEq, Inhabited

namespace Xoshiro

/-- The scrambled output of the splitting generator in a given state. -/
def scramble (x : UInt64) : UInt64 :=
  let z := (x ^^^ (x >>> 30)) * 0xbf58476d1ce4e5b9
  let z := (z ^^^ (z >>> 27)) * 0x94d049bb133111eb
  z ^^^ (z >>> 31)

/-- The generator for a seed. -/
def ofSeed (seed : UInt64) : Xoshiro :=
  let gamma : UInt64 := 0x9e3779b97f4a7c15
  ⟨scramble (seed + gamma), scramble (seed + 2 * gamma), scramble (seed + 3 * gamma),
    scramble (seed + 4 * gamma)⟩

/-- The next word and the generator after it. -/
def next (g : Xoshiro) : UInt64 × Xoshiro :=
  let result := SipHash.rotateLeft (g.s₀ + g.s₃) 23 + g.s₀
  let t := g.s₁ <<< 17
  let s₂ := g.s₂ ^^^ g.s₀
  let s₃ := g.s₃ ^^^ g.s₁
  let s₁ := g.s₁ ^^^ s₂
  let s₀ := g.s₀ ^^^ s₃
  (result, ⟨s₀, s₁, s₂ ^^^ t, SipHash.rotateLeft s₃ 45⟩)

/-- The next number of `[0, 1)`, a multiple of `2 ^ -24`. -/
def nextUnit (g : Xoshiro) : Float32 × Xoshiro :=
  let (word, g) := g.next
  ((word >>> 40).toFloat32 / 16777216, g)

/-- The first numbers of a generator. -/
def units (g : Xoshiro) : Nat → List Float32
  | 0 => []
  | n + 1 =>
    let (u, g) := g.nextUnit
    u :: g.units n

end Xoshiro

end Radiance
