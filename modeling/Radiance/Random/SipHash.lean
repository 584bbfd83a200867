/-!
# Keyless hashing of words

SipHash with one compression round and three finalization rounds under the zero key, a fixed
function from byte strings to words.  Samplers use it to derive independent seeds.

## Main definitions

* `SipHash.hash`: the hash of a byte string.
* `SipHash.word`, `SipHash.half`: the bytes of words, least significant first.
-/

namespace Radiance.SipHash

/-- The four words of internal state. -/
structure State where
  v₀ : UInt64 := 0x736f6d6570736575
  v₁ : UInt64 := 0x646f72616e646f6d
  v₂ : UInt64 := 0x6c7967656e657261
  v₃ : UInt64 := 0x7465646279746573

def rotateLeft (x : UInt64) (k : UInt64) : UInt64 := (x <<< k) ||| (x >>> (64 - k))

/-- One mixing round. -/
def State.round (s : State) : State :=
  let v₀ := s.v₀ + s.v₁
  let v₁ := rotateLeft s.v₁ 13 ^^^ v₀
  let v₀ := rotateLeft v₀ 32
  let v₂ := s.v₂ + s.v₃
  let v₃ := rotateLeft s.v₃ 16 ^^^ v₂
  let v₀ := v₀ + v₃
  let v₃ := rotateLeft v₃ 21 ^^^ v₀
  let v₂ := v₂ + v₁
  let v₁ := rotateLeft v₁ 17 ^^^ v₂
  let v₂ := rotateLeft v₂ 32
  ⟨v₀, v₁, v₂, v₃⟩

/-- The state after one block of eight bytes. -/
def State.absorb (s : State) (m : UInt64) : State :=
  let t := { s with v₃ := s.v₃ ^^^ m }.round
  { t with v₀ := t.v₀ ^^^ m }

/-- The hash of a state after its last block. -/
def State.finish (s : State) : UInt64 :=
  let t := { s with v₂ := s.v₂ ^^^ 0xff }.round.round.round
  t.v₀ ^^^ t.v₁ ^^^ t.v₂ ^^^ t.v₃

/-- The word with the given bytes, least significant first. -/
def ofBytes (bytes : List UInt8) : UInt64 := bytes.foldr (fun b w => (w <<< 8) ||| b.toUInt64) 0

/-- The state after all whole blocks of a byte string and the word of what is left over. -/
def blocks (s : State) : List UInt8 → State × UInt64
  | a :: b :: c :: d :: e :: f :: g :: h :: rest =>
    blocks (s.absorb (ofBytes [a, b, c, d, e, f, g, h])) rest
  | rest => (s, ofBytes rest)

/-- The hash of a byte string; the last block carries the length in its top byte. -/
def hash (bytes : List UInt8) : UInt64 :=
  let (s, tail) := blocks {} bytes
  (s.absorb ((UInt64.ofNat bytes.length <<< 56) ||| tail)).finish

/-- The eight bytes of a word. -/
def word (w : UInt64) : List UInt8 :=
  (List.range 8).map fun k => (w >>> UInt64.ofNat (8 * k)).toUInt8

/-- The four bytes of a half word. -/
def half (w : UInt32) : List UInt8 :=
  (List.range 4).map fun k => (w >>> UInt32.ofNat (8 * k)).toUInt8

end Radiance.SipHash
