import Radiance.Description

/-!
# Samplers forget their history

A sampler starts every sample of a pixel in a state that its seed, the pixel and the number of the
sample determine, whatever was drawn and seeded before.  The states that a sampler can get into are
described by a property that every operation keeps and that pins the start of a sample down.

## Main definitions

* `Sampler.Memoryless`: a set of states that all operations keep and that start samples alike.

## Main statements

* `Independent.memoryless`, `Halton.memoryless`: the states of the two samplers.
* `SamplerSpec.memoryless`: the states of the sampler of a description.
-/

namespace Radiance

variable {σ α : Type} [Sampler σ α]

/-- A set of states that all operations of a sampler keep, and that start each sample alike. -/
structure Sampler.Memoryless (states : σ → Prop) : Prop where
  of_draw : ∀ {s}, states s → states (draw s).2
  of_seedPixel : ∀ {s} p i, states s → states (seedPixel s p i)
  of_seed : ∀ {s} i, states s → states (seed s i)
  count_eq : ∀ {s s'}, states s → states s' → samplesPerPixel s = samplesPerPixel s'
  start_eq : ∀ {s s'} p i, states s → states s' → seedPixel s p i = seedPixel s' p i

/-- A sampler wrapped into another one that does the same forgets its history too. -/
theorem Sampler.Memoryless.map {τ : Type} [Sampler τ α] {states : τ → Prop}
    (h : Sampler.Memoryless states) (wrap : τ → σ)
    (hdraw : ∀ s, (Sampler.draw (wrap s)).2 = wrap (Sampler.draw s).2)
    (hseedPixel : ∀ s p i, Sampler.seedPixel (wrap s) p i = wrap (Sampler.seedPixel s p i))
    (hseed : ∀ s i, Sampler.seed (wrap s) i = wrap (Sampler.seed s i))
    (hcount : ∀ s, Sampler.samplesPerPixel (wrap s) = Sampler.samplesPerPixel s) :
    Sampler.Memoryless fun s => ∃ s', s = wrap s' ∧ states s' where
  of_draw := by
    rintro _ ⟨s, rfl, hs⟩
    exact ⟨_, hdraw s, h.of_draw hs⟩
  of_seedPixel := by
    rintro _ p i ⟨s, rfl, hs⟩
    exact ⟨_, hseedPixel s p i, h.of_seedPixel p i hs⟩
  of_seed := by
    rintro _ i ⟨s, rfl, hs⟩
    exact ⟨_, hseed s i, h.of_seed i hs⟩
  count_eq := by
    rintro _ _ ⟨s, rfl, hs⟩ ⟨s', rfl, hs'⟩
    rw [hcount, hcount, h.count_eq hs hs']
  start_eq := by
    rintro _ _ p i ⟨s, rfl, hs⟩ ⟨s', rfl, hs'⟩
    rw [hseedPixel, hseedPixel, h.start_eq p i hs hs']

/-! ## Independent numbers -/

namespace Independent

/-- The states of a sampler with a number of samples and a seed: only the generator changes. -/
structure States (count : UInt32) (seed : UInt64) (s : Independent) : Prop where
  seed_eq : s.seed = seed
  count_eq : s.count = count

theorem states_ofSeed (count : UInt32) (seed : UInt64) : States count seed (ofSeed count seed) :=
  ⟨rfl, rfl⟩

/-- The state at the start of a sample of a pixel. -/
def start (count : UInt32) (seed : UInt64) (p : Pixel) (i : UInt32) : Independent :=
  ⟨seed, count,
    .ofSeed (SipHash.hash (SipHash.word seed ++ SipHash.half p.x ++ SipHash.half p.y ++
      SipHash.half i))⟩

/-- A sample starts in the state that belongs to it, whatever came before. -/
theorem seedPixel_eq {count : UInt32} {seed : UInt64} {s : Independent}
    (h : States count seed s) (p : Pixel) (i : UInt32) :
    Sampler.seedPixel s p i = start count seed p i := by
  rw [start, ← h.seed_eq, ← h.count_eq]
  rfl

theorem memoryless (count : UInt32) (seed : UInt64) : Sampler.Memoryless (States count seed) where
  of_draw h := ⟨h.seed_eq, h.count_eq⟩
  of_seedPixel p i h := by
    rw [seedPixel_eq h]
    exact ⟨rfl, rfl⟩
  of_seed {s} i h := by
    change States count seed ⟨s.seed, s.count, _⟩
    exact ⟨h.seed_eq, h.count_eq⟩
  count_eq h h' := h.count_eq.trans h'.count_eq.symm
  start_eq p i h h' := (seedPixel_eq h p i).trans (seedPixel_eq h' p i).symm

end Independent

/-! ## Low-discrepancy numbers -/

namespace Halton

/-- What the shifts of a pixel are drawn from. -/
def pixelSeed (seed : UInt64) (p : Pixel) : UInt64 :=
  SipHash.hash (SipHash.word seed ++ SipHash.half p.x ++ SipHash.half p.y)

/-- The states of a sampler with a number of samples and a seed: the shifts are those of the cycle
they were drawn for, and those of the pixel if there is one. -/
structure States (count : UInt32) (seed : UInt64) (s : Halton) : Prop where
  seed_eq : s.seed = seed
  count_eq : s.count = count
  offsets_eq : s.offsets = drawOffsets s.offsetSeed s.cycle
  offsetSeed_eq : ∀ p, s.pixel = some p → s.offsetSeed = pixelSeed seed p

/-- The state at the start of a sample of a pixel. -/
def start (count : UInt32) (seed : UInt64) (p : Pixel) (i : UInt32) : Halton :=
  { seed, count, index := i.toUInt64 + 1, dimension := 0
    offsets := drawOffsets (pixelSeed seed p) 0, offsetSeed := pixelSeed seed p
    cycle := 0, pixel := some p }

variable {count : UInt32} {seed : UInt64} {s : Halton}

theorem states_ofSeed (count : UInt32) (seed : UInt64) : States count seed (ofSeed count seed) :=
  ⟨rfl, rfl, rfl, nofun⟩

theorem States.randomize (h : States count seed s) (cycle : UInt64) :
    States count seed (s.randomize s.offsetSeed cycle) :=
  ⟨h.seed_eq, h.count_eq, rfl, h.offsetSeed_eq⟩

theorem States.next (h : States count seed s) : States count seed s.next.2 := by
  simp only [Halton.next]
  split
  · have hs := h.randomize (UInt64.ofNat (s.dimension / primeCount))
    exact ⟨hs.seed_eq, hs.count_eq, hs.offsets_eq, hs.offsetSeed_eq⟩
  · exact ⟨h.seed_eq, h.count_eq, h.offsets_eq, h.offsetSeed_eq⟩

theorem settle_eq (h : States count seed s) (p : Pixel) :
    s.settle p =
      { s with offsets := drawOffsets (pixelSeed seed p) 0, offsetSeed := pixelSeed seed p
               cycle := 0, pixel := some p } := by
  obtain ⟨hseed, -, hoffsets, hpixel⟩ := h
  rw [settle]
  split
  · rw [← hseed]
    rfl
  next hsame =>
    -- The pixel is kept, and with it what its shifts are drawn from.
    have hp : s.pixel = some p := Decidable.of_not_not hsame
    have hoffset := hpixel p hp
    split
    · rw [Halton.randomize, hoffset, ← hp]
    next hcycle =>
      have hzero : s.cycle = 0 := Decidable.of_not_not hcycle
      rw [hoffset, hzero] at hoffsets
      rw [← hoffsets, ← hoffset, ← hp, ← hzero]

/-- A sample starts in the state that belongs to it, whatever came before. -/
theorem seedPixel_eq (h : States count seed s) (p : Pixel) (i : UInt32) :
    Sampler.seedPixel s p i = start count seed p i := by
  change { s.settle p with index := i.toUInt64 + 1, dimension := 0 } = _
  rw [settle_eq h, start, ← h.seed_eq, ← h.count_eq]

theorem memoryless (count : UInt32) (seed : UInt64) : Sampler.Memoryless (States count seed) where
  of_draw h := h.next
  of_seedPixel p i h := by
    rw [seedPixel_eq h]
    refine ⟨rfl, rfl, rfl, fun q hq => ?_⟩
    obtain rfl : p = q := Option.some.inj hq
    rfl
  of_seed _ h := ⟨h.seed_eq, h.count_eq, rfl, nofun⟩
  count_eq h h' := h.count_eq.trans h'.count_eq.symm
  start_eq p i h h' := (seedPixel_eq h p i).trans (seedPixel_eq h' p i).symm

end Halton

/-! ## Samplers of descriptions -/

namespace SamplerSpec

/-- The states of the sampler of a description. -/
def States (spec : SamplerSpec) (s : Source) : Prop :=
  match spec.kind with
  | .independent => ∃ s', s = .independent s' ∧ s'.States spec.count spec.seed
  | .halton => ∃ s', s = .halton s' ∧ s'.States spec.count spec.seed

theorem states_source (spec : SamplerSpec) : spec.States spec.source := by
  obtain ⟨kind, count, seed⟩ := spec
  cases kind with
  | independent => exact ⟨_, rfl, Independent.states_ofSeed count seed⟩
  | halton => exact ⟨_, rfl, Halton.states_ofSeed count seed⟩

/-- The sampler of a description forgets its history. -/
theorem memoryless (spec : SamplerSpec) : Sampler.Memoryless spec.States := by
  obtain ⟨kind, count, seed⟩ := spec
  cases kind with
  | independent =>
    exact (Independent.memoryless count seed).map Source.independent (fun _ => rfl)
      (fun _ _ _ => rfl) (fun _ _ => rfl) fun _ => rfl
  | halton =>
    exact (Halton.memoryless count seed).map Source.halton (fun _ => rfl) (fun _ _ _ => rfl)
      (fun _ _ => rfl) fun _ => rfl

end SamplerSpec

end Radiance
