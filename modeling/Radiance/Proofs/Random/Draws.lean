import Mathlib.Data.Nat.Prime.Basic
import Radiance.Proofs.Random.History

/-!
# The numbers of a sample

After any history of draws, seeds and copies, the numbers that a sampler draws for a sample of a
pixel are determined by its seed, the pixel, the number of the sample and their place in the row.
A low-discrepancy sampler keeps the shifts of its pixel and draws new ones each time it runs out of
bases, so its numbers are pinned down by what ties its shifts, its cycle and its dimension together
between two draws.

## Main definitions

* `Sampler.run`: a history of a pool of samplers, which copies enlarge.
* `Sampler.drawn`: the numbers that a row of draws returns.
* `Sampler.stream`: the number at each place of the row.
* `Halton.Midway`: the states that come up between two draws of one sample.

## Main statements

* `Sampler.Memoryless.run`: a history keeps what all operations keep.
* `Halton.Midway.next`: what one draw returns, and that it leads to the next such state.
* `Sampler.drawn_forgets_history`: the numbers of a sample after any history.
-/

namespace Radiance

namespace Sampler

variable {σ α : Type} [Sampler σ α]

/-! ## Histories -/

/-- How many numbers are asked for at once. -/
inductive Draw
  | one
  | two
  deriving Repr, DecidableEq

/-- What can be asked of a single sampler. -/
inductive Call
  | draw (d : Draw)
  | seed (i : UInt64)
  | seedPixel (p : Pixel) (i : UInt32)
  deriving Repr, DecidableEq

/-- What can happen to a pool of samplers, each known by its place. -/
inductive Event
  | call (who : Nat) (c : Call)
  | clone (who : Nat)
  deriving Repr, DecidableEq

/-- The state after a call. -/
def Call.after (s : σ) : Call → σ
  | .draw .one => (next₁ s).2
  | .draw .two => (next₂ s).2
  | .seed i => Sampler.seed s i
  | .seedPixel p i => Sampler.seedPixel s p i

/-- The pool after an event.  A copy takes the next free place. -/
def step (pool : List σ) : Event → List σ
  | .call who c => pool.modify who c.after
  | .clone who => pool ++ pool[who]?.toList

/-- The pool after a history. -/
def run (events : List Event) (pool : List σ) : List σ := events.foldl step pool

namespace Memoryless

variable {states : σ → Prop}

theorem after (h : Memoryless states) {s : σ} (hs : states s) (c : Call) :
    states (c.after s) := by
  rcases c with d | i | ⟨p, i⟩
  · cases d with
    | one => exact h.of_draw hs
    | two => exact h.of_draw (h.of_draw hs)
  · exact h.of_seed i hs
  · exact h.of_seedPixel p i hs

theorem step (h : Memoryless states) {pool : List σ} (hpool : ∀ s ∈ pool, states s)
    (event : Event) : ∀ s ∈ Sampler.step pool event, states s := by
  intro s hs
  cases event with
  | call who c =>
    obtain ⟨i, hi, rfl⟩ := List.mem_iff_getElem.1 hs
    have hlt : i < pool.length := by simpa [Sampler.step] using hi
    have hi' := hpool _ (List.getElem_mem hlt)
    simp only [Sampler.step, List.getElem_modify]
    split
    · exact h.after hi' c
    · exact hi'
  | clone who =>
    rcases List.mem_append.1 hs with hold | hnew
    · exact hpool s hold
    · exact hpool s (List.mem_of_getElem? (Option.mem_toList.1 hnew))

/-- A history keeps what all operations keep. -/
theorem run (h : Memoryless states) (events : List Event) {pool : List σ}
    (hpool : ∀ s ∈ pool, states s) : ∀ s ∈ Sampler.run events pool, states s := by
  induction events generalizing pool with
  | nil => exact hpool
  | cons event events ih => exact ih (h.step hpool event)

end Memoryless

/-! ## Rows of draws -/

/-- The number of numbers that a draw returns. -/
def Draw.width : Draw → Nat
  | .one => 1
  | .two => 2

/-- The numbers that a row of draws returns, in order. -/
def drawn (s : σ) : List Draw → List α
  | [] => []
  | .one :: draws =>
    let (u, s) := next₁ s
    u :: drawn s draws
  | .two :: draws =>
    let (u, s) := next₂ s
    u.x :: u.y :: drawn s draws

/-- The number at a place of the row, counted from zero. -/
def stream (s : σ) : Nat → α
  | 0 => (draw s).1
  | k + 1 => stream (draw s).2 k

theorem map_stream_succ (s : σ) (n : Nat) :
    (List.range (n + 1)).map (stream s) = (draw s).1 :: (List.range n).map (stream (draw s).2) := by
  rw [List.range_succ_eq_map, List.map_cons, List.map_map]
  rfl

/-- Single numbers and points are taken from one and the same row. -/
theorem drawn_eq (s : σ) (draws : List Draw) :
    drawn s draws = (List.range (draws.map Draw.width).sum).map (stream s) := by
  induction draws generalizing s with
  | nil => rfl
  | cons d draws ih =>
    rw [List.map_cons, List.sum_cons, Nat.add_comm]
    cases d with
    | one =>
      rw [Draw.width, map_stream_succ, ← ih]
      rfl
    | two =>
      rw [Draw.width, map_stream_succ, map_stream_succ, ← ih]
      rfl

end Sampler

/-! ## Independent numbers -/

namespace Independent

/-- The numbers drawn are those of the generator, which knows nothing of the rest of the state. -/
theorem map_stream (s : Independent) (n : Nat) :
    (List.range n).map (Sampler.stream s) = s.generator.units n := by
  induction n generalizing s with
  | zero => rfl
  | succ n ih =>
    rw [Sampler.map_stream_succ, ih]
    rfl

end Independent

/-! ## The bases of successive dimensions -/

theorem isPrime_iff {n : Nat} : isPrime n = true ↔ n.Prime := by
  rw [Nat.prime_def_lt']
  simp only [isPrime, Bool.and_eq_true, decide_eq_true_eq, List.all_eq_true, List.mem_range,
    Bool.or_eq_true, Nat.dvd_iff_mod_eq_zero, or_iff_not_imp_left, Nat.not_lt]
  exact and_congr_right fun _ => forall_congr' fun d => forall_comm

/-- The primes below 41: a composite number below the square of 41 has a divisor among them. -/
def smallPrimes : List Nat := [2, 3, 5, 7, 11, 13, 17, 19, 23, 29, 31, 37]

/-- Whether a number passes the sieve of the small primes. -/
def isSieved (n : Nat) : Bool := Nat.ble 2 n && smallPrimes.all fun d => n == d || n % d != 0

theorem mem_smallPrimes {p : Nat} (hp : p.Prime) (hlt : p < 41) : p ∈ smallPrimes := by
  revert hp
  decide +revert

theorem two_le_of_mem_smallPrimes {d : Nat} (hd : d ∈ smallPrimes) : 2 ≤ d := by
  revert d
  decide

theorem isPrime_eq_isSieved {n : Nat} (hn : n < 41 * 41) : isPrime n = isSieved n := by
  have hsieved : isSieved n = true ↔ 2 ≤ n ∧ ∀ d ∈ smallPrimes, n = d ∨ ¬d ∣ n := by
    simp [isSieved, Nat.dvd_iff_mod_eq_zero]
  rw [Bool.eq_iff_iff, hsieved, isPrime_iff]
  constructor
  · intro hp
    refine ⟨hp.two_le, fun d hd => ?_⟩
    by_contra! hdiv
    rcases (Nat.dvd_prime hp).1 hdiv.2 with rfl | rfl
    · exact absurd (two_le_of_mem_smallPrimes hd) (by decide)
    · exact hdiv.1 rfl
  · rintro ⟨htwo, hall⟩
    by_contra hp
    -- The least divisor of a composite number is at most its root.
    have hmin : n.minFac.Prime := Nat.minFac_prime (by omega)
    have hsq : n.minFac ^ 2 ≤ n := Nat.minFac_sq_le_self (by omega) hp
    have hlt : n.minFac < 41 := (Nat.pow_lt_pow_iff_left two_ne_zero).1 (by omega)
    rcases hall _ (mem_smallPrimes hmin hlt) with heq | hndvd
    · exact hp (heq ▸ hmin)
    · exact hndvd (Nat.minFac_dvd n)

theorem size_primes : primes.size = primeCount := by
  have hfilter : (List.range 1620).filter isPrime = (List.range 1620).filter isSieved :=
    List.filter_congr fun n hn => isPrime_eq_isSieved (by have := List.mem_range.1 hn; omega)
  have hcount : ((List.range 1620).filter isSieved).length = primeCount := by decide +kernel
  rw [primes, List.size_toArray, List.length_map, hfilter, hcount]

theorem Xoshiro.length_units (g : Xoshiro) (n : Nat) : (g.units n).length = n := by
  induction n generalizing g with
  | zero => rfl
  | succ n ih => exact congrArg (· + 1) (ih _)

/-! ## Low-discrepancy numbers -/

namespace Halton

variable {offsetSeed index : UInt64} {k : Nat} {s : Halton}

/-- What the shift of a dimension of a pixel is drawn from. -/
def shiftSeed (seed : UInt64) (p : Pixel) (k : Nat) : UInt64 :=
  if k < primeCount then pixelSeed seed p
  else
    SipHash.hash (SipHash.word (pixelSeed seed p) ++ SipHash.word (UInt64.ofNat (k / primeCount)))

/-- The number in a dimension of a point. -/
def value (offsetSeed index : UInt64) (k : Nat) : Float32 :=
  rotate (radicalInverse (primes.getD (k % primeCount) 2) index)
    ((drawOffsets offsetSeed (UInt64.ofNat (k / primeCount))).getD (k % primeCount) 0)

/-- A state between two draws of one sample, `k` numbers after its start.  The shifts may be those
of the cycle before. -/
structure Midway (offsetSeed index : UInt64) (k : Nat) (s : Halton) : Prop where
  index_eq : s.index = index
  dimension_eq : s.dimension = k
  offsetSeed_eq : s.offsetSeed = offsetSeed
  offsets_eq : s.offsets = drawOffsets s.offsetSeed s.cycle

theorem midway_start (count : UInt32) (seed : UInt64) (p : Pixel) (i : UInt32) :
    Midway (pixelSeed seed p) (i.toUInt64 + 1) 0 (start count seed p i) :=
  ⟨rfl, rfl, rfl, rfl⟩

/-- A draw first brings the shifts to the cycle of its dimension. -/
theorem Midway.next_eq (h : Midway offsetSeed index k s) :
    s.next =
      (value offsetSeed index k,
        { s.randomize offsetSeed (UInt64.ofNat (k / primeCount)) with dimension := k + 1 }) := by
  obtain ⟨rfl, rfl, rfl, hoffsets⟩ := h
  rw [Halton.next]
  split
  · rfl
  next hsame =>
    have hcycle : UInt64.ofNat (s.dimension / primeCount) = s.cycle := Decidable.of_not_not hsame
    rw [value, Halton.randomize, hcycle, ← hoffsets]

/-- What one draw returns, and that it leads to the next such state. -/
theorem Midway.next (h : Midway offsetSeed index k s) :
    s.next.1 = value offsetSeed index k ∧ Midway offsetSeed index (k + 1) s.next.2 := by
  rw [h.next_eq]
  exact ⟨rfl, h.index_eq, rfl, rfl, rfl⟩

theorem Midway.stream_eq (h : Midway offsetSeed index k s) (n : Nat) :
    Sampler.stream s n = value offsetSeed index (k + n) := by
  induction n generalizing k s with
  | zero => exact h.next.1
  | succ n ih =>
    have hrest := ih h.next.2
    rwa [Nat.add_assoc, Nat.add_comm 1 n] at hrest

/-- The shifts of a dimension's cycle, as long as a word can count the cycles. -/
theorem drawOffsets_cycle (seed : UInt64) (p : Pixel) {k : Nat} (hk : k / primeCount < 2 ^ 64) :
    drawOffsets (pixelSeed seed p) (UInt64.ofNat (k / primeCount)) =
      ((Xoshiro.ofSeed (shiftSeed seed p k)).units primeCount).toArray := by
  have hzero : UInt64.ofNat (k / primeCount) = 0 ↔ k < primeCount := by
    rw [← UInt64.toNat_inj, UInt64.toNat_ofNat_of_lt' hk, UInt64.toNat_zero, Nat.div_eq_zero_iff]
    simp [primeCount]
  simp only [drawOffsets, shiftSeed, hzero]

theorem value_spec (seed index : UInt64) (p : Pixel) {k : Nat} (hk : k / primeCount < 2 ^ 64) :
    ∃ base shift, primes[k % primeCount]? = some base ∧
      ((Xoshiro.ofSeed (shiftSeed seed p k)).units primeCount)[k % primeCount]? = some shift ∧
      value (pixelSeed seed p) index k =
        Scalar.min (radicalInverse base index + shift -
          Scalar.floor (radicalInverse base index + shift)) oneMinusEpsilon := by
  have hlt : k % primeCount < primeCount := Nat.mod_lt _ (by decide)
  have hbase : k % primeCount < primes.size := size_primes.symm ▸ hlt
  have hshift : k % primeCount < ((Xoshiro.ofSeed (shiftSeed seed p k)).units primeCount).length :=
    (Xoshiro.length_units ..).symm ▸ hlt
  refine ⟨_, _, Array.getElem?_eq_getElem hbase, List.getElem?_eq_getElem hshift, ?_⟩
  rw [value, drawOffsets_cycle seed p hk, Array.getD_eq_getD_getElem?, Array.getD_eq_getD_getElem?,
    Array.getElem?_eq_getElem hbase, List.getElem?_toArray, List.getElem?_eq_getElem hshift]
  rfl

end Halton

/-! ## Both samplers -/

/-- The numbers of a sample after any history of draws, seeds and copies are determined by the seed
of the sampler, the pixel, the number of the sample and their place. -/
theorem Sampler.drawn_forgets_history (seed : UInt64) (p : Pixel) (i : UInt32) :
    (∃ row : Nat → Float32,
      (∀ count events, ∀ s ∈ run events [Independent.ofSeed count seed], ∀ draws,
        drawn (seedPixel s p i) draws = (List.range (draws.map Draw.width).sum).map row) ∧
      ∀ n, (List.range n).map row =
        (Xoshiro.ofSeed (SipHash.hash (SipHash.word seed ++ SipHash.half p.x ++ SipHash.half p.y ++
          SipHash.half i))).units n) ∧
    ∃ row : Nat → Float32,
      (∀ count events, ∀ s ∈ run events [Halton.ofSeed count seed], ∀ draws,
        drawn (seedPixel s p i) draws = (List.range (draws.map Draw.width).sum).map row) ∧
      ∀ k, k / primeCount < 2 ^ 64 → ∃ base shift, primes[k % primeCount]? = some base ∧
        ((Xoshiro.ofSeed (Halton.shiftSeed seed p k)).units primeCount)[k % primeCount]? =
          some shift ∧
        row k =
          Scalar.min (radicalInverse base (i.toUInt64 + 1) + shift -
            Scalar.floor (radicalInverse base (i.toUInt64 + 1) + shift)) oneMinusEpsilon := by
  constructor
  · refine ⟨stream (Independent.start 0 seed p i), fun count events s hs draws => ?_, fun n => ?_⟩
    · have hstates : s.States count seed :=
        (Independent.memoryless count seed).run events (by simp [Independent.states_ofSeed]) s hs
      rw [Independent.seedPixel_eq hstates, drawn_eq, Independent.map_stream,
        Independent.map_stream]
      rfl
    · exact Independent.map_stream _ n
  · refine ⟨Halton.value (Halton.pixelSeed seed p) (i.toUInt64 + 1),
      fun count events s hs draws => ?_, fun k hk => Halton.value_spec seed _ p hk⟩
    have hstates : s.States count seed :=
      (Halton.memoryless count seed).run events (by simp [Halton.states_ofSeed]) s hs
    rw [Halton.seedPixel_eq hstates, drawn_eq]
    refine List.map_congr_left fun k _ => ?_
    rw [(Halton.midway_start count seed p i).stream_eq, Nat.zero_add]

/-- A copy that was seeded and drawn from elsewhere, and a sampler that was never used, agree on a
sample. -/
theorem Sampler.drawn_forgets_history_copy :
    ∃ s, s ∈ run [.call 0 (.seedPixel ⟨3, 1⟩ 0), .call 0 (.draw .two), .clone 0,
        .call 1 (.seed 7), .call 1 (.draw .one)] [Halton.ofSeed 4 9] ∧
      drawn (seedPixel s ⟨3, 1⟩ 2) [.two, .one] =
        drawn (seedPixel (Halton.ofSeed 1 9) ⟨3, 1⟩ 2) [.one, .two] := by
  obtain ⟨row, hrow, -⟩ := (drawn_forgets_history 9 ⟨3, 1⟩ 2).2
  have hcopy := List.mem_of_getElem? (l := run [.call 0 (.seedPixel ⟨3, 1⟩ 0), .call 0 (.draw .two),
    .clone 0, .call 1 (.seed 7), .call 1 (.draw .one)] [Halton.ofSeed 4 9]) (i := 1) rfl
  refine ⟨_, hcopy, ?_⟩
  rw [hrow 4 _ _ hcopy, hrow 1 [] _ List.mem_cons_self]
  rfl

end Radiance
