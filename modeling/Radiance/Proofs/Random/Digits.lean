import Mathlib
import Radiance.Proofs.Random.Draws

/-!
# Radical inverses mirror digits

The loop that reverses the digits of an index is run a second time with checked words: as long as
the product of base and index is a word, no operation leaves the range of words, and the number that
comes out has the digits of the index in the opposite order.  Divided by as many factors of the base
it is the van der Corput number of the index.

## Main definitions

* `RadicalInverse.reverse?`: the loop with each operation checked.
* `RadicalInverse.exactInverse`: the value that the loop leads to, before it is rounded.
* `RadicalInverse.vanDerCorput`: the number with the digits of an index behind the point.

## Main statements

* `RadicalInverse.moveDigit?_eq`: one more digit is moved without wrapping around.
* `RadicalInverse.reverse?_eq`: all digits are moved.
* `mem_primes`, `Halton.index_le`: bases and indices of the sampler are small enough.
* `RadicalInverse.reverse_exact`: what the loop returns, and that the sampler keeps to it.
-/

namespace Radiance

namespace RadicalInverse

variable {base index reversed : UInt64} {count : ℕ}

/-! ## Checked words -/

/-- The word of a number, if there is one. -/
def word? (n : ℤ) : Option UInt64 := if 0 ≤ n ∧ n < 2 ^ 64 then some (.ofNat n.toNat) else none

theorem word?_eq_some_iff {n : ℤ} {w : UInt64} : word? n = some w ↔ (w.toNat : ℤ) = n := by
  have hlt := w.toNat_lt
  rw [word?]
  split
  next h =>
    have htoNat : (UInt64.ofNat n.toNat).toNat = n.toNat :=
      UInt64.toNat_ofNat_of_lt' ((Int.toNat_lt h.1).2 h.2)
    rw [Option.some_inj, ← UInt64.toNat_inj, htoNat]
    omega
  next h =>
    simp only [reduceCtorEq, false_iff]
    omega

/-- The digits reversed so far with the last digit of the index behind them, if every operation on
the way has a word to return. -/
def moveDigit? (base index reversed : UInt64) : Option UInt64 := do
  let shifted ← word? (reversed.toNat * base.toNat)
  let whole ← word? ((index / base).toNat * base.toNat)
  let digit ← word? (index.toNat - whole.toNat)
  word? (shifted.toNat + digit.toNat)

/-- The loop of `reverse` with checked words. -/
def reverse? (base index reversed : UInt64) (count : ℕ) : Option (UInt64 × ℕ) :=
  if h : 1 < base ∧ 0 < index then
    (moveDigit? base index reversed).bind fun sum => reverse? base (index / base) sum (count + 1)
  else some (reversed, count)
  termination_by index.toNat
  decreasing_by
    rw [UInt64.toNat_div]
    exact Nat.div_lt_self (UInt64.lt_iff_toNat_lt.1 h.2) (UInt64.lt_iff_toNat_lt.1 h.1)

/-! ## The loop -/

/-- One more digit is moved without wrapping around. -/
theorem moveDigit?_eq
    (hfits : reversed.toNat * base.toNat + index.toNat % base.toNat < 2 ^ 64) :
    (reversed * base + (index - index / base * base)).toNat =
        reversed.toNat * base.toNat + index.toNat % base.toNat ∧
      moveDigit? base index reversed = some (reversed * base + (index - index / base * base)) := by
  have hlt := index.toNat_lt
  have hdiv : index.toNat / base.toNat * base.toNat + index.toNat % base.toNat = index.toNat :=
    Nat.div_add_mod' ..
  have hshifted : (reversed * base).toNat = reversed.toNat * base.toNat := by
    rw [UInt64.toNat_mul, Nat.mod_eq_of_lt (by omega)]
  have hwhole : (index / base * base).toNat = index.toNat / base.toNat * base.toNat := by
    rw [UInt64.toNat_mul, UInt64.toNat_div, Nat.mod_eq_of_lt (by omega)]
  have hdigit : (index - index / base * base).toNat = index.toNat % base.toNat := by
    rw [UInt64.toNat_sub_of_le _ _ (UInt64.le_iff_toNat_le.2 (by omega)), hwhole]
    omega
  have hsum : (reversed * base + (index - index / base * base)).toNat =
      reversed.toNat * base.toNat + index.toNat % base.toNat := by
    rw [UInt64.toNat_add, hshifted, hdigit, Nat.mod_eq_of_lt hfits]
  refine ⟨hsum, ?_⟩
  have hshifted? : word? (reversed.toNat * base.toNat) = some (reversed * base) :=
    word?_eq_some_iff.2 (by rw [hshifted, Int.natCast_mul])
  have hwhole? : word? ((index / base).toNat * base.toNat) = some (index / base * base) :=
    word?_eq_some_iff.2 (by rw [hwhole, UInt64.toNat_div, Int.natCast_mul])
  have hdigit? : word? (index.toNat - (index / base * base).toNat) =
      some (index - index / base * base) :=
    word?_eq_some_iff.2 (by rw [hdigit, hwhole]; omega)
  have hsum? : word? ((reversed * base).toNat + (index - index / base * base).toNat) =
      some (reversed * base + (index - index / base * base)) :=
    word?_eq_some_iff.2 (by rw [hsum, hshifted, hdigit, Int.natCast_add])
  rw [moveDigit?, hshifted?, Option.bind_eq_bind, Option.bind_some, hwhole?, Option.bind_some,
    hdigit?, Option.bind_some, hsum?]

/-- All digits are moved, one after the other, and the words that have been reached so far never
exceed the power of the base that belongs to them. -/
theorem reverse?_eq (hbase : 1 < base) (hreversed : reversed.toNat < base.toNat ^ count)
    (hfits : base.toNat ^ (count + (base.toNat.digits index.toNat).length) < 2 ^ 64) :
    reverse? base index reversed count = some (reverse base index reversed count) ∧
      (reverse base index reversed count).2 = count + (base.toNat.digits index.toNat).length ∧
      (reverse base index reversed count).1.toNat =
        reversed.toNat * base.toNat ^ (base.toNat.digits index.toNat).length +
          Nat.ofDigits base.toNat (base.toNat.digits index.toNat).reverse := by
  have hone : 1 < base.toNat := UInt64.lt_iff_toNat_lt.1 hbase
  fun_induction reverse base index reversed count with
  | case1 index reversed count h next ih =>
    have hpos : 0 < index.toNat := UInt64.lt_iff_toNat_lt.1 h.2
    have hmod : index.toNat % base.toNat < base.toNat := Nat.mod_lt _ (by omega)
    have hdigits : base.toNat.digits index.toNat =
        index.toNat % base.toNat :: base.toNat.digits next.toNat := by
      rw [UInt64.toNat_div, Nat.digits_def' hone hpos]
    rw [hdigits, List.length_cons] at hfits
    have hnext : reversed.toNat * base.toNat + index.toNat % base.toNat <
        base.toNat ^ (count + 1) := by
      rw [Nat.pow_succ]
      nlinarith
    have hpow : base.toNat ^ (count + 1) ≤
        base.toNat ^ (count + ((base.toNat.digits next.toNat).length + 1)) :=
      Nat.pow_le_pow_right (by omega) (by omega)
    have hword : reversed.toNat * base.toNat + index.toNat % base.toNat < 2 ^ 64 := by omega
    obtain ⟨hsum, hmove⟩ : (reversed * base + (index - next * base)).toNat =
          reversed.toNat * base.toNat + index.toNat % base.toNat ∧
        moveDigit? base index reversed = some (reversed * base + (index - next * base)) :=
      moveDigit?_eq hword
    obtain ⟨hrest, hcount, hvalue⟩ := ih (hsum ▸ hnext)
      (by rwa [Nat.add_assoc, Nat.add_comm 1])
    refine ⟨?_, ?_, ?_⟩
    · rw [reverse?, dif_pos h, hmove, Option.bind_some]
      exact hrest
    · rw [hcount, hdigits, List.length_cons]
      omega
    · rw [hvalue, hsum, hdigits, List.reverse_cons, Nat.ofDigits_append, Nat.ofDigits_singleton,
        List.length_reverse, List.length_cons, Nat.pow_succ]
      ring
  | case2 index reversed count h =>
    have hzero : index = 0 := by
      by_contra hne
      exact h ⟨hbase, UInt64.pos_iff_ne_zero.2 hne⟩
    subst hzero
    rw [reverse?, dif_neg h]
    simp

/-! ## Values -/

/-- The number whose digits behind the point are the digits of `n`, the last digit first. -/
def vanDerCorput (b n : ℕ) : ℚ := Nat.ofDigits (b : ℚ)⁻¹ (b.digits n) / b

/-- The value that the loop leads to, before it is rounded. -/
def exactInverse (base index : UInt64) : ℚ :=
  (reverse base index 0 0).1.toNat / base.toNat ^ (reverse base index 0 0).2

/-- The last digit comes first, and the others follow it. -/
theorem vanDerCorput_eq {b : ℕ} (hb : 1 < b) (n : ℕ) :
    vanDerCorput b n = ((n % b : ℕ) + vanDerCorput b (n / b)) / b := by
  rcases Nat.eq_zero_or_pos n with rfl | hn
  · simp [vanDerCorput, Nat.ofDigits]
  · rw [vanDerCorput, vanDerCorput, Nat.digits_def' hb hn, Nat.ofDigits]
    ring

theorem vanDerCorput_mem {b : ℕ} (hb : 1 < b) (n : ℕ) : vanDerCorput b n ∈ Set.Ico 0 1 := by
  have hpos : (0 : ℚ) < b := by exact_mod_cast hb.le
  induction n using Nat.strong_induction_on with
  | _ n ih =>
    rcases Nat.eq_zero_or_pos n with rfl | hn
    · simp [vanDerCorput, Nat.ofDigits]
    · obtain ⟨hzero, hone⟩ := ih (n / b) (Nat.div_lt_self hn hb)
      have hdigit : ((n % b : ℕ) : ℚ) + 1 ≤ b := by exact_mod_cast Nat.mod_lt n (by omega)
      rw [vanDerCorput_eq hb]
      exact ⟨by positivity, (div_lt_one hpos).2 (by linarith)⟩

/-- Mirrored digits stand as far behind the point as they stood before it. -/
theorem ofDigits_reverse_div {b : ℕ} (hb : b ≠ 0) (digits : List ℕ) :
    ((Nat.ofDigits b digits.reverse : ℕ) : ℚ) / b ^ digits.length =
      Nat.ofDigits (b : ℚ)⁻¹ digits / b := by
  have hb' : (b : ℚ) ≠ 0 := by exact_mod_cast hb
  induction digits with
  | nil => simp [Nat.ofDigits]
  | cons d digits ih =>
    rw [List.reverse_cons, Nat.ofDigits_append, Nat.ofDigits_singleton, List.length_reverse,
      List.length_cons, Nat.ofDigits, pow_succ, ← div_div, Nat.cast_add, add_div, ih]
    push_cast
    rw [mul_div_cancel_left₀ _ (pow_ne_zero _ hb')]
    ring

/-- What the loop does with an index: its digits come out in the opposite order, and no word wraps
around on the way. -/
structure ReversesExactly (base index : UInt64) : Prop where
  checked_eq : reverse? base index 0 0 = some (reverse base index 0 0)
  count_eq : (reverse base index 0 0).2 = (base.toNat.digits index.toNat).length
  reversed_eq : (reverse base index 0 0).1.toNat =
    Nat.ofDigits base.toNat (base.toNat.digits index.toNat).reverse
  reversed_lt : (reverse base index 0 0).1.toNat <
    base.toNat ^ (base.toNat.digits index.toNat).length
  inverse_eq : exactInverse base index = vanDerCorput base.toNat index.toNat
  inverse_mem : exactInverse base index ∈ Set.Ico 0 1

theorem reversesExactly (hbase : 2 ≤ base) (hfits : base.toNat * index.toNat < 2 ^ 64) :
    ReversesExactly base index := by
  have htwo : 2 ≤ base.toNat := UInt64.le_iff_toNat_le.1 hbase
  have hpow : base.toNat ^ (0 + (base.toNat.digits index.toNat).length) < 2 ^ 64 := by
    rw [Nat.zero_add]
    by_cases hindex : index.toNat = 0
    · simp [hindex]
    · exact (Nat.base_pow_length_digits_le _ _ htwo hindex).trans_lt hfits
  have hzero : (0 : UInt64).toNat < base.toNat ^ 0 := Nat.one_pos
  obtain ⟨hchecked, hcount, hvalue⟩ := reverse?_eq (UInt64.lt_iff_toNat_lt.2 htwo) hzero hpow
  rw [Nat.zero_add] at hcount
  rw [UInt64.toNat_zero, Nat.zero_mul, Nat.zero_add] at hvalue
  have hlt : (reverse base index 0 0).1.toNat <
      base.toNat ^ (base.toNat.digits index.toNat).length := by
    rw [hvalue, ← List.length_reverse]
    exact Nat.ofDigits_lt_base_pow_length htwo fun d hd =>
      Nat.digits_lt_base htwo (List.mem_reverse.1 hd)
  have hinverse : exactInverse base index = vanDerCorput base.toNat index.toNat := by
    rw [exactInverse, hvalue, hcount, ofDigits_reverse_div (by omega), vanDerCorput]
  exact ⟨hchecked, hcount, hvalue, hlt, hinverse, hinverse ▸ vanDerCorput_mem htwo _⟩

example : exactInverse 3 5 = 7 / 9 := by cbv

end RadicalInverse

/-! ## Bases and indices of the sampler -/

theorem mem_primes {base : UInt32} (h : base ∈ primes) : 2 ≤ base ∧ base ≤ 1619 := by
  simp only [primes, List.mem_toArray, List.mem_map, List.mem_filter, List.mem_range] at h
  obtain ⟨n, ⟨hlt, hprime⟩, rfl⟩ := h
  have htwo := (isPrime_iff.1 hprime).two_le
  have htoNat : (UInt32.ofNat n).toNat = n := UInt32.toNat_ofNat_of_lt' (hlt.trans (by decide))
  rw [UInt32.le_iff_toNat_le, UInt32.le_iff_toNat_le, htoNat]
  exact ⟨htwo, Nat.le_of_lt_succ hlt⟩

theorem getD_primes_mem (k : ℕ) : primes.getD (k % primeCount) 2 ∈ primes := by
  have hlt : k % primeCount < primes.size := size_primes.symm ▸ Nat.mod_lt _ (by decide)
  rw [Array.getD_eq_getD_getElem?, Array.getElem?_eq_getElem hlt]
  exact Array.getElem_mem hlt

/-- What all operations keep can be added to a set of states. -/
theorem Sampler.Memoryless.and {σ α : Type} [Sampler σ α] {states P : σ → Prop}
    (h : Memoryless states) (of_draw : ∀ s, P s → P (draw s).2)
    (of_seedPixel : ∀ s p i, P s → P (seedPixel s p i)) (of_seed : ∀ s i, P s → P (seed s i)) :
    Memoryless fun s => states s ∧ P s where
  of_draw hs := ⟨h.of_draw hs.1, of_draw _ hs.2⟩
  of_seedPixel p i hs := ⟨h.of_seedPixel p i hs.1, of_seedPixel _ p i hs.2⟩
  of_seed i hs := ⟨h.of_seed i hs.1, of_seed _ i hs.2⟩
  count_eq hs hs' := h.count_eq hs.1 hs'.1
  start_eq p i hs hs' := h.start_eq p i hs.1 hs'.1

namespace Halton

theorem next_index (s : Halton) : s.next.2.index = s.index := by
  simp only [Halton.next]
  split <;> rfl

/-- The number of a sample and one more, or one. -/
theorem index_le {s : Halton} {count : UInt32} {seed : UInt64} {events : List Sampler.Event}
    (hs : s ∈ Sampler.run events [ofSeed count seed]) : s.index.toNat ≤ 2 ^ 32 := by
  have hkept : Sampler.Memoryless fun s : Halton =>
      s.States count seed ∧ s.index.toNat ≤ 2 ^ 32 := by
    refine (memoryless count seed).and (fun s hs => ?_) (fun s p i _ => ?_) fun s i _ => ?_
    · exact s.next_index.symm ▸ hs
    · change (i.toUInt64 + 1).toNat ≤ 2 ^ 32
      have hlt := i.toNat_lt
      rw [UInt64.toNat_add, UInt32.toNat_toUInt64, UInt64.toNat_one]
      omega
    · change (1 : UInt64).toNat ≤ 2 ^ 32
      decide
  refine (hkept.run events (fun t ht => ?_) s hs).2
  obtain rfl := List.mem_singleton.1 ht
  exact ⟨states_ofSeed count seed, by change (1 : UInt64).toNat ≤ 2 ^ 32; decide⟩

end Halton

/-- The loop reverses the digits of every index whose product with the base is a word, and these are
all that the sampler asks for in any dimension after any history. -/
theorem RadicalInverse.reverse_exact :
    (∀ base index : UInt64, 2 ≤ base → base.toNat * index.toNat < 2 ^ 64 →
      ReversesExactly base index) ∧
    ∀ count seed events, ∀ s ∈ Sampler.run events [Halton.ofSeed count seed], ∀ k,
      2 ≤ primes.getD (k % primeCount) 2 ∧ primes.getD (k % primeCount) 2 ≤ 1619 ∧
        s.index.toNat ≤ 2 ^ 32 ∧
        ReversesExactly (primes.getD (k % primeCount) 2).toUInt64 s.index := by
  refine ⟨fun _ _ hbase hfits => reversesExactly hbase hfits, fun count seed events s hs k => ?_⟩
  obtain ⟨htwo, hle⟩ := mem_primes (getD_primes_mem k)
  have hindex := Halton.index_le hs
  refine ⟨htwo, hle, hindex, reversesExactly ?_ ?_⟩
  · rw [UInt64.le_iff_toNat_le, UInt32.toNat_toUInt64]
    exact UInt32.le_iff_toNat_le.1 htwo
  · rw [UInt32.toNat_toUInt64]
    exact (Nat.mul_le_mul (UInt32.le_iff_toNat_le.1 hle) hindex).trans_lt (by decide)

/-- A single index, and the last sample of a pixel in the dimension with the largest base. -/
theorem RadicalInverse.reverse_exact_largest :
    ReversesExactly 3 5 ∧
    ∃ s, s ∈ Sampler.run [.call 0 (.seedPixel ⟨3, 1⟩ 0xffffffff), .call 0 (.draw .two)]
        [Halton.ofSeed 4 9] ∧
      ReversesExactly (primes.getD (255 % primeCount) 2).toUInt64 s.index := by
  obtain ⟨hsmall, hsampler⟩ := reverse_exact
  obtain ⟨s, hs⟩ : ∃ s, (Sampler.run [.call 0 (.seedPixel ⟨3, 1⟩ 0xffffffff), .call 0 (.draw .two)]
    [Halton.ofSeed 4 9])[0]? = some s := ⟨_, rfl⟩
  have hmem := List.mem_of_getElem? hs
  exact ⟨hsmall 3 5 (by decide) (by decide), s, hmem, (hsampler 4 9 _ s hmem 255).2.2.2⟩

end Radiance
