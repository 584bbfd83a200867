import Radiance.Proofs.Random.Digits

/-!
# Radical inverses are stratified

The leading digits of a radical inverse are the last digits of its index in the opposite order.  Any
run of `b ^ m` consecutive indices goes through all combinations of `m` last digits, each of them
once, so the radical inverses in base `b` fall into the `b ^ m` equal parts of the unit interval,
one into each.

## Main definitions

* `RadicalInverse.mirror`: the last digits of a number in the opposite order.

## Main statements

* `RadicalInverse.mirror_eq_iff`: indices with the same last digits.
* `RadicalInverse.mem_part_iff`: which part of the unit interval a van der Corput number falls into.
* `RadicalInverse.exactInverse_stratified`: one value in each part.
-/

namespace Radiance.RadicalInverse

/-- The last `m` digits of a number in the opposite order. -/
def mirror (b : ℕ) : ℕ → ℕ → ℕ
  | 0, _ => 0
  | m + 1, n => b ^ m * (n % b) + mirror b m (n / b)

section

variable {b : ℕ}

theorem mirror_lt (hb : 0 < b) (m n : ℕ) : mirror b m n < b ^ m := by
  induction m generalizing n with
  | zero => exact Nat.one_pos
  | succ m ih =>
    have hdigit : n % b + 1 ≤ b := Nat.mod_lt n hb
    calc mirror b (m + 1) n < b ^ m * (n % b) + b ^ m := Nat.add_lt_add_left (ih _) _
      _ = b ^ m * (n % b + 1) := (Nat.mul_succ ..).symm
      _ ≤ b ^ m * b := Nat.mul_le_mul_left _ hdigit

theorem mul_add_eq_iff {k d d' r r' : ℕ} (hr : r < k) (hr' : r' < k) :
    k * d + r = k * d' + r' ↔ d = d' ∧ r = r' := by
  have hpos : 0 < k := Nat.zero_lt_of_lt hr
  have hdiv {d r : ℕ} (hr : r < k) : (k * d + r) / k = d := by
    rw [Nat.mul_add_div hpos, Nat.div_eq_of_lt hr, Nat.add_zero]
  constructor
  · intro h
    obtain rfl : d = d' := by rw [← hdiv (d := d) hr, h, hdiv hr']
    exact ⟨rfl, Nat.add_left_cancel h⟩
  · rintro ⟨rfl, rfl⟩
    rfl

/-- The digits in the opposite order determine the last digits, and nothing more. -/
theorem mirror_eq_iff (hb : 0 < b) (m : ℕ) {n n' : ℕ} :
    mirror b m n = mirror b m n' ↔ n ≡ n' [MOD b ^ m] := by
  induction m generalizing n n' with
  | zero => simp [mirror, Nat.modEq_one]
  | succ m ih =>
    have hmod (n : ℕ) : n % b ^ (m + 1) = b * (n / b % b ^ m) + n % b := by
      rw [Nat.pow_succ', Nat.mod_mul, Nat.add_comm]
    rw [mirror, mirror, mul_add_eq_iff (mirror_lt hb m _) (mirror_lt hb m _), ih, Nat.ModEq,
      Nat.ModEq, hmod, hmod, mul_add_eq_iff (Nat.mod_lt _ hb) (Nat.mod_lt _ hb), and_comm]

/-- No combination of last digits comes up twice in a window. -/
theorem mirror_injOn (hb : 0 < b) (m i : ℕ) :
    Set.InjOn (mirror b m) (Finset.Ico i (i + b ^ m)) := by
  intro n hn n' hn' h
  have hmod := (mirror_eq_iff hb m).1 h
  rw [Finset.mem_coe, Finset.mem_Ico] at hn hn'
  exact hmod.eq_of_abs_lt (by rw [abs_lt]; omega)

/-- What a van der Corput number has behind its first digits belongs to the digits that are left. -/
theorem vanDerCorput_mul_pow (hb : 1 < b) (m n : ℕ) :
    vanDerCorput b n * b ^ m = mirror b m n + vanDerCorput b (n / b ^ m) := by
  have hpos : (b : ℚ) ≠ 0 := by exact_mod_cast (Nat.zero_lt_of_lt hb).ne'
  induction m generalizing n with
  | zero => simp [mirror]
  | succ m ih =>
    rw [vanDerCorput_eq hb, mirror, pow_succ, Nat.pow_succ', ← Nat.div_div_eq_div_mul]
    have hrest := ih (n / b)
    push_cast
    field_simp
    linarith

theorem mem_part_iff (hb : 1 < b) (m n j : ℕ) :
    vanDerCorput b n ∈ Set.Ico ((j : ℚ) / b ^ m) ((j + 1) / b ^ m) ↔ mirror b m n = j := by
  have hpos : (0 : ℚ) < b ^ m := by positivity
  obtain ⟨hzero, hone⟩ := vanDerCorput_mem hb (n / b ^ m)
  rw [Set.mem_Ico, div_le_iff₀ hpos, lt_div_iff₀ hpos, vanDerCorput_mul_pow hb]
  constructor
  · rintro ⟨hle, hlt⟩
    have hlo : (j : ℚ) < mirror b m n + 1 := by linarith
    have hhi : (mirror b m n : ℚ) < j + 1 := by linarith
    have : j < mirror b m n + 1 := by exact_mod_cast hlo
    have : mirror b m n < j + 1 := by exact_mod_cast hhi
    omega
  · rintro rfl
    exact ⟨by linarith, by linarith⟩

theorem vanDerCorput_injective (hb : 1 < b) : Function.Injective (vanDerCorput b) := by
  intro n n' h
  -- With enough digits a number is determined by its last ones.
  let m := max n n'
  have hmirror : mirror b m n' = mirror b m n :=
    (mem_part_iff hb m n' _).1 (h ▸ (mem_part_iff hb m n _).2 rfl)
  have hlt {k : ℕ} (hk : k ≤ m) : k < b ^ m := hk.trans_lt (Nat.lt_pow_self hb)
  exact ((mirror_eq_iff (Nat.zero_lt_of_lt hb) m).1 hmirror.symm).eq_of_lt_of_lt
    (hlt (le_max_left ..)) (hlt (le_max_right ..))

/-- A window of `b ^ m` numbers has all combinations of `m` last digits. -/
theorem exists_mirror_eq (hb : 0 < b) (m i : ℕ) {j : ℕ} (hj : j < b ^ m) :
    ∃ n ∈ Finset.Ico i (i + b ^ m), mirror b m n = j := by
  have hmaps : Set.MapsTo (mirror b m) (Finset.Ico i (i + b ^ m)) (Finset.range (b ^ m)) :=
    fun n _ => Finset.mem_coe.2 (Finset.mem_range.2 (mirror_lt hb m n))
  have hcard : (Finset.range (b ^ m)).card ≤ (Finset.Ico i (i + b ^ m)).card := by simp
  obtain ⟨n, hn, hmirror⟩ := Finset.surjOn_of_injOn_of_card_le _ hmaps
    (mirror_injOn hb m i) hcard (Finset.mem_coe.2 (Finset.mem_range.2 hj))
  exact ⟨n, hn, hmirror⟩

end

/-- Of any `b ^ m` consecutive indices in base `b`, exactly one has its radical inverse in each of
the `b ^ m` equal parts of the unit interval, and different indices have different radical
inverses. -/
theorem exactInverse_stratified {base : UInt64} (hbase : 2 ≤ base) :
    (∀ m i : ℕ, (∀ n ∈ Finset.Ico i (i + base.toNat ^ m), base.toNat * n < 2 ^ 64) →
      ∀ j < base.toNat ^ m, ∃! index : UInt64,
        index.toNat ∈ Finset.Ico i (i + base.toNat ^ m) ∧
        exactInverse base index ∈
          Set.Ico ((j : ℚ) / base.toNat ^ m) ((j + 1) / base.toNat ^ m)) ∧
    Set.InjOn (exactInverse base) {index | base.toNat * index.toNat < 2 ^ 64} := by
  have htwo : 1 < base.toNat := UInt64.le_iff_toNat_le.1 hbase
  have hpos : 0 < base.toNat := Nat.zero_lt_of_lt htwo
  refine ⟨fun m i hfits j hj => ?_, fun index hindex index' hindex' h => ?_⟩
  · have hpart {index : UInt64} (hindex : index.toNat ∈ Finset.Ico i (i + base.toNat ^ m)) :
        exactInverse base index ∈ Set.Ico ((j : ℚ) / base.toNat ^ m) ((j + 1) / base.toNat ^ m) ↔
          mirror base.toNat m index.toNat = j := by
      rw [(reversesExactly hbase (hfits _ hindex)).inverse_eq, mem_part_iff htwo]
    obtain ⟨n, hn, hmirror⟩ := exists_mirror_eq hpos m i hj
    have hword : (UInt64.ofNat n).toNat = n := by
      refine UInt64.toNat_ofNat_of_lt' ((Nat.le_mul_of_pos_left n hpos).trans_lt (hfits n hn))
    have hindex : (UInt64.ofNat n).toNat ∈ Finset.Ico i (i + base.toNat ^ m) := by rwa [hword]
    refine ⟨.ofNat n, ⟨hindex, (hpart hindex).2 (by rwa [hword])⟩, ?_⟩
    rintro index' ⟨hindex', hmem⟩
    rw [← UInt64.toNat_inj, hword]
    exact mirror_injOn hpos m i hindex' hn (((hpart hindex').1 hmem).trans hmirror.symm)
  · rw [(reversesExactly hbase hindex).inverse_eq, (reversesExactly hbase hindex').inverse_eq] at h
    exact UInt64.toNat_inj.1 (vanDerCorput_injective htwo h)

/-- A window of nine indices in which a third digit comes up. -/
theorem exactInverse_stratified_nine :
    (∃! index : UInt64, index.toNat ∈ Finset.Ico 7 16 ∧
      exactInverse 3 index ∈ Set.Ico (4 / 9) (5 / 9)) ∧
    exactInverse 3 7 ≠ exactInverse 3 13 := by
  obtain ⟨hpart, hinjective⟩ := @exactInverse_stratified 3 (by decide)
  constructor
  · have hfive : (((4 : ℕ) : ℚ) + 1) / 3 ^ 2 = 5 / 9 := by norm_num
    have hfour : ((4 : ℕ) : ℚ) / 3 ^ 2 = 4 / 9 := by norm_num
    rw [← hfour, ← hfive]
    refine hpart 2 7 (fun n hn => ?_) 4 (by decide)
    have hlt : n < 16 := (Finset.mem_Ico.1 hn).2
    change 3 * n < 2 ^ 64
    omega
  · intro h
    have : (7 : UInt64) = 13 := hinjective (by decide) (by decide) h
    revert this
    decide

end Radiance.RadicalInverse
