import Radiance.Proofs.Scalar.Neutral

/-!
# The rational numbers behind binary32

A finite number of 32 bits is a whole number times a power of two.  Sums and differences are
rounded, but rounding never carries a result across zero, and small whole numbers are not rounded at
all.  So the fractional part of a number is never negative.

## Main definitions

* `Binary32.value`: the rational number that a finite number stands for.
* `Binary32.IsNonneg`: the numbers that are not below zero.
* `Binary32.StandsFor`: a number is finite and stands for a rational number.
* `Binary32.IsWhole`: a number stands for a whole number.

## Main statements

* `Binary32.unpacked_pack`: packing loses nothing of a number that has the right form.
* `Binary32.isNonneg_sub`: the sign of a difference.
* `Binary32.standsFor_normalize`: whole numbers of up to 24 digits are exact.
* `Binary32.IsWhole.add`, `Binary32.IsWhole.sub`, `Binary32.IsWhole.half`: arithmetic with them.
* `Binary32.value_floor`: the floor of a number is the floor of its value.
* `Binary32.sub_floor`: fractional parts are undefined or not negative.
-/

namespace Radiance.Binary32

open Float.Model (Format UnpackedFloat totalExponent)
open Float.Model.UnpackedFloat (Sign packComponents unpackSign unpackExponent unpackMantissa
  decreaseExponent roundWithAccuracy)

/-! ## Packing and unpacking -/

section

variable {m : Nat} {e : Int} {s : Sign}

theorem unpackSign_packComponents (s : Sign) (exponent : BitVec 8) (mantissa : BitVec 23) :
    Sign.ofBitVec (unpackSign (packComponents .binary32 s exponent mantissa)) = s := by
  have hsign : unpackSign (packComponents .binary32 s exponent mantissa) = s.toBitVec := by
    ext i hi
    obtain rfl : i = 0 := by omega
    simp only [unpackSign, packComponents, BitVec.extractLsb, BitVec.getElem_cast,
      BitVec.getElem_extractLsb', BitVec.getLsbD_append]
    simp
  rw [hsign]
  cases s <;> rfl

/-- A number with both parts of its exponent and mantissa in range is read back. -/
theorem Canonical.unpack_pack (h : Canonical m e) (hm : 0 < m) :
    UnpackedFloat.unpack .binary32 (UnpackedFloat.pack .binary32 (.finite s m e hm)) =
      .finite s m e hm := by
  have hlt := h.mantissa_lt
  have hlo := h.le_exponent
  have hhi := h.exponent_le
  have hbias : ((Format.binary32.exponentBias : Nat) : Int) = 127 := rfl
  by_cases hfull : 2 ^ 23 ≤ m
  · rw [h.pack_of_full hm hfull]
    have hexp : (BitVec.ofNat 8 (e + 150).toNat).toNat = (e + 150).toNat := by
      rw [BitVec.toNat_ofNat]
      omega
    have hman : (1#1 ++ BitVec.ofNat 23 m).toNat = m := by
      rw [toNat_one_append, BitVec.toNat_ofNat]
      omega
    have htop : BitVec.ofNat 8 (e + 150).toNat ≠ -1#8 := fun heq => by
      have := congrArg BitVec.toNat heq
      rw [hexp] at this
      change _ = 255 at this
      omega
    have hbottom : BitVec.ofNat 8 (e + 150).toNat ≠ 0#8 := fun heq => by
      have := congrArg BitVec.toNat heq
      rw [hexp] at this
      change _ = 0 at this
      omega
    have hexponent : ((BitVec.ofNat 8 (e + 150).toNat).toNat : Int) -
        (Format.binary32.exponentBias + (23 : Nat)) = e := by
      rw [hexp, hbias]
      omega
    simp only [UnpackedFloat.unpack, Float.Model.UnpackedFloat.unpackExponent_packComponents,
      Float.Model.UnpackedFloat.unpackMantissa_packComponents, unpackSign_packComponents]
    rw [if_neg htop, if_neg hbottom]
    simp only [hman, hexponent]
  · rw [h.pack_of_not_full hm hfull]
    obtain rfl : e = -149 := h.full_or_least.resolve_left hfull
    have hman : (BitVec.ofNat 23 m).toNat = m := by
      rw [BitVec.toNat_ofNat]
      omega
    have hne : BitVec.ofNat 23 m ≠ 0#23 := fun heq => by
      have := congrArg BitVec.toNat heq
      rw [hman] at this
      exact hm.ne' this
    simp only [UnpackedFloat.unpack, Float.Model.UnpackedFloat.unpackExponent_packComponents,
      Float.Model.UnpackedFloat.unpackMantissa_packComponents, unpackSign_packComponents]
    rw [if_neg (by decide), if_pos trivial, dif_neg hne]
    simp only [hman]
    rfl

end

/-- The numbers that packing keeps. -/
def IsCanonical (u : UnpackedFloat) : Prop := ∀ s m e hm, u = .finite s m e hm → Canonical m e

theorem IsCanonical.unpack_pack {u : UnpackedFloat} (h : IsCanonical u) :
    UnpackedFloat.unpack .binary32 (UnpackedFloat.pack .binary32 u) = u := by
  cases u with
  | notANumber => rfl
  | infinity s => cases s <;> rfl
  | zero s => cases s <;> rfl
  | finite s m e hm => exact (h s m e hm rfl).unpack_pack hm

theorem isCanonical_zero (s : Sign) : IsCanonical (.zero s) := nofun

theorem isCanonical_unpacked (x : Float32) : IsCanonical (unpacked x) :=
  fun _ _ _ _ hx => canonical_unpacked hx

theorem unpacked_ofModel (u : UnpackedFloat) :
    unpacked (.ofModel (.pack u)) =
      UnpackedFloat.unpack .binary32 (UnpackedFloat.pack .binary32 u) := rfl

theorem IsCanonical.unpacked_ofModel {u : UnpackedFloat} (h : IsCanonical u) :
    unpacked (.ofModel (.pack u)) = u := h.unpack_pack

theorem IsCanonical.unpacked_ofBits {u : UnpackedFloat} (h : IsCanonical u) :
    unpacked (Float32.ofBits ⟨UnpackedFloat.pack .binary32 u⟩) = u := by
  change UnpackedFloat.unpack .binary32 (UnpackedFloat.pack .binary32
    (UnpackedFloat.unpack .binary32 (UnpackedFloat.pack .binary32 u))) = u
  rw [h.unpack_pack, h.unpack_pack]

/-! ## Numbers that are not below zero -/

/-- Zero of either sign, and the positive numbers. -/
def IsNonneg : UnpackedFloat → Prop
  | .notANumber => False
  | .infinity s => s = .positive
  | .zero _ => True
  | .finite s _ _ _ => s = .positive

theorem zero_le_iff (x : Float32) : 0 ≤ x ↔ IsNonneg (unpacked x) := by
  have hzero : unpacked 0 = .zero .positive := rfl
  rw [float_le_iff, le_iff, hzero]
  cases unpacked x with
  | notANumber => simp [UnpackedFloat.isNaN, IsNonneg]
  | infinity s => cases s <;> simp [UnpackedFloat.isNaN, IsNonneg, place, Precedes]
  | zero s => simp [UnpackedFloat.isNaN, IsNonneg, place, Precedes]
  | finite s => cases s <;> simp [UnpackedFloat.isNaN, IsNonneg, place, Precedes]

theorem isNonneg_unpack_packComponents {exponent : BitVec 8} (h : exponent ≠ -1#8)
    (mantissa : BitVec 23) :
    IsNonneg (UnpackedFloat.unpack .binary32
      (packComponents .binary32 .positive exponent mantissa)) := by
  simp only [UnpackedFloat.unpack, Float.Model.UnpackedFloat.unpackExponent_packComponents,
    Float.Model.UnpackedFloat.unpackMantissa_packComponents, unpackSign_packComponents]
  rw [if_neg h]
  split
  · split
    · trivial
    · rfl
  · rfl

/-- Packing keeps the sign, even of a number that is too large for its exponent. -/
theorem isNonneg_unpack_pack {u : UnpackedFloat} (h : IsNonneg u) :
    IsNonneg (UnpackedFloat.unpack .binary32 (UnpackedFloat.pack .binary32 u)) := by
  cases u with
  | notANumber => exact h.elim
  | infinity s =>
    obtain rfl : s = .positive := h
    rfl
  | zero s => cases s <;> trivial
  | finite s m e hm =>
    obtain rfl : s = .positive := h
    simp only [UnpackedFloat.pack]
    split
    · rfl
    next hsmall =>
      split
      · refine isNonneg_unpack_packComponents (fun heq => hsmall ?_) _
        have htoNat := congrArg BitVec.toNat heq
        rw [BitVec.toNat_ofNat] at htoNat
        change _ = 255 at htoNat
        change 256 ≤ _
        have := Nat.mod_le (e + Format.binary32.exponentBias + (23 : Nat)).toNat (2 ^ 8)
        omega
      · exact isNonneg_unpack_packComponents (by decide) _

theorem isNonneg_roundWithAccuracy (m : Nat) (e : Int)
    (accuracy : Float.Model.UnpackedFloat.Accuracy) :
    IsNonneg (roundWithAccuracy .binary32 .positive m e accuracy) := by
  simp only [roundWithAccuracy]
  split
  · trivial
  · rfl

theorem isNonneg_normalize {m : Int} (h : 0 ≤ m) (e : Int) (zeroSign : Sign) :
    IsNonneg (UnpackedFloat.normalize .binary32 m e zeroSign) := by
  rw [UnpackedFloat.normalize]
  split
  next hlt => exact absurd (Int.compare_eq_lt.1 hlt) h.not_gt
  next => trivial
  next => exact isNonneg_roundWithAccuracy ..

/-! ## Values -/

/-- The rational number that a finite number stands for. -/
def value : UnpackedFloat → ℚ
  | .finite s m e _ => s.apply m * 2 ^ e
  | _ => 0

@[simp] theorem value_zero (s : Sign) : value (.zero s) = 0 := rfl

theorem value_finite (s : Sign) {m : Nat} (e : Int) (hm : 0 < m) :
    value (.finite s m e hm) = s.apply m * 2 ^ e := rfl

/-! ### Order -/

theorem Canonical.mul_lt {m n : Nat} {d e : Int} (hm : Canonical m d) (hn : Canonical n e)
    (h : d < e ∨ d = e ∧ m < n) : (m : ℚ) * 2 ^ d < n * 2 ^ e := by
  have hpow (e : Int) : (0 : ℚ) < 2 ^ e := zpow_pos two_pos e
  obtain hlt | ⟨rfl, hlt⟩ := h
  · -- Below the larger exponent a mantissa is one binary digit short.
    have hfull : 2 ^ 23 ≤ n := hn.full_or_least.resolve_right (by have := hm.le_exponent; omega)
    calc (m : ℚ) * 2 ^ d < 2 ^ 24 * 2 ^ d := by
          exact mul_lt_mul_of_pos_right (by exact_mod_cast hm.mantissa_lt) (hpow d)
      _ = 2 ^ 23 * 2 ^ (d + 1) := by rw [zpow_add₀ two_ne_zero]; ring
      _ ≤ n * 2 ^ e :=
          mul_le_mul (by exact_mod_cast hfull) (zpow_le_zpow_right₀ one_le_two hlt) (hpow _).le
            (Nat.cast_nonneg n)
  · exact mul_lt_mul_of_pos_right (by exact_mod_cast hlt) (hpow d)

/-- The order of places is the order of values. -/
theorem value_lt_of_precedes {a b : UnpackedFloat} (ha : IsCanonical a) (hb : IsCanonical b)
    (hafinite : a.isFinite) (hbfinite : b.isFinite) (h : Precedes (place a) (place b)) :
    value a < value b := by
  have hpos {m : Nat} (hm : 0 < m) (e : Int) : (0 : ℚ) < m * 2 ^ e :=
    mul_pos (by exact_mod_cast hm) (zpow_pos two_pos e)
  cases a with
  | notANumber | infinity s => cases hafinite
  | zero s =>
    cases b with
    | notANumber | infinity t => cases hbfinite
    | zero t => simp [place, Precedes] at h
    | finite t n e hn =>
      cases t with
      | negative => simp [place, Precedes] at h
      | positive => exact hpos hn e
  | finite s m d hm =>
    have hvalue : value (.finite .negative m d hm) = -(m * 2 ^ d) := by
      simp [value_finite, Sign.apply]
    cases b with
    | notANumber | infinity t => cases hbfinite
    | zero t =>
      cases s with
      | negative => exact hvalue.trans_lt (neg_lt_zero.2 (hpos hm d))
      | positive => simp [place, Precedes] at h
    | finite t n e hn =>
      have hvalue' : value (.finite .negative n e hn) = -(n * 2 ^ e) := by
        simp [value_finite, Sign.apply]
      have hmcanonical := ha s m d hm rfl
      have hncanonical := hb t n e hn rfl
      cases s <;> cases t
      · rw [hvalue, hvalue', neg_lt_neg_iff]
        refine hncanonical.mul_lt hmcanonical ?_
        simp only [place, Precedes] at h
        omega
      · exact (hvalue.trans_lt (neg_lt_zero.2 (hpos hm d))).trans (hpos hn e)
      · simp [place, Precedes] at h
      · refine hmcanonical.mul_lt hncanonical ?_
        simp only [place, Precedes] at h
        omega

theorem value_eq_of_place_eq {a b : UnpackedFloat} (ha : a.isFinite) (hb : b.isFinite)
    (h : place a = place b) : value a = value b := by
  cases a with
  | notANumber | infinity s => cases ha
  | zero s =>
    cases b with
    | notANumber | infinity t => cases hb
    | zero t => rfl
    | finite t n e hn => cases t <;> simp [place] at h
  | finite s m d hm =>
    cases b with
    | notANumber | infinity t => cases hb
    | zero t => cases s <;> simp [place] at h
    | finite t n e hn =>
      cases s <;> cases t <;> simp only [place, Prod.mk.injEq] at h
      · obtain ⟨-, hexponent, hmantissa⟩ := h
        obtain rfl : d = e := by omega
        obtain rfl : m = n := by omega
        rfl
      · omega
      · omega
      · obtain ⟨-, rfl, hmantissa⟩ := h
        obtain rfl : m = n := by omega
        rfl

/-- Finite numbers are ordered as their values. -/
theorem lt_iff_value_lt {x y : Float32} (hx : (unpacked x).isFinite) (hy : (unpacked y).isFinite) :
    x < y ↔ value (unpacked x) < value (unpacked y) := by
  have hdefined {u : UnpackedFloat} (hu : u.isFinite) : u.isNaN = false := by
    cases u <;> first | rfl | cases hu
  rw [float_lt_iff, lt_iff]
  constructor
  · rintro ⟨-, -, h⟩
    exact value_lt_of_precedes (isCanonical_unpacked x) (isCanonical_unpacked y) hx hy h
  · intro h
    refine ⟨hdefined hx, hdefined hy, ?_⟩
    obtain hlt | heq | hgt : Precedes (place (unpacked x)) (place (unpacked y)) ∨
        place (unpacked x) = place (unpacked y) ∨
          Precedes (place (unpacked y)) (place (unpacked x)) := by
      simp only [Precedes, Prod.ext_iff]
      omega
    · exact hlt
    · exact absurd (value_eq_of_place_eq hx hy heq) h.ne
    · exact absurd h (value_lt_of_precedes (isCanonical_unpacked y) (isCanonical_unpacked x) hy hx
        hgt).not_gt

theorem le_iff_value_le {x y : Float32} (hx : (unpacked x).isFinite) (hy : (unpacked y).isFinite) :
    x ≤ y ↔ value (unpacked x) ≤ value (unpacked y) := by
  have hdefined {u : Float32} (hu : (unpacked u).isFinite) : Scalar.isNaN u = false := by
    rw [isNaN_eq]
    revert hu
    cases unpacked u <;> simp [UnpackedFloat.isFinite, UnpackedFloat.isNaN]
  rw [Scalar.IsOrdered.le_iff, lt_iff_value_lt hy hx, not_lt]
  exact ⟨fun h => h.2.2, fun h => ⟨hdefined hx, hdefined hy, h⟩⟩

/-! ### Signs of differences -/

/-- A longer mantissa under a smaller exponent stands for the same number. -/
theorem decreaseExponent_value (s : Sign) (m : Nat) {e target : Int} (h : target ≤ e) :
    ((s.apply (decreaseExponent m e target).1 : ℤ) : ℚ) * 2 ^ target = s.apply m * 2 ^ e := by
  have hmantissa : (decreaseExponent m e target).1 = m * 2 ^ (e - target).toNat :=
    Nat.shiftLeft_eq ..
  have hsign : (s.apply ((m * 2 ^ (e - target).toNat : ℕ) : ℤ) : ℤ) =
      s.apply m * 2 ^ (e - target).toNat := by
    cases s <;> simp [Sign.apply]
  have hexponent : e = (e - target).toNat + target := by omega
  rw [hmantissa, hsign, Int.cast_mul, Int.cast_pow, Int.cast_ofNat, mul_assoc, ← zpow_natCast,
    ← zpow_add₀ two_ne_zero, ← hexponent]

/-- A difference of finite numbers in order is not below zero. -/
theorem isNonneg_sub {a b : UnpackedFloat} (ha : a.isFinite) (hb : b.isFinite)
    (h : value b ≤ value a) : IsNonneg (UnpackedFloat.sub .binary32 a b) := by
  have hpow (e : Int) : (0 : ℚ) < 2 ^ e := zpow_pos two_pos e
  cases a with
  | notANumber => cases ha
  | infinity s => cases ha
  | zero s =>
    cases b with
    | notANumber => cases hb
    | infinity t => cases hb
    | zero t =>
      simp only [UnpackedFloat.sub]
      split <;> trivial
    | finite t n d hn =>
      cases t with
      | negative => rfl
      | positive =>
        have hpos : (0 : ℚ) < n * 2 ^ d := mul_pos (by exact_mod_cast hn) (hpow d)
        exact absurd h hpos.not_ge
  | finite s m e hm =>
    cases b with
    | notANumber => cases hb
    | infinity t => cases hb
    | zero t =>
      cases s with
      | positive => rfl
      | negative =>
        have hpos : (0 : ℚ) < m * 2 ^ e := mul_pos (by exact_mod_cast hm) (hpow e)
        rw [value_finite, value_zero] at h
        simp only [Sign.apply, Int.cast_neg, Int.cast_natCast] at h
        linarith
    | finite t n d hn =>
      rw [value_finite, value_finite, ← decreaseExponent_value t n (min_le_right e d),
        ← decreaseExponent_value s m (min_le_left e d)] at h
      have hle := le_of_mul_le_mul_right h (hpow _)
      exact isNonneg_normalize (sub_nonneg.2 (by exact_mod_cast hle)) _ _

/-! ## Whole numbers -/

section

variable {m n : Nat} {e : Int}

/-- The exponent of the first digit does not depend on how a number is written. -/
theorem totalExponent_whole (hn : 0 < n) (h : (m : ℚ) * 2 ^ e = n) :
    totalExponent m e = n.log2 + 1 := by
  have hm : m ≠ 0 := by
    rintro rfl
    rw [Nat.cast_zero, zero_mul] at h
    exact hn.ne (by exact_mod_cast h)
  have hpow : (0 : ℚ) < 2 ^ e := zpow_pos two_pos e
  have hlow : (2 : ℚ) ^ (m.log2 + e) < 2 ^ (n.log2 + 1 : ℤ) :=
    calc (2 : ℚ) ^ (m.log2 + e) = (2 ^ m.log2 : ℕ) * 2 ^ e := by
          rw [zpow_add₀ two_ne_zero, zpow_natCast, Nat.cast_pow, Nat.cast_ofNat]
      _ ≤ m * 2 ^ e := mul_le_mul_of_nonneg_right (by exact_mod_cast Nat.log2_self_le hm) hpow.le
      _ < 2 ^ (n.log2 + 1 : ℤ) := by rw [h]; exact_mod_cast Nat.lt_log2_self
  have hhigh : (2 : ℚ) ^ (n.log2 : ℤ) < 2 ^ (m.log2 + 1 + e) :=
    calc (2 : ℚ) ^ (n.log2 : ℤ) ≤ m * 2 ^ e := by
          rw [h, zpow_natCast]; exact_mod_cast Nat.log2_self_le hn.ne'
      _ < (2 ^ (m.log2 + 1) : ℕ) * 2 ^ e :=
          mul_lt_mul_of_pos_right (by exact_mod_cast Nat.lt_log2_self) hpow
      _ = 2 ^ (m.log2 + 1 + e) := by
          rw [zpow_add₀ two_ne_zero, Nat.cast_pow, Nat.cast_ofNat, ← zpow_natCast]
          push_cast
          rfl
  have hle := (zpow_lt_zpow_iff_right₀ one_lt_two).1 hlow
  have hge := (zpow_lt_zpow_iff_right₀ one_lt_two).1 hhigh
  rw [totalExponent]
  omega

/-- Under the exponent `-k` the mantissa is that of the whole number, unless there are digits left
behind it. -/
theorem exists_decreaseExponent_whole (h : (m : ℚ) * 2 ^ e = n) (k : Nat) :
    ∃ r : Nat, decreaseExponent m e (-k) = (2 ^ r * (n * 2 ^ k), -k - (r : Int)) := by
  have hamount : (e - -(k : Int)).toNat = e + k + (-k - e).toNat := by omega
  have hmantissa : m * 2 ^ (e - -(k : Int)).toNat = 2 ^ (-k - e).toNat * (n * 2 ^ k) := by
    have hcast : (m : ℚ) * 2 ^ (e - -(k : Int)).toNat = 2 ^ (-k - e).toNat * (n * 2 ^ k) := by
      rw [← zpow_natCast, hamount, zpow_add₀ two_ne_zero, zpow_add₀ two_ne_zero, zpow_natCast,
        zpow_natCast, ← mul_assoc, ← mul_assoc, h]
      ring
    exact_mod_cast hcast
  refine ⟨(-k - e).toNat, ?_⟩
  rw [decreaseExponent, Nat.shiftLeft_eq, hmantissa, hamount]
  congr 1
  omega

/-- A whole number of up to 24 binary digits is written with 24 of them. -/
theorem round_whole (s : Sign) (hn : 0 < n) (hlt : n < 2 ^ 24) (h : (m : ℚ) * 2 ^ e = n) :
    ∃ k : ℕ, ∃ hm : 0 < n * 2 ^ k, Canonical (n * 2 ^ k) (-k) ∧ 2 ^ 23 ≤ n * 2 ^ k ∧
      UnpackedFloat.round .binary32 s m e = .finite s (n * 2 ^ k) (-k) hm := by
  have hlog : n.log2 < 24 := (Nat.log2_lt hn.ne').2 hlt
  obtain ⟨k, hk⟩ : ∃ k, n.log2 + k = 23 := ⟨23 - n.log2, by omega⟩
  have hm : 0 < n * 2 ^ k := by positivity
  have hfull : 2 ^ 23 ≤ n * 2 ^ k := by
    rw [← hk, Nat.pow_add]
    exact Nat.mul_le_mul_right _ (Nat.log2_self_le hn.ne')
  have hbound : n * 2 ^ k < 2 ^ 24 := by
    have hsucc : 2 ^ 24 = 2 ^ (n.log2 + 1) * 2 ^ k := by rw [← Nat.pow_add]; congr 1; omega
    rw [hsucc]
    exact Nat.mul_lt_mul_of_pos_right Nat.lt_log2_self (Nat.two_pow_pos k)
  have hcanonical : Canonical (n * 2 ^ k) (-k) := ⟨hbound, by omega, by omega, .inl hfull⟩
  have htarget : Format.binary32.targetExponent (totalExponent m e) = -k := by
    rw [totalExponent_whole hn h]
    change max ((n.log2 : Int) + 1 - 24) (-149) = -k
    omega
  obtain ⟨r, hdecrease⟩ := exists_decreaseExponent_whole h k
  refine ⟨k, hm, hcanonical, hfull, ?_⟩
  have hround := hcanonical.round_eq (s := s) hm r
  simp only [UnpackedFloat.round, htarget, hdecrease, hround]

end

/-- The number is finite, packing keeps it, and it stands for a rational number. -/
structure StandsFor (u : UnpackedFloat) (q : ℚ) : Prop where
  canonical : IsCanonical u
  finite : u.isFinite
  value_eq : value u = q

/-- Whole numbers of up to 24 binary digits are not rounded, whatever they are written with. -/
theorem standsFor_round {s : Sign} {m : Nat} {n e : Int} (hm : 0 < m) (h : n.natAbs < 2 ^ 24)
    (hvalue : ((s.apply m : ℤ) : ℚ) * 2 ^ e = n) :
    StandsFor (UnpackedFloat.round .binary32 s m e) n := by
  have hpow : (0 : ℚ) < 2 ^ e := zpow_pos two_pos e
  have hpos : (0 : ℚ) < m * 2 ^ e := mul_pos (by exact_mod_cast hm) hpow
  have habs : (m : ℚ) * 2 ^ e = n.natAbs := by
    rw [Nat.cast_natAbs, Int.cast_abs, ← hvalue, abs_mul, abs_of_pos hpow]
    cases s <;> simp [Sign.apply]
  have hsign : s.apply (n.natAbs : ℤ) = n := by
    have hcast : ((s.apply (n.natAbs : ℤ) : ℤ) : ℚ) = n := by
      rw [← hvalue]
      cases s <;> simp [Sign.apply, habs]
    exact_mod_cast hcast
  have hnpos : 0 < n.natAbs := by exact_mod_cast habs ▸ hpos
  obtain ⟨k, hdigits, hcanonical, -, heq⟩ := round_whole s hnpos h habs
  rw [heq]
  refine ⟨?_, rfl, ?_⟩
  · rintro _ _ _ _ ⟨⟩
    exact hcanonical
  · have hshift : s.apply ((n.natAbs * 2 ^ k : ℕ) : ℤ) = n * 2 ^ k := by
      rw [← hsign]
      cases s <;> simp [Sign.apply]
    rw [value_finite, hshift, Int.cast_mul, Int.cast_pow, Int.cast_ofNat, zpow_neg, zpow_natCast,
      mul_inv_cancel_right₀ (by positivity)]

theorem standsFor_normalize {m n e : Int} (h : n.natAbs < 2 ^ 24) (hvalue : (m : ℚ) * 2 ^ e = n)
    (zeroSign : Sign) : StandsFor (UnpackedFloat.normalize .binary32 m e zeroSign) n := by
  rw [UnpackedFloat.normalize]
  split
  next hlt =>
    have hneg : m < 0 := Int.compare_eq_lt.1 hlt
    have hsign : Sign.negative.apply ((-m).toNat : ℤ) = m := by
      simp only [Sign.apply]
      omega
    exact standsFor_round (by omega) h (by rwa [hsign])
  next heq =>
    obtain rfl : m = 0 := Int.compare_eq_eq.1 heq
    rw [Int.cast_zero, zero_mul] at hvalue
    exact ⟨isCanonical_zero zeroSign, rfl, hvalue⟩
  next hgt =>
    have hpos : 0 < m := Int.compare_eq_gt.1 hgt
    have hsign : Sign.positive.apply (m.toNat : ℤ) = m := by
      simp only [Sign.apply]
      omega
    exact standsFor_round (by omega) h (by rwa [hsign])

theorem standsFor_ofInt {n : Int} (h : n.natAbs < 2 ^ 24) :
    StandsFor (UnpackedFloat.ofInt .binary32 n) n :=
  standsFor_normalize h (by rw [zpow_zero, mul_one]) .positive

theorem ofInt_of_pos {n : Nat} (hn : 0 < n) :
    UnpackedFloat.ofInt .binary32 n = UnpackedFloat.round .binary32 .positive n 0 := by
  have hcompare : compare (n : Int) 0 = .gt := Int.compare_eq_gt.2 (by omega)
  simp only [UnpackedFloat.ofInt, UnpackedFloat.normalize, hcompare, Int.toNat_natCast]

/-- Dividing by `2 ^ 24` only moves the exponent, as long as it stays in range. -/
theorem div_two_pow {m : Nat} {e : Int} (s : Sign) (hm : 0 < m) (h : Canonical m e)
    (hfull : 2 ^ 23 ≤ m) (he : -124 ≤ e) :
    UnpackedFloat.div .binary32 (.finite s m e hm)
      (.finite .positive (2 ^ 23) 1 (by decide)) = .finite s m (e - 24) hm := by
  have hlog : m.log2 = 23 := (Nat.log2_eq_iff hm.ne').2 ⟨hfull, h.mantissa_lt⟩
  have hlog' : (2 ^ 23).log2 = 23 := Nat.log2_two_pow
  have hcanonical : Canonical m (e - 24) :=
    ⟨h.mantissa_lt, by omega, by have := h.exponent_le; omega, .inl hfull⟩
  have htarget : min (e - 1) (Format.binary32.targetExponent
      (totalExponent m e - totalExponent (2 ^ 23) 1)) = e - 25 := by
    rw [totalExponent, totalExponent, hlog, hlog']
    change min (e - 1) (max ((23 : Nat) + 1 + e - ((23 : Nat) + 1 + 1) - 24 : Int) (-149)) = e - 25
    omega
  have hshift : (e - 1 - (e - 25)).toNat = 24 := by omega
  have hquotient : m * 2 ^ 24 / 2 ^ 23 = 2 ^ 1 * m := by omega
  have hrest : m * 2 ^ 24 % 2 ^ 23 = 0 := by omega
  have hsign : s / .positive = s := by cases s <;> rfl
  have hexponent : e - 25 = e - 24 - (1 : Nat) := by omega
  have hround := hcanonical.round_eq (s := s) hm 1
  simp only [UnpackedFloat.div, Float.Model.UnpackedFloat.divCore, htarget, hshift,
    Nat.shiftLeft_eq, hquotient, hrest, hsign]
  rw [hexponent]
  exact hround

/-! ### Exact arithmetic -/

/-- Sums that are whole numbers of up to 24 binary digits are not rounded. -/
theorem StandsFor.add {a b : UnpackedFloat} {p q : ℚ} {n : Int} (ha : StandsFor a p)
    (hb : StandsFor b q) (h : n.natAbs < 2 ^ 24) (hsum : p + q = n) :
    StandsFor (UnpackedFloat.add .binary32 a b) n := by
  obtain ⟨hacanonical, hafinite, rfl⟩ := ha
  obtain ⟨hbcanonical, hbfinite, rfl⟩ := hb
  cases a with
  | notANumber | infinity s => cases hafinite
  | zero s =>
    rw [value_zero, Rat.zero_add] at hsum
    cases b with
    | notANumber | infinity t => cases hbfinite
    | zero t =>
      simp only [UnpackedFloat.add]
      split <;> exact ⟨isCanonical_zero _, rfl, hsum⟩
    | finite t p d hp => exact ⟨hbcanonical, rfl, hsum⟩
  | finite s m e hm =>
    cases b with
    | notANumber | infinity t => cases hbfinite
    | zero t =>
      rw [value_zero, add_zero] at hsum
      exact ⟨hacanonical, rfl, hsum⟩
    | finite t p d hp =>
      rw [value_finite, value_finite, ← decreaseExponent_value t p (min_le_right e d),
        ← decreaseExponent_value s m (min_le_left e d), ← add_mul, ← Int.cast_add] at hsum
      exact standsFor_normalize h hsum .positive

theorem apply_neg (s : Sign) (m : Int) : (-s).apply m = -s.apply m := by
  cases s
  · exact (neg_neg m).symm
  · rfl

/-- Differences are sums. -/
theorem sub_eq_add (a b : UnpackedFloat) :
    UnpackedFloat.sub .binary32 a b = UnpackedFloat.add .binary32 a b.neg := by
  cases a <;> cases b <;> try rfl
  simp only [UnpackedFloat.sub, UnpackedFloat.add, UnpackedFloat.neg, apply_neg, sub_eq_add_neg]

theorem StandsFor.neg {a : UnpackedFloat} {q : ℚ} (h : StandsFor a q) : StandsFor a.neg (-q) := by
  obtain ⟨hcanonical, hfinite, rfl⟩ := h
  cases a with
  | notANumber | infinity s => cases hfinite
  | zero s => exact ⟨isCanonical_zero (-s), rfl, neg_zero.symm⟩
  | finite s m e hm =>
    refine ⟨?_, rfl, ?_⟩
    · rintro _ _ _ _ ⟨⟩
      exact hcanonical s m e hm rfl
    · simp only [UnpackedFloat.neg, value_finite, apply_neg, Int.cast_neg, neg_mul]

/-- Halving only moves the exponent, as long as it stays in range. -/
theorem StandsFor.half {a : UnpackedFloat} {q : ℚ} (h : StandsFor a q)
    (hroom : ∀ s m e hm, a = .finite s m e hm → -149 < e) :
    StandsFor (UnpackedFloat.mul .binary32 (unpacked 0.5) a) (q / 2) := by
  have hhalf : unpacked 0.5 = .finite .positive (2 ^ 23) (-24) (by decide) := rfl
  obtain ⟨hcanonical, hfinite, rfl⟩ := h
  rw [hhalf]
  cases a with
  | notANumber | infinity s => cases hfinite
  | zero s => exact ⟨isCanonical_zero _, rfl, (zero_div 2).symm⟩
  | finite s m e hm =>
    have hm' := hcanonical s m e hm rfl
    have hlo := hroom s m e hm rfl
    have hhi := hm'.exponent_le
    have hmoved : Canonical m (e - 1) :=
      ⟨hm'.mantissa_lt, by omega, by omega, .inl (hm'.full_or_least.resolve_right (by omega))⟩
    have hsign : .positive * s = s := by cases s <;> rfl
    have hexponent : -24 + e = e - 1 - (23 : Nat) := by omega
    have hround := hmoved.round_eq (s := s) hm 23
    simp only [UnpackedFloat.mul, hsign, hexponent, hround]
    refine ⟨?_, rfl, ?_⟩
    · rintro _ _ _ _ ⟨⟩
      exact hmoved
    · rw [value_finite, value_finite, zpow_sub_one₀ two_ne_zero, ← mul_assoc, div_eq_mul_inv]

/-- The number stands for a whole number. -/
def IsWhole (x : Float32) (n : Int) : Prop := StandsFor (unpacked x) n

theorem StandsFor.isWhole {u : UnpackedFloat} {n : Int} (h : StandsFor u n) :
    IsWhole (.ofModel (.pack u)) n := by
  rwa [IsWhole, h.canonical.unpacked_ofModel]

theorem isWhole_toFloat32 {n : UInt64} (h : n.toNat < 2 ^ 24) : IsWhole n.toFloat32 n.toNat :=
  (standsFor_ofInt (by simpa using h)).isWhole

namespace IsWhole

variable {x y : Float32} {m n : Int}

theorem lt_iff (hx : IsWhole x m) (hy : IsWhole y n) : x < y ↔ m < n := by
  rw [lt_iff_value_lt hx.finite hy.finite, hx.value_eq, hy.value_eq, Int.cast_lt]

theorem le_iff (hx : IsWhole x m) (hy : IsWhole y n) : x ≤ y ↔ m ≤ n := by
  rw [le_iff_value_le hx.finite hy.finite, hx.value_eq, hy.value_eq, Int.cast_le]

theorem defined (hx : IsWhole x m) : Scalar.isNaN x = false :=
  (Scalar.IsOrdered.le_iff.1 ((hx.le_iff hx).2 le_rfl)).1

theorem add (hx : IsWhole x m) (hy : IsWhole y n) (h : (m + n).natAbs < 2 ^ 24) :
    IsWhole (x + y) (m + n) :=
  (StandsFor.add hx hy h (by rw [Int.cast_add])).isWhole

theorem sub (hx : IsWhole x m) (hy : IsWhole y n) (h : (m - n).natAbs < 2 ^ 24) :
    IsWhole (x - y) (m - n) := by
  have hsub := StandsFor.add hx hy.neg h (by rw [Int.cast_sub, sub_eq_add_neg])
  rw [← sub_eq_add] at hsub
  exact hsub.isWhole

/-- Behind the point of a whole number there is room for one more digit. -/
theorem lt_exponent {s : Sign} {p : Nat} {e : Int} {hp : 0 < p} (h : IsWhole x n)
    (hx : unpacked x = .finite s p e hp) : -149 < e := by
  have hcanonical := canonical_unpacked hx
  by_contra hle
  obtain rfl : e = -149 := le_antisymm (not_lt.1 hle) hcanonical.le_exponent
  have hvalue := h.value_eq
  rw [hx, value_finite, zpow_neg, ← div_eq_mul_inv, div_eq_iff (by positivity)] at hvalue
  have hdigits : s.apply (p : ℤ) = n * 2 ^ 149 := by exact_mod_cast hvalue
  have hlt := hcanonical.mantissa_lt
  cases s <;> simp only [Sign.apply] at hdigits <;> omega

theorem half (hx : IsWhole x (2 * n)) : IsWhole (0.5 * x) n := by
  have hhalf := StandsFor.half hx fun _ _ _ _ => hx.lt_exponent
  rw [Int.cast_mul, Int.cast_ofNat, mul_div_cancel_left₀ _ two_ne_zero] at hhalf
  exact hhalf.isWhole

end IsWhole

/-! ## The floor -/

section

variable {x : Float32} {s : Sign} {m : Nat} {e : Int} {hm : 0 < m}

theorem floor_of_neg (hx : unpacked x = .finite s m e hm) (he : e < 0) :
    floor x = Float32.ofBits ⟨UnpackedFloat.pack .binary32
      (UnpackedFloat.ofInt .binary32 (s.apply m >>> (-e).toNat))⟩ := by
  have hunpack : UnpackedFloat.unpack .binary32 x.toBits.toBitVec = .finite s m e hm := hx
  rw [floor, hunpack]
  exact if_pos he

theorem floor_of_nonneg (hx : unpacked x = .finite s m e hm) (he : 0 ≤ e) : floor x = x := by
  have hunpack : UnpackedFloat.unpack .binary32 x.toBits.toBitVec = .finite s m e hm := hx
  rw [floor, hunpack]
  exact if_neg he.not_gt

/-- Shifting the digits behind the point out of a mantissa rounds down. -/
theorem floor_value_of_neg (s : Sign) (hm : 0 < m) (he : e < 0) :
    ⌊value (.finite s m e hm)⌋ = s.apply m >>> (-e).toNat := by
  have hexponent : (2 : ℚ) ^ e = ((2 ^ (-e).toNat : ℕ) : ℚ)⁻¹ := by
    rw [Nat.cast_pow, Nat.cast_ofNat, ← zpow_natCast, ← zpow_neg]
    congr 1
    omega
  rw [value_finite, hexponent, ← div_eq_mul_inv, Rat.floor_intCast_div_natCast,
    Int.shiftRight_eq_div_pow]

theorem floor_value_of_nonneg (s : Sign) (hm : 0 < m) (he : 0 ≤ e) :
    (⌊value (.finite s m e hm)⌋ : ℚ) = value (.finite s m e hm) := by
  obtain ⟨k, rfl⟩ := Int.eq_ofNat_of_zero_le he
  have hwhole : value (.finite s m k hm) = ((s.apply m * 2 ^ k : ℤ) : ℚ) := by
    rw [value_finite, zpow_natCast, Int.cast_mul, Int.cast_pow, Int.cast_ofNat]
  rw [hwhole, Int.floor_intCast]

end

/-- Only numbers with digits behind the point are moved. -/
theorem floor_cases (x : Float32) :
    floor x = x ∧ (⌊value (unpacked x)⌋ : ℚ) = value (unpacked x) ∨
      ∃ s m e hm, unpacked x = .finite s m e hm ∧ e < 0 := by
  have hunpack : UnpackedFloat.unpack .binary32 x.toBits.toBitVec = unpacked x := rfl
  cases hx : unpacked x with
  | finite s m e hm =>
    by_cases he : e < 0
    · exact .inr ⟨s, m, e, hm, rfl, he⟩
    · exact .inl ⟨floor_of_nonneg hx (not_lt.1 he), floor_value_of_nonneg s hm (not_lt.1 he)⟩
  | notANumber | infinity s | zero s =>
    left
    rw [floor, hunpack, hx]
    exact ⟨rfl, by simp [value]⟩

/-- The floor of a finite number is finite and stands for the floor of its value. -/
theorem value_floor (x : Float32) :
    (unpacked (floor x)).isFinite = (unpacked x).isFinite ∧
      value (unpacked (floor x)) = ⌊value (unpacked x)⌋ := by
  obtain ⟨hfloor, hwhole⟩ | ⟨s, m, e, hm, hx, he⟩ := floor_cases x
  · rw [hfloor, hwhole]
    exact ⟨rfl, rfl⟩
  · have hdigits : (s.apply (m : Int) >>> (-e).toNat).natAbs < 2 ^ 24 := by
      have habs : (s.apply (m : Int)).natAbs = m := by cases s <;> simp [Sign.apply]
      rw [Int.shiftRight_eq_div_pow]
      exact ((Int.natAbs_ediv_le_natAbs _ _).trans_eq habs).trans_lt
        (canonical_unpacked hx).mantissa_lt
    obtain ⟨hcanonical, hfinite, hvalue⟩ := standsFor_ofInt hdigits
    rw [floor_of_neg hx he, hcanonical.unpacked_ofBits, hfinite, hvalue, hx,
      floor_value_of_neg s hm he]
    exact ⟨rfl, rfl⟩

/-- What is left of a number when its floor is taken away is not below zero, unless it is undefined,
as it is for infinite numbers. -/
theorem sub_floor (x : Float32) : Scalar.isNaN (x - floor x) = true ∨ 0 ≤ x - floor x := by
  have hsub : x - floor x =
      .ofModel (.pack (UnpackedFloat.sub .binary32 (unpacked x) (unpacked (floor x)))) := rfl
  obtain ⟨hfinite, hvalue⟩ := value_floor x
  cases hx : (unpacked x).isFinite with
  | true =>
    right
    rw [zero_le_iff, hsub]
    exact isNonneg_unpack_pack
      (isNonneg_sub hx (hfinite.trans hx) (hvalue.trans_le (Int.floor_le _)))
  | false =>
    left
    obtain ⟨hfloor, -⟩ | ⟨s, m, e, hm, hx', -⟩ := floor_cases x
    · rw [isNaN_eq, hsub, hfloor]
      cases hx' : unpacked x with
      | notANumber => rfl
      | infinity s => cases s <;> rfl
      | zero s | finite s m e hm => simp [hx', UnpackedFloat.isFinite] at hx
    · simp [hx', UnpackedFloat.isFinite] at hx

end Radiance.Binary32
