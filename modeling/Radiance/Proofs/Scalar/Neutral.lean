import Radiance.Proofs.Scalar.Order

/-!
# Neutral numbers

Multiplying by one changes nothing, and adding zero changes at most the sign of a zero.  Of rounded
numbers this holds because the product with one and the sum with zero need no rounding.

## Main definitions

* `Scalar.EqUpToZeroSign`: equal, or two zeros.
* `Scalar.HasNeutral`: the laws of one and zero.

## Main statements

* `Binary32.pack_unpacked`: a number is put together again from its sign, exponent and mantissa.
* `Float32` has neutral numbers: `Binary32.hasNeutral`.
-/

namespace Radiance

/-- Two numbers that differ at most in the sign of a zero. -/
def Scalar.EqUpToZeroSign {α : Type} [Scalar α] (a b : α) : Prop :=
  a = b ∨ (a == 0) = true ∧ (b == 0) = true

/-- One is neutral for products, and zero is neutral for sums up to its own sign. -/
class Scalar.HasNeutral (α : Type) [Scalar α] : Prop where
  one_mul : ∀ a : α, 1 * a = a
  zero_add : ∀ a : α, EqUpToZeroSign (0 + a) a
  add_congr : ∀ {a b : α} (c : α), EqUpToZeroSign a b → EqUpToZeroSign (a + c) (b + c)

namespace Binary32

open Float.Model (Format UnpackedFloat totalExponent)
open Float.Model.UnpackedFloat (Sign ExtendedMantissa packComponents unpackSign unpackExponent
  unpackMantissa shiftToExponent shiftToTargetExponent roundWithAccuracy)

/-! ## Packing -/

/-- The finite numbers that words stand for: the mantissa fills all its bits, unless the exponent is
the smallest one. -/
structure Canonical (m : Nat) (e : Int) : Prop where
  mantissa_lt : m < 2 ^ 24
  le_exponent : -149 ≤ e
  exponent_le : e ≤ 104
  full_or_least : 2 ^ 23 ≤ m ∨ e = -149

section

variable {m : Nat} {e : Int} {s : Sign}

theorem Canonical.pack_of_full (h : Canonical m e) (hm : 0 < m) (hfull : 2 ^ 23 ≤ m) :
    UnpackedFloat.pack .binary32 (.finite s m e hm) =
      packComponents .binary32 s (BitVec.ofNat 8 (e + 150).toNat) (BitVec.ofNat 23 m) := by
  have hlog : m.log2 = 23 := (Nat.log2_eq_iff hm.ne').2 ⟨hfull, h.mantissa_lt⟩
  have hbiased : (e + (Format.binary32.exponentBias : Int) + (23 : Nat)).toNat =
      (e + 150).toNat := by
    change (e + (127 : Nat) + (23 : Nat)).toNat = _
    congr 1
    omega
  have hrange := h.exponent_le
  simp only [UnpackedFloat.pack, hbiased, hlog]
  rw [if_neg (by omega), if_pos (by decide)]

theorem Canonical.pack_of_not_full (h : Canonical m e) (hm : 0 < m) (hfull : ¬2 ^ 23 ≤ m) :
    UnpackedFloat.pack .binary32 (.finite s m e hm) =
      packComponents .binary32 s 0#8 (BitVec.ofNat 23 m) := by
  have hlog : m.log2 < 23 := (Nat.log2_lt hm.ne').2 (by omega)
  obtain rfl : e = -149 := h.full_or_least.resolve_left hfull
  simp only [UnpackedFloat.pack]
  rw [if_neg (by decide), if_neg (by simp only [Format.mantissaBits]; omega)]

end

theorem toNat_one_append (v : BitVec 23) : (1#1 ++ v).toNat = 2 ^ 23 + v.toNat := by
  rw [BitVec.toNat_append, ← Nat.shiftLeft_add_eq_or_of_lt v.isLt]
  simp [Nat.shiftLeft_eq]

section

variable (b : BitVec Format.binary32.numBits)

/-- A word is its own sign, exponent and mantissa side by side. -/
theorem packComponents_eq :
    packComponents .binary32 (Sign.ofBitVec (unpackSign b)) (unpackExponent b) (unpackMantissa b) =
      b := by
  have hsign (v : BitVec 1) : (Sign.ofBitVec v).toBitVec = v := by
    revert v
    decide
  simp only [packComponents, hsign, unpackSign, unpackExponent, unpackMantissa, BitVec.extractLsb]
  ext i hi
  grind

/-- A word stands for a canonical number if it stands for a finite one, and what it stands for packs
into the word again: of the words for the undefined number only one is allowed. -/
theorem unpack_spec (hb : Format.binary32.Valid b) :
    UnpackedFloat.pack .binary32 (UnpackedFloat.unpack .binary32 b) = b ∧
      ∀ s m e hm, UnpackedFloat.unpack .binary32 b = .finite s m e hm → Canonical m e := by
  have hword := packComponents_eq b
  have hmantissa : (unpackMantissa b).toNat < 2 ^ 23 := (unpackMantissa b).isLt
  have hexponent : (unpackExponent b).toNat < 2 ^ 8 := (unpackExponent b).isLt
  have hbias : ((Format.binary32.exponentBias : Nat) : Int) = 127 := rfl
  simp only [UnpackedFloat.unpack]
  split
  next htop =>
    split
    next hzero =>
      rw [htop, hzero] at hword
      exact ⟨hword, nofun⟩
    next hne => exact ⟨(hb.eq_packedNaN htop hne).symm, nofun⟩
  next htop =>
    split
    next hbottom =>
      split
      next hzero =>
        rw [hbottom, hzero] at hword
        exact ⟨hword, nofun⟩
      next hne =>
        have hleast : ((unpackExponent b).toNat : Int) -
            (Format.binary32.exponentBias + (23 : Nat)) + 1 = -149 := by
          rw [hbottom, hbias]
          rfl
        have hcanonical : Canonical (unpackMantissa b).toNat (-149) :=
          ⟨by omega, by omega, by omega, .inr rfl⟩
        simp only [hleast]
        constructor
        · rw [hcanonical.pack_of_not_full _ (by omega), BitVec.ofNat_toNat, BitVec.setWidth_eq]
          rwa [hbottom] at hword
        · rintro s m e hm ⟨⟩
          exact hcanonical
    next hbottom =>
      have htop' : (unpackExponent b).toNat ≠ 255 := fun h => htop (BitVec.eq_of_toNat_eq h)
      have hbottom' : (unpackExponent b).toNat ≠ 0 := fun h => hbottom (BitVec.eq_of_toNat_eq h)
      have hfull := toNat_one_append (unpackMantissa b)
      have hcanonical : Canonical (1#1 ++ unpackMantissa b).toNat
          ((unpackExponent b).toNat - (Format.binary32.exponentBias + (23 : Nat)) : Int) := by
        rw [hfull, hbias]
        exact ⟨by omega, by omega, by omega, .inl (by omega)⟩
      constructor
      · have hexp : ((unpackExponent b).toNat - (Format.binary32.exponentBias + (23 : Nat)) + 150 :
            Int).toNat = (unpackExponent b).toNat := by
          rw [hbias]
          omega
        have hman : BitVec.ofNat 23 (1#1 ++ unpackMantissa b).toNat = unpackMantissa b := by
          apply BitVec.eq_of_toNat_eq
          rw [BitVec.toNat_ofNat, hfull]
          change (2 ^ 23 + (unpackMantissa b).toNat) % 2 ^ 23 = _
          omega
        rw [hcanonical.pack_of_full _ (by omega), hexp, hman, BitVec.ofNat_toNat,
          BitVec.setWidth_eq]
        exact hword
      · rintro s m e hm ⟨⟩
        exact hcanonical

end

theorem pack_unpacked (x : Float32) : Float32.ofModel (.pack (unpacked x)) = x := by
  obtain ⟨⟨bits, hvalid⟩⟩ := x
  have hword := (unpack_spec bits.toBitVec hvalid).1
  simp only [unpacked, Float32.Model.unpack, Float32.Model.pack, hword]

theorem canonical_unpacked {x : Float32} {s : Sign} {m : Nat} {e : Int} {hm : 0 < m}
    (hx : unpacked x = .finite s m e hm) : Canonical m e :=
  (unpack_spec x.toModel.toBits.toBitVec x.toModel.valid).2 s m e hm hx

/-! ## Rounding -/

section

variable {m : Nat} {e : Int} {s : Sign}

theorem Canonical.targetExponent_eq (h : Canonical m e) (hm : 0 < m) :
    Format.binary32.targetExponent (totalExponent m e) = e := by
  have hlt : m.log2 < 24 := (Nat.log2_lt hm.ne').2 h.mantissa_lt
  have hle := h.le_exponent
  change max (m.log2 + 1 + e - 24) (-149 : Int) = e
  obtain hfull | rfl := h.full_or_least
  · have hge : 23 ≤ m.log2 := (Nat.le_log2 hm.ne').2 hfull
    omega
  · omega

theorem log2_two_pow_mul (hm : 0 < m) (k : Nat) : (2 ^ k * m).log2 = k + m.log2 := by
  induction k with
  | zero => simp
  | succ k ih =>
    rw [Nat.pow_succ', Nat.mul_assoc, Nat.log2_two_mul (Nat.mul_pos (Nat.two_pow_pos k) hm).ne', ih]
    omega

/-- Zeros at the end of a mantissa are shifted out without a trace. -/
theorem shiftRight_two_pow_mul (m k : Nat) :
    (⟨2 ^ k * m, false, false⟩ : ExtendedMantissa) >>> k = ⟨m, false, false⟩ := by
  change k.repeat ExtendedMantissa.shiftRightOne _ = _
  induction k generalizing m with
  | zero => simp [Nat.repeat]
  | succ k ih =>
    have hstep := ih (2 * m)
    rw [← Nat.mul_assoc, ← Nat.pow_succ] at hstep
    rw [Nat.repeat, hstep]
    simp [ExtendedMantissa.shiftRightOne]

theorem Canonical.shift_eq (h : Canonical m e) (hm : 0 < m) (k : Nat) :
    shiftToTargetExponent .binary32 (2 ^ k * m) (e - k) .exact = (⟨m, false, false⟩, e) := by
  have htotal : totalExponent (2 ^ k * m) (e - k) = totalExponent m e := by
    simp only [totalExponent, log2_two_pow_mul hm]
    omega
  have hamount : (e - (e - k)).toNat = k := by omega
  simp only [shiftToTargetExponent, htotal, h.targetExponent_eq hm, shiftToExponent, hamount,
    ExtendedMantissa.ofMantissaAndAccuracy, shiftRight_two_pow_mul, sub_add_cancel]

/-- A canonical number written with a longer mantissa is rounded to itself. -/
theorem Canonical.round_eq (h : Canonical m e) (hm : 0 < m) (k : Nat) :
    roundWithAccuracy .binary32 s (2 ^ k * m) (e - k) .exact = .finite s m e hm := by
  have hagain : shiftToTargetExponent .binary32 m e .exact = (⟨m, false, false⟩, e) := by
    simpa using h.shift_eq hm 0
  have hrounded : (⟨m, false, false⟩ : ExtendedMantissa).roundedMantissa = m := rfl
  simp only [roundWithAccuracy, h.shift_eq hm k, hrounded, hagain]
  rw [dif_neg hm.ne']

end

/-! ## One and zero -/

theorem one_mul (x : Float32) : 1 * x = x := by
  have hone : unpacked 1 = .finite .positive (2 ^ 23) (-23) (by decide) := rfl
  have hproduct : UnpackedFloat.mul .binary32 (unpacked 1) (unpacked x) = unpacked x := by
    have hsign (s : Sign) : .positive * s = s := by cases s <;> rfl
    rw [hone]
    cases hx : unpacked x with
    | notANumber => rfl
    | infinity s => simp only [UnpackedFloat.mul, hsign]
    | zero s => simp only [UnpackedFloat.mul, hsign]
    | finite s m e hm =>
      have hround := (canonical_unpacked hx).round_eq (s := s) hm 23
      have hexponent : -23 + e = e - (23 : Nat) := by omega
      simp only [UnpackedFloat.mul, hsign, hexponent, hround]
  change Float32.ofModel (.pack (UnpackedFloat.mul .binary32 (unpacked 1) (unpacked x))) = x
  rw [hproduct, pack_unpacked]

theorem add_eq (x y : Float32) :
    x + y = .ofModel (.pack (UnpackedFloat.add .binary32 (unpacked x) (unpacked y))) := rfl

/-- Exactly the two zeros are equal to zero. -/
theorem beq_zero_iff (x : Float32) : (x == 0) = true ↔ ∃ s, unpacked x = .zero s := by
  change (unpacked x).beq (.zero .positive) = true ↔ _
  cases unpacked x with
  | notANumber => simp [UnpackedFloat.beq, UnpackedFloat.compare]
  | infinity s => cases s <;> simp [UnpackedFloat.beq, UnpackedFloat.compare]
  | zero s => simp [UnpackedFloat.beq, UnpackedFloat.compare]
  | finite s => cases s <;> simp [UnpackedFloat.beq, UnpackedFloat.compare]

/-- Packing a zero gives one of the two zeros. -/
theorem beq_zero_pack (s : Sign) : (Float32.ofModel (.pack (.zero s)) == 0) = true := by
  cases s <;> decide

theorem zero_add (x : Float32) : Scalar.EqUpToZeroSign (0 + x) x := by
  have hzero : unpacked 0 = .zero .positive := rfl
  rw [add_eq, hzero]
  cases hx : unpacked x with
  | zero s =>
    right
    refine ⟨?_, (beq_zero_iff x).2 ⟨s, hx⟩⟩
    simp only [UnpackedFloat.add]
    split <;> exact beq_zero_pack _
  | notANumber | infinity s | finite s m e hm =>
    left
    rw [← pack_unpacked x, hx]
    rfl

/-- Two zeros are alike in any sum. -/
theorem add_congr {x y : Float32} (c : Float32) (h : Scalar.EqUpToZeroSign x y) :
    Scalar.EqUpToZeroSign (x + c) (y + c) := by
  rcases h with rfl | ⟨hx, hy⟩
  · exact .inl rfl
  obtain ⟨s, hx⟩ := (beq_zero_iff x).1 hx
  obtain ⟨t, hy⟩ := (beq_zero_iff y).1 hy
  rw [add_eq, add_eq, hx, hy]
  cases unpacked c with
  | zero u =>
    right
    simp only [UnpackedFloat.add]
    constructor <;> split <;> exact beq_zero_pack _
  | notANumber | infinity u | finite u m e hm =>
    left
    rfl

instance hasNeutral : Scalar.HasNeutral Float32 := ⟨one_mul, zero_add, add_congr⟩

end Binary32

end Radiance
