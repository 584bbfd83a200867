import Radiance.Proofs.Integrator.Lights
import Radiance.Proofs.Scalar.Rational
import Radiance.Proofs.Shape.Orientation

/-!
# Every draw lies in the unit interval

The numbers of a generator are whole multiples of `2 ^ -24` and need no rounding.  A shifted radical
inverse may be rounded up to one or to two, but what is left of it without its floor is never below
zero, and it is kept below one at the end.  So all answers of both samplers lie in `[0, 1)`, in
whatever state their histories leave them, and picks from a list stay within it.

## Main definitions

* `Binary32.InUnit`: the numbers of `[0, 1)`.
* `Sampler.AnswersInUnit`: a state in which all draws lie there.

## Main statements

* `Xoshiro.value_nextUnit`: the number that a word of the generator stands for.
* `Halton.inUnit_rotate`: shifted numbers, whatever is shifted by what.
* `Sampler.draws_in_unit`: all draws after any history, and the picks made with them.
-/

namespace Radiance

open Float.Model (UnpackedFloat)
open Binary32

/-- The numbers from zero to below one. -/
def Binary32.InUnit (u : Float32) : Prop := 0 ≤ u ∧ u < 1

theorem Binary32.inUnit_of_value {u : Float32} (hfinite : (unpacked u).isFinite)
    (hzero : 0 ≤ value (unpacked u)) (hone : value (unpacked u) < 1) : InUnit u := by
  have hvalue : value (unpacked 1) = 1 := by
    change ((2 ^ 23 : ℕ) : ℤ) * (2 : ℚ) ^ (-23 : ℤ) = 1
    norm_num
  exact ⟨(le_iff_value_le rfl hfinite).2 hzero,
    (lt_iff_value_lt hfinite rfl).2 (hone.trans_eq hvalue.symm)⟩

/-! ## Generators -/

/-- A fraction of `2 ^ 24`, with its numerator moved to the left. -/
theorem Binary32.value_shifted {n k : ℕ} (hm : 0 < n * 2 ^ k) :
    value (.finite .positive (n * 2 ^ k) (-k - 24) hm) = n / 2 ^ 24 := by
  have hexponent : (2 : ℚ) ^ (-k - 24 : ℤ) = (2 ^ k)⁻¹ / 2 ^ 24 := by
    rw [zpow_sub₀ two_ne_zero, zpow_neg, zpow_natCast]
    rfl
  rw [value_finite, hexponent]
  change (((n * 2 ^ k : ℕ) : ℤ) : ℚ) * _ = _
  push_cast
  field_simp

/-- The upper bits of a word, divided by as many as they can count, are not rounded. -/
theorem Binary32.value_fraction {n : UInt64} (hlt : n.toNat < 2 ^ 24) :
    (unpacked (n.toFloat32 / 16777216)).isFinite ∧
      value (unpacked (n.toFloat32 / 16777216)) = n.toNat / 2 ^ 24 := by
  have hdivisor : unpacked 16777216 = .finite .positive (2 ^ 23) 1 (by decide) := rfl
  have hnumber : unpacked n.toFloat32 = UnpackedFloat.ofInt .binary32 n.toNat :=
    (standsFor_ofInt (by simpa using hlt)).canonical.unpacked_ofModel
  have hquotient : n.toFloat32 / 16777216 = .ofModel (.pack (UnpackedFloat.div .binary32
      (UnpackedFloat.ofInt .binary32 n.toNat) (.finite .positive (2 ^ 23) 1 (by decide)))) := by
    rw [← hnumber, ← hdivisor]
    rfl
  rw [hquotient]
  rcases Nat.eq_zero_or_pos n.toNat with hzero | hpos
  · rw [hzero]
    refine ⟨rfl, ?_⟩
    change (0 : ℚ) = (0 : ℕ) / 2 ^ 24
    simp
  · obtain ⟨k, hm, hcanonical, hfull, hround⟩ :=
      round_whole .positive (e := 0) hpos hlt (by rw [zpow_zero, mul_one])
    have hk : k ≤ 23 := by
      by_contra! hk
      have := Nat.pow_le_pow_right two_pos hk
      have := hcanonical.mantissa_lt
      nlinarith
    have hexact : IsCanonical (.finite .positive (n.toNat * 2 ^ k) (-k - 24) hm) := by
      rintro _ _ _ _ ⟨⟩
      exact ⟨hcanonical.mantissa_lt, by omega, by omega, .inl hfull⟩
    rw [ofInt_of_pos hpos, hround, div_two_pow .positive hm hcanonical hfull (by omega),
      hexact.unpacked_ofModel]
    exact ⟨rfl, value_shifted hm⟩

/-- A draw is the upper part of a word, divided by `2 ^ 24`. -/
theorem Xoshiro.value_nextUnit (g : Xoshiro) :
    (unpacked g.nextUnit.1).isFinite ∧
      value (unpacked g.nextUnit.1) = (g.next.1.toNat / 2 ^ 40 : ℕ) / 2 ^ 24 := by
  have hword : (g.next.1 >>> 40).toNat = g.next.1.toNat / 2 ^ 40 := by
    rw [UInt64.toNat_shiftRight]
    exact Nat.shiftRight_eq_div_pow ..
  have hlt : (g.next.1 >>> 40).toNat < 2 ^ 24 := by
    have := g.next.1.toNat_lt
    omega
  rw [← hword]
  exact value_fraction hlt

theorem Xoshiro.inUnit_nextUnit (g : Xoshiro) : InUnit g.nextUnit.1 := by
  obtain ⟨hfinite, hvalue⟩ := g.value_nextUnit
  have hlt : g.next.1.toNat / 2 ^ 40 < 2 ^ 24 := by
    have := g.next.1.toNat_lt
    omega
  refine inUnit_of_value hfinite ?_ ?_ <;> rw [hvalue]
  · positivity
  · rw [div_lt_one (by positivity)]
    exact_mod_cast hlt

/-! ## Shifted radical inverses -/

theorem inUnit_oneMinusEpsilon : InUnit oneMinusEpsilon := ⟨by decide, by decide⟩

/-- Neither the number nor its shift has to lie in the unit interval. -/
theorem Halton.inUnit_rotate (value offset : Float32) : InUnit (rotate value offset) := by
  change InUnit (Scalar.min (value + offset - floor (value + offset)) oneMinusEpsilon)
  obtain hundefined | hnonneg := sub_floor (value + offset)
  · rw [Scalar.min, hundefined]
    simp only [if_true, ite_self]
    exact inUnit_oneMinusEpsilon
  · refine ⟨Scalar.le_min hnonneg inUnit_oneMinusEpsilon.1, ?_⟩
    have hle : Scalar.min (value + offset - floor (value + offset)) oneMinusEpsilon ≤
        oneMinusEpsilon :=
      Scalar.min_le_of_right (Scalar.le_self_of_ge inUnit_oneMinusEpsilon.1)
    exact Scalar.lt_of_le_of_lt hle inUnit_oneMinusEpsilon.2

theorem Halton.inUnit_next (s : Halton) : InUnit s.next.1 := by
  simp only [Halton.next]
  exact inUnit_rotate _ _

/-! ## Both samplers -/

namespace Sampler

variable {σ : Type} [Sampler σ Float32]

/-- Whatever is asked for next, the answer lies in the unit interval. -/
structure AnswersInUnit (s : σ) : Prop where
  inUnit_next₁ : InUnit (next₁ s).1
  inUnit_x : InUnit (next₂ s).1.x
  inUnit_y : InUnit (next₂ s).1.y

/-- A point is made of two draws. -/
theorem answersInUnit_of_draw (h : ∀ s : σ, InUnit (draw s).1) (s : σ) : AnswersInUnit s :=
  ⟨h s, h s, h (draw s).2⟩

end Sampler

theorem Independent.answersInUnit (s : Independent) : Sampler.AnswersInUnit s :=
  Sampler.answersInUnit_of_draw (fun s => s.generator.inUnit_nextUnit) s

theorem Halton.answersInUnit (s : Halton) : Sampler.AnswersInUnit s :=
  Sampler.answersInUnit_of_draw Halton.inUnit_next s

/-! ## Picks -/

/-- All draws of both samplers lie in `[0, 1)`, after any history of draws, seeds and copies, and a
draw picks an entry of a list that is not empty: a light of a scene, or a child of a group. -/
theorem Sampler.draws_in_unit :
    (∀ count seed events, ∀ s ∈ run events [Independent.ofSeed count seed], AnswersInUnit s) ∧
    (∀ count seed events, ∀ s ∈ run events [Halton.ofSeed count seed], AnswersInUnit s) ∧
    ∀ {σ : Type} [Sampler σ Float32] (s : σ),
      (∀ scene : Scene Float32, 0 < scene.lights.size → ∃ i : Fin scene.lights.size,
        i = Shape.pick (draw s).1 scene.lights.size ∧
        scene.sampleLight s =
          (some ⟨scene.lights[i], 1 / Scalar.ofNat scene.lights.size⟩, (draw s).2)) ∧
      ∀ (children : Array (Shape Float32)) (hierarchy : Hierarchy Float32), 0 < children.size →
        ∃ i : Fin children.size, i = Shape.pick (draw s).1 children.size ∧
          (Shape.group children hierarchy).sampleArea s =
            ((children[i].sampleArea (draw s).2).1.map fun p =>
                { p with pdf := p.pdf / Scalar.ofNat children.size },
              (children[i].sampleArea (draw s).2).2) := by
  refine ⟨fun _ _ _ s _ => s.answersInUnit, fun _ _ _ s _ => s.answersInUnit, fun s => ⟨?_, ?_⟩⟩
  · intro scene hlights
    have hpick := Shape.pick_lt (draw s).1 hlights
    refine ⟨⟨_, hpick⟩, rfl, ?_⟩
    rw [Scene.sampleLight_eq hlights, Array.getElem?_eq_getElem hpick]
    rfl
  · intro children hierarchy hchildren
    have hpick := Shape.pick_lt (draw s).1 hchildren
    exact ⟨⟨_, hpick⟩, rfl, Shape.sampleArea_group hpick rfl⟩

/-- Two lamps over a ball. -/
def lampsOverBall : Scene Float32 where
  camera := default
  root := .sphere
  lights := #[.point .unitZ .one, .point (.splat 2) .one]

/-- A sampler that was never used, and a copy that was seeded anew and then picks one of two lamps
or one of two shapes. -/
theorem Sampler.draws_in_unit_copy :
    AnswersInUnit (Independent.ofSeed 4 9) ∧
    ∃ s, s ∈ run [.call 0 (.seedPixel ⟨3, 1⟩ 0), .call 0 (.draw .two), .clone 0, .call 1 (.seed 7)]
        [Halton.ofSeed 4 9] ∧ AnswersInUnit s ∧
      (∃ light ∈ lampsOverBall.lights,
        (lampsOverBall.sampleLight s).1 = some ⟨light, 1 / Scalar.ofNat 2⟩) ∧
      ∃ child ∈ #[Shape.sphere, .rectangle],
        ((Shape.group #[.sphere, .rectangle] default).sampleArea s).1 =
          (child.sampleArea (draw s).2).1.map fun p =>
            { p with pdf := p.pdf / Scalar.ofNat 2 } := by
  obtain ⟨hindependent, hhalton, hpick⟩ := draws_in_unit
  obtain ⟨s, hs⟩ : ∃ s, (run [.call 0 (.seedPixel ⟨3, 1⟩ 0), .call 0 (.draw .two), .clone 0,
    .call 1 (.seed 7)] [Halton.ofSeed 4 9])[1]? = some s := ⟨_, rfl⟩
  have hcopy := List.mem_of_getElem? hs
  refine ⟨hindependent 4 9 [] _ List.mem_cons_self, s, hcopy, hhalton 4 9 _ _ hcopy, ?_, ?_⟩
  · obtain ⟨i, -, hlight⟩ := (hpick s).1 lampsOverBall (by decide)
    exact ⟨_, Array.getElem_mem i.isLt, congrArg Prod.fst hlight⟩
  · obtain ⟨i, -, hchild⟩ := (hpick s).2 #[.sphere, .rectangle] default (by decide)
    exact ⟨_, Array.getElem_mem i.isLt, congrArg Prod.fst hchild⟩

end Radiance
