import Radiance.Proofs.Integrator.Recursion

/-!
# Every light is counted once

The unit interval is cut into equal parts, one for each light, and the part that a number falls into
picks the light.  The estimate for a picked light is divided by the probability of picking it, so in
exact arithmetic the average over the parts is the sum over the lights.  Lights that rays can hit
are picked like all others and then add nothing.

## Main definitions

* `Vec3.total`, `Vec3.average`: the sum and the mean of colors.
* `Sampler.DrawsIn`: the next number lies in a part of the unit interval.
* `Scene.reaching`: the light that reaches a hit along a sampled direction.

## Main statements

* `Shape.pick_eq_iff`: which part of the unit interval picks a number.
* `nextEvent_of_pick`: the estimate for a picked light.
* `nextEvent_counts_lights`: the average of the estimates.
-/

namespace Radiance

/-! ## Sums of colors -/

namespace Vec3

section

variable {α : Type} [Scalar α]

def total (vs : List (Vec3 α)) : Vec3 α := vs.foldr (· + ·) .zero

def average (vs : List (Vec3 α)) : Vec3 α := total vs / (Scalar.ofNat vs.length : α)

@[simp] theorem total_nil : total ([] : List (Vec3 α)) = .zero := rfl

@[simp] theorem total_cons (v : Vec3 α) (vs : List (Vec3 α)) : total (v :: vs) = v + total vs := rfl

end

open Exact

variable {z : ZeroSign}

theorem zero_div_number {r : ℝ} (hr : r ≠ 0) :
    (zero : Vec3 (Exact z)) / (number r : Exact z) = zero := by
  have hchannel : (0 : Exact z) / number r = 0 := by rw [zero_eq, number_div _ _ hr, zero_div]
  exact Vec3.ext hchannel hchannel hchannel

theorem add_div_number {r : ℝ} (hr : r ≠ 0) (v w : Vec3 (Exact z)) :
    (v + w) / (number r : Exact z) = v / (number r : Exact z) + w / (number r : Exact z) := by
  have hchannel (a b : Exact z) : (a + b) / number r = a / number r + b / number r := by
    simp only [div_def, inv_number _ hr, Exact.mul_comm _ (number r⁻¹), number_mul_add]
  exact Vec3.ext (hchannel _ _) (hchannel _ _) (hchannel _ _)

theorem div_div_cancel {r s : ℝ} (hr : r ≠ 0) (h : r * s = 1) (v : Vec3 (Exact z)) :
    v / (number r : Exact z) / (number s : Exact z) = v := by
  have hchannel (a : Exact z) : a / number r / number s = a := by
    rw [div_number_div_number a hr (right_ne_zero_of_mul_eq_one h), h, ← one_eq, Exact.div_one]
  exact Vec3.ext (hchannel _) (hchannel _) (hchannel _)

theorem total_div {r : ℝ} (hr : r ≠ 0) (vs : List (Vec3 (Exact z))) :
    total vs / (number r : Exact z) = total (vs.map (· / (number r : Exact z))) := by
  induction vs with
  | nil => exact zero_div_number hr
  | cons v vs ih => rw [total_cons, add_div_number hr, ih, List.map_cons, total_cons]

/-- Terms that are zero can be left out of a sum. -/
theorem total_map_ite {β : Type} (skip : β → Bool) (f : β → Vec3 (Exact z)) (items : List β) :
    total (items.map fun b => if skip b then .zero else f b) =
      total ((items.filter (!skip ·)).map f) := by
  induction items with
  | nil => rfl
  | cons b rest ih =>
    cases hskip : skip b with
    | true => simp [hskip, ih, Vec3.zero_add]
    | false => simp [hskip, ih]

end Vec3

/-! ## Equal parts of the unit interval -/

open Exact

variable {z : ZeroSign}

/-- The parts are closed on the left and open on the right, and all are equally long. -/
theorem Shape.pick_eq_iff {n i : Nat} {x : ℝ} (hn : n ≤ 2 ^ 63) (hi : i < n) (hx : 0 ≤ x)
    (hone : x < 1) : pick (number x : Exact z) n = i ↔ (i : ℝ) / n ≤ x ∧ x < ((i : ℝ) + 1) / n := by
  have hpos : (0 : ℝ) < n := by exact_mod_cast Nat.zero_lt_of_lt hi
  have hlt : x * n < n := by nlinarith
  have hnonneg : 0 ≤ x * n := mul_nonneg hx hpos.le
  have hbound : x * n < 2 ^ 63 := hlt.trans_le (by exact_mod_cast hn)
  have hfloor : ⌊x * n⌋₊ < n := (Nat.floor_lt hnonneg).2 hlt
  have hpick : pick (number x : Exact z) n = ⌊x * n⌋₊ := by
    change Nat.min (Scalar.toNat (number (x * n) : Exact z)) (n - 1) = _
    rw [toNat_number _ hnonneg hbound]
    exact Nat.min_eq_left (Nat.le_sub_one_of_lt hfloor)
  rw [hpick, Nat.floor_eq_iff hnonneg, div_le_iff₀ hpos, lt_div_iff₀ hpos]

/-- The next number is real and lies in a part of the unit interval. -/
def Sampler.DrawsIn {σ : Type} [Sampler σ (Exact z)] (s : σ) (lo hi : ℝ) : Prop :=
  ∃ x : ℝ, (draw s).1 = number x ∧ lo ≤ x ∧ x < hi

/-! ## Picked lights -/

section

variable {α σ : Type} [Scalar α] [Sampler σ α]

theorem Scene.sampleLight_eq {scene : Scene α} (h : 0 < scene.lights.size) (s : σ) :
    scene.sampleLight s =
      (scene.lights[Shape.pick (Sampler.draw s).1 scene.lights.size]?.map fun light =>
        ⟨light, 1 / Scalar.ofNat scene.lights.size⟩, (Sampler.draw s).2) := by
  rw [sampleLight, if_neg h.ne']
  rfl

/-- Lights that rays cannot hit are looked for in one direction, without a draw. -/
theorem Light.sampleDirect_of_not_canBeIntersected {light : Light α}
    (h : light.canBeIntersected = false) (origin : Vec3 α) (s s' : σ) :
    light.sampleDirect origin s = ((light.sampleDirect origin s').1, s) := by
  cases light with
  | point position intensity =>
    simp only [sampleDirect]
    split <;> rfl
  | directional direction intensity =>
    simp only [sampleDirect]
    split <;> rfl
  | environment map => simp [canBeIntersected] at h

/-- The light that reaches a hit along a sampled direction and is scattered there; none if the
sample is invalid or something is in the way before its distance. -/
def Scene.reaching (scene : Scene α) (hit : Hit α) (sample : LightSample α) : Color α :=
  if sample.isInvalid then .zero
  else if scene.occluded (.towards hit.surface.position sample.wi) sample.distance then .zero
  else hit.evaluateBsdf sample.wi * sample.weight

end

variable {σ : Type} [Sampler σ (Exact z)] {scene : Scene (Exact z)} {s : σ}

/-- The estimate for a picked light: nothing if rays can hit it, and otherwise what reaches the hit,
over the probability of the light. -/
theorem nextEvent_of_pick {light : Light (Exact z)} {p : ℝ} (hp : p ≠ 0) {after : σ}
    (h : scene.sampleLight s = (some ⟨light, number p⟩, after)) (hit : Hit (Exact z)) (s' : σ) :
    nextEvent scene hit s =
      (if light.canBeIntersected then .zero
        else scene.reaching hit (light.sampleDirect hit.surface.position s').1 /
          (number p : Exact z), after) := by
  have hstep {β γ : Type} (x : StateM σ β) (f : β → StateM σ γ) (s : σ) :
      (x >>= f) s = f (x s).1 (x s).2 := rfl
  rw [nextEvent, hstep, h]
  cases hlight : light.canBeIntersected with
  | true =>
    simp only [hlight, if_true]
    rfl
  | false =>
    have hsample := light.sampleDirect_of_not_canBeIntersected hlight hit.surface.position after s'
    simp only [hlight, Bool.false_eq_true, if_false]
    rw [hstep, hsample, Scene.reaching]
    split_ifs with hinvalid hoccluded
    · rw [Vec3.zero_div_number hp]
      rfl
    · rw [Vec3.zero_div_number hp]
      rfl
    · rfl

section

variable (hlights : 0 < scene.lights.size) (hsize : scene.lights.size ≤ 2 ^ 63)

include hlights hsize

/-- A number of the unit interval picks the light whose part it lies in. -/
theorem Scene.exists_sampleLight {x : ℝ} (hs : (Sampler.draw s).1 = number x) (hx : 0 ≤ x)
    (hone : x < 1) : ∃ k : Fin scene.lights.size,
      scene.sampleLight s =
        (some ⟨scene.lights[k], number (1 / scene.lights.size)⟩, (Sampler.draw s).2) ∧
      ∀ i : Fin scene.lights.size,
        k = i ↔ (i : ℝ) / scene.lights.size ≤ x ∧ x < ((i : ℝ) + 1) / scene.lights.size := by
  have hpick : Shape.pick (number x : Exact z) scene.lights.size < scene.lights.size :=
    (Nat.min_le_right _ _).trans_lt (Nat.sub_one_lt hlights.ne')
  have hcount : (scene.lights.size : ℝ) ≠ 0 := by exact_mod_cast hlights.ne'
  have hprobability : (1 / Scalar.ofNat scene.lights.size : Exact z) =
      number (1 / scene.lights.size) := by
    rw [one_eq]
    exact number_div _ _ hcount
  refine ⟨⟨_, hpick⟩, ?_, fun i => ?_⟩
  · rw [sampleLight_eq hlights, hs, Array.getElem?_eq_getElem hpick, hprobability]
    rfl
  · rw [← Shape.pick_eq_iff hsize i.isLt hx hone, Fin.ext_iff]

theorem Scene.sampleLight_of_drawsIn {i : Fin scene.lights.size}
    (hs : Sampler.DrawsIn s (i / scene.lights.size) ((i + 1) / scene.lights.size)) :
    scene.sampleLight s =
      (some ⟨scene.lights[i], number (1 / scene.lights.size)⟩, (Sampler.draw s).2) := by
  obtain ⟨x, hs, hlo, hhi⟩ := hs
  have hcount : (0 : ℝ) < scene.lights.size := by exact_mod_cast hlights
  have hlast : ((i : ℝ) + 1) / scene.lights.size ≤ 1 :=
    (div_le_one hcount).2 (by exact_mod_cast Nat.succ_le_of_lt i.isLt)
  obtain ⟨k, hk, hpart⟩ := exists_sampleLight hlights hsize hs
    ((div_nonneg (Nat.cast_nonneg _) hcount.le).trans hlo) (hhi.trans_le hlast)
  rwa [(hpart i).2 ⟨hlo, hhi⟩] at hk

/-- In a scene with lights, no more than memory can hold, each light is picked by an equal part of
the unit interval.  With one number from each part, the average of the estimates is the sum of what
reaches the hit from the lights that rays cannot hit; environment maps add nothing to it. -/
theorem nextEvent_counts_lights (hit : Hit (Exact z)) :
    (∀ (s : σ) (x : ℝ), (Sampler.draw s).1 = number x → 0 ≤ x → x < 1 →
      ∃ k : Fin scene.lights.size,
        scene.sampleLight s =
          (some ⟨scene.lights[k], number (1 / scene.lights.size)⟩, (Sampler.draw s).2) ∧
        ∀ i : Fin scene.lights.size,
          k = i ↔ (i : ℝ) / scene.lights.size ≤ x ∧ x < ((i : ℝ) + 1) / scene.lights.size) ∧
    ∀ choices : Fin scene.lights.size → σ,
      (∀ i : Fin scene.lights.size,
        Sampler.DrawsIn (choices i) (i / scene.lights.size) ((i + 1) / scene.lights.size)) →
      (∀ i, scene.lights[i].canBeIntersected = true →
        (nextEvent scene hit (choices i)).1 = .zero) ∧
      ∀ s : σ, Vec3.average (List.ofFn fun i => (nextEvent scene hit (choices i)).1) =
        Vec3.total ((scene.lights.toList.filter (!·.canBeIntersected)).map fun light =>
          scene.reaching hit (light.sampleDirect hit.surface.position s).1) := by
  refine ⟨fun s x hs hx hone => Scene.exists_sampleLight hlights hsize hs hx hone,
    fun choices hchoices => ?_⟩
  have hcount : (scene.lights.size : ℝ) ≠ 0 := by exact_mod_cast hlights.ne'
  have hprobability : (1 / scene.lights.size : ℝ) ≠ 0 := one_div_ne_zero hcount
  have hestimate (i : Fin scene.lights.size) (s : σ) := nextEvent_of_pick hprobability
    (Scene.sampleLight_of_drawsIn hlights hsize (hchoices i)) hit s
  refine ⟨fun i hi => by rw [hestimate i (choices i), if_pos hi], fun s => ?_⟩
  -- Each estimate over the number of lights is the term of its light.
  have hterm (i : Fin scene.lights.size) :
      (nextEvent scene hit (choices i)).1 / (number scene.lights.size : Exact z) =
        if scene.lights[i].canBeIntersected then .zero
        else scene.reaching hit (scene.lights[i].sampleDirect hit.surface.position s).1 := by
    rw [hestimate i s]
    split
    · exact Vec3.zero_div_number hcount
    · exact Vec3.div_div_cancel hprobability (one_div_mul_cancel hcount) _
  have hlist : scene.lights.toList = List.ofFn fun i : Fin scene.lights.size => scene.lights[i] :=
    List.ext_getElem (by simp) (by simp)
  calc Vec3.average (List.ofFn fun i => (nextEvent scene hit (choices i)).1)
      = Vec3.total ((List.ofFn fun i => (nextEvent scene hit (choices i)).1).map
          (· / (number scene.lights.size : Exact z))) := by
        rw [Vec3.average, List.length_ofFn]
        exact Vec3.total_div hcount _
    _ = Vec3.total (scene.lights.toList.map fun light =>
          if light.canBeIntersected then .zero
          else scene.reaching hit (light.sampleDirect hit.surface.position s).1) := by
        rw [hlist, List.map_ofFn, List.map_ofFn]
        exact congrArg (fun terms => Vec3.total (List.ofFn terms)) (funext hterm)
    _ = _ := Vec3.total_map_ite _ _ _

end

/-! ### A sky and a lamp -/

/-- A matte rectangle under a white sky and a lamp. -/
noncomputable def underSkyAndLamp : Scene (Exact z) :=
  (matteRectangle.withEnvironment ⟨.constant .one, none⟩).withLight (.point .unitZ .one)

/-- Of the two estimates that are averaged, the one of the sky is zero. -/
theorem nextEvent_counts_lights_underSkyAndLamp :
    let scene : Scene (Exact .plus) := underSkyAndLamp
    let hit := scene.intersect (.towardsOrigin ⟨0, 0, -1⟩ 2)
    let choose (x : ℝ) : Replay (Exact .plus) := ⟨#[number x], 1, 0⟩
    (nextEvent scene hit (choose (1 / 4))).1 = .zero ∧
      Vec3.average [(nextEvent scene hit (choose (1 / 4))).1,
          (nextEvent scene hit (choose (3 / 4))).1] =
        scene.reaching hit
          ((Light.point .unitZ .one).sampleDirect hit.surface.position (choose 0)).1 := by
  intro scene hit choose
  have hcount : scene.lights.size = 2 := rfl
  have hpos : 0 < scene.lights.size := by simp [hcount]
  have hsize : scene.lights.size ≤ 2 ^ 63 := by simp [hcount]
  have hmain := (nextEvent_counts_lights (σ := Replay (Exact .plus)) hpos hsize hit).2
    (fun i : Fin 2 => choose (if i = 0 then 1 / 4 else 3 / 4)) ?_
  · obtain ⟨hsky, haverage⟩ := hmain
    refine ⟨hsky (0 : Fin 2) rfl, (haverage (choose 0)).trans ?_⟩
    have hlamp : scene.lights.toList.filter (!·.canBeIntersected) = [.point .unitZ .one] := rfl
    rw [hlamp, List.map_cons, List.map_nil, Vec3.total_cons, Vec3.total_nil, Vec3.add_zero]
  · change ∀ i : Fin 2, _
    intro i
    refine ⟨_, rfl, ?_⟩
    fin_cases i <;> norm_num [hcount]

end Radiance
