import Radiance.Proofs.Random.Draws
import Radiance.Proofs.Scalar.Exact

/-!
# Draws from the unit interval

What a computation makes of draws from the unit interval, as a property of its results that is put
together step by step.

## Main definitions

* `Ensures`: the results of a computation have a property, and it stays within a set of states.
* `Sampler.DrawsUnit`: all draws of a sampler lie in `[0, 1)`.

## Main statements

* `Ensures.bind`: one computation after another.
* `Sampler.stream_replay`: the numbers that are drawn from a list.
* `Sampler.ensures_next₁`, `Sampler.ensures_next₂`: single draws.
-/

namespace Radiance

variable {σ β γ : Type}

/-- From a set of states a computation has results with a property, and stays within the set. -/
def Ensures (states : σ → Prop) (P : β → Prop) (m : StateM σ β) : Prop :=
  ∀ s, states s → P (m s).1 ∧ states (m s).2

namespace Ensures

variable {states : σ → Prop} {P P' : β → Prop} {Q : γ → Prop} {m m' : StateM σ β}

theorem pure {b : β} (h : P b) : Ensures states P (Pure.pure b : StateM σ β) := fun _ hs => ⟨h, hs⟩

theorem bind {f : β → StateM σ γ} (hm : Ensures states P m)
    (hf : ∀ b, P b → Ensures states Q (f b)) : Ensures states Q (m >>= f) :=
  fun s hs => hf _ (hm s hs).1 _ (hm s hs).2

theorem ite {c : Prop} [Decidable c] (hm : c → Ensures states P m)
    (hm' : ¬c → Ensures states P m') : Ensures states P (if c then m else m') := by
  split
  next h => exact hm h
  next h => exact hm' h

end Ensures

/-! ## Single draws -/

/-- All numbers that are drawn from a list are in it, or zero if it is empty. -/
theorem Sampler.stream_replay {α : Type} [Scalar α] {P : α → Prop} {st : Replay α}
    (h : ∀ v ∈ st.values, P v) (hzero : P 0) (k : Nat) : P (stream st k) := by
  induction k generalizing st with
  | zero =>
    change P (st.values.getD (st.position % st.values.size) 0)
    rw [Array.getD_eq_getD_getElem?]
    cases hv : st.values[st.position % st.values.size]? with
    | none => exact hzero
    | some v => exact h v (Array.mem_of_getElem? hv)
  | succ k ih =>
    have hnext : ∀ v ∈ (Sampler.draw st).2.values, P v := h
    exact ih hnext

open Exact

variable {z : ZeroSign}

/-- A number of `[0, 1)`. -/
def Exact.IsDraw (a : Exact z) : Prop := ∃ x : ℝ, 0 ≤ x ∧ x < 1 ∧ a = number x

namespace Sampler

variable [Sampler σ (Exact z)]

/-- All numbers that a sampler draws from a state on lie in `[0, 1)`. -/
def DrawsUnit (s : σ) : Prop := ∀ k, (stream s k).IsDraw

theorem ensures_next₁ : Ensures DrawsUnit IsDraw (next₁ : StateM σ (Exact z)) :=
  fun _ hs => ⟨hs 0, fun k => hs (k + 1)⟩

theorem ensures_next₂ :
    Ensures DrawsUnit (fun u => u.x.IsDraw ∧ u.y.IsDraw) (next₂ : StateM σ (Vec2 (Exact z))) :=
  ensures_next₁.bind fun _ hx => ensures_next₁.bind fun _ hy => .pure ⟨hx, hy⟩

/-- A list of numbers of the unit interval is drawn as such. -/
theorem drawsUnit_replay {st : Replay (Exact z)} (h : ∀ v ∈ st.values, v.IsDraw) :
    DrawsUnit st := stream_replay h ⟨0, le_rfl, one_pos, zero_eq⟩

theorem drawsUnit_pair {x y : ℝ} (hx : x ∈ Set.Ico 0 1) (hy : y ∈ Set.Ico 0 1) (count : UInt32)
    (position : ℕ) :
    DrawsUnit (⟨#[number x, number y], count, position⟩ : Replay (Exact z)) := by
  refine drawsUnit_replay fun v hv => ?_
  simp only [Array.mem_def, List.mem_cons, List.not_mem_nil, or_false] at hv
  obtain rfl | rfl := hv
  · exact ⟨x, hx.1, hx.2, rfl⟩
  · exact ⟨y, hy.1, hy.2, rfl⟩

end Sampler

end Radiance
