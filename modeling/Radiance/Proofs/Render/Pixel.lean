import Radiance.Proofs.Random.History
import Radiance.Render

/-!
# A pixel does not depend on what was rendered before

Estimators draw numbers and do nothing else to a sampler, so they stay within its states.  Every
sample of a pixel starts anew, and so the color of a pixel is the same from all states of a sampler
that forgets its history.

## Main definitions

* `Keeps`: a computation stays within a set of states.
* `pixelColor`: the color of a pixel, as a sampler alone gives it.

## Main statements

* `Integrator.keeps_radiance`: every estimator stays within the states that drawing keeps.
* `renderPixel_fst_eq`: the color of a pixel does not depend on the state.
* `renderBucket_fst`: a bucket shows the colors of its pixels.
-/

namespace Radiance

variable {σ : Type} {states : σ → Prop} {β γ : Type}

/-- A computation stays within a set of states. -/
def Keeps (states : σ → Prop) (m : StateM σ β) : Prop := ∀ s, states s → states (m s).2

namespace Keeps

theorem pure (b : β) : Keeps states (Pure.pure b : StateM σ β) := fun _ hs => hs

theorem bind {m : StateM σ β} {f : β → StateM σ γ} (hm : Keeps states m)
    (hf : ∀ b, Keeps states (f b)) : Keeps states (m >>= f) :=
  fun s hs => hf _ _ (hm s hs)

theorem ite {c : Prop} [Decidable c] {m m' : StateM σ β} (hm : Keeps states m)
    (hm' : Keeps states m') : Keeps states (if c then m else m') := by
  split
  · exact hm
  · exact hm'

theorem foldlM {f : γ → β → StateM σ γ} (hf : ∀ c b, Keeps states (f c b)) (l : List β) (c : γ) :
    Keeps states (l.foldlM f c) := by
  induction l generalizing c with
  | nil => exact .pure c
  | cons b l ih =>
    rw [List.foldlM_cons]
    exact (hf c b).bind ih

theorem mapM {f : β → StateM σ γ} (hf : ∀ b, Keeps states (f b)) (l : List β) :
    Keeps states (l.mapM f) := by
  induction l with
  | nil =>
    rw [List.mapM_nil]
    exact .pure []
  | cons b l ih =>
    rw [List.mapM_cons]
    exact (hf b).bind fun _ => ih.bind fun _ => .pure _

end Keeps

/-! ## Estimators -/

section Draws

variable {α : Type} [Scalar α] [Sampler σ α] (h : Keeps states (Sampler.next₁ : StateM σ α))
include h

omit [Scalar α] in
theorem Sampler.keeps_next₂ : Keeps states (Sampler.next₂ : StateM σ (Vec2 α)) :=
  h.bind fun _ => h.bind fun _ => .pure _

theorem Camera.keeps_sample (c : Camera α) (p : Pixel) :
    Keeps states (c.sample p : StateM σ (CameraSample α)) := by
  refine (Sampler.keeps_next₂ h).bind fun u => .ite ?_ (.pure _)
  exact (Sampler.keeps_next₂ h).bind fun _ => .pure _

theorem Light.keeps_sampleDirect (light : Light α) (origin : Vec3 α) :
    Keeps states (light.sampleDirect origin : StateM σ (LightSample α)) := by
  cases light with
  | point position intensity => exact .ite (.pure _) (.pure _)
  | directional direction intensity => exact .ite (.pure _) (.pure _)
  | environment map => exact (Sampler.keeps_next₂ h).bind fun _ => .pure _

theorem Lobe.keeps_sampleGlossy (color : Color α) (alpha : α) (wo : Vec3 α) :
    Keeps states (Lobe.sampleGlossy color alpha wo : StateM σ (BsdfSample α)) :=
  (Sampler.keeps_next₂ h).bind fun _ => .pure _

theorem Bsdf.keeps_sample (bsdf : Bsdf (Texture α)) (uv : Vec2 α) (wo : Vec3 α) :
    Keeps states (bsdf.sample uv wo : StateM σ (BsdfSample α)) := by
  cases bsdf with
  | diffuse albedo => exact (Sampler.keeps_next₂ h).bind fun _ => .pure _
  | dielectric ior reflectance transmittance => exact h.bind fun _ => .pure _
  | roughConductor reflectance roughness => exact Lobe.keeps_sampleGlossy h _ _ _
  | roughDielectric ior reflectance transmittance roughness =>
    exact h.bind fun _ => (Sampler.keeps_next₂ h).bind fun _ => .pure _
  | principled baseColor roughness metallic specular =>
    refine h.bind fun choice => .ite ?_ ?_
    · exact (Sampler.keeps_next₂ h).bind fun _ => .pure _
    · exact (Lobe.keeps_sampleGlossy h _ _ _).bind fun _ => .pure _

theorem Hit.keeps_sampleBsdf (hit : Hit α) :
    Keeps states (hit.sampleBsdf : StateM σ (BsdfSample α)) := by
  simp only [sampleBsdf]
  split
  · exact .pure _
  · exact (Bsdf.keeps_sample h _ _ _).bind fun _ => .ite (.pure _) (.pure _)

/-- A bounce goes on from a valid sample. -/
theorem Hit.keeps_bounce (hit : Hit α) {m : StateM σ β} {f : BsdfSample α → StateM σ β}
    (hm : Keeps states m) (hf : ∀ s, Keeps states (f s)) :
    Keeps states (hit.sampleBsdf >>= fun s => if s.isInvalid then m else f s) :=
  (Hit.keeps_sampleBsdf h hit).bind fun s => .ite hm (hf s)

theorem Scene.keeps_sampleLight (scene : Scene α) :
    Keeps states (scene.sampleLight : StateM σ (Option (LightChoice α))) := by
  exact .ite (.pure _) (h.bind fun _ => .pure _)

theorem keeps_nextEvent (scene : Scene α) (hit : Hit α) :
    Keeps states (nextEvent scene hit : StateM σ (Color α)) := by
  refine (Scene.keeps_sampleLight h scene).bind fun choice => ?_
  cases choice with
  | none => exact .pure _
  | some choice =>
    refine .ite (.pure _) ?_
    refine (Light.keeps_sampleDirect h _ _).bind fun sample => ?_
    exact .ite (.pure _) (.ite (.pure _) (.pure _))

theorem keeps_tracePath (scene : Scene α) (n : Nat) (radiance throughput : Color α) (ray : Ray α)
    (depth : UInt32) :
    Keeps states (tracePath scene n radiance throughput ray depth : StateM σ (Color α)) := by
  induction n generalizing radiance throughput ray depth with
  | zero => exact .pure _
  | succ n ih =>
    -- Both ways to gather light at the hit go on with the same bounce.
    have hbounce (radiance : Color α) := Hit.keeps_bounce h (scene.intersect ray) (.pure radiance)
      fun sample => ih radiance (throughput * sample.weight) ((Ray.towards
        (scene.intersect ray).surface.position sample.wi).withDepth (depth + 1)) (depth + 1)
    refine .ite ?_ (.pure _)
    refine .ite (.pure _) ?_
    refine .ite ?_ ?_
    · exact (keeps_nextEvent h _ _).bind fun _ => (Keeps.pure _).bind hbounce
    · exact (Keeps.pure _).bind hbounce

theorem keeps_directRadiance (scene : Scene α) (ray : Ray α) :
    Keeps states (directRadiance scene ray : StateM σ (Color α)) := by
  refine .ite ?_ (.pure _)
  refine .ite (.pure _) ?_
  refine .ite ?_ ?_
  · refine (keeps_nextEvent h _ _).bind fun _ => (Keeps.pure _).bind fun _ => ?_
    exact Hit.keeps_bounce h _ (.pure _) fun _ => .pure _
  · refine (Keeps.pure _).bind fun _ => ?_
    exact Hit.keeps_bounce h _ (.pure _) fun _ => .pure _

/-- Estimators draw numbers and do nothing else to a sampler. -/
theorem Integrator.keeps_radiance (integrator : Integrator α) (scene : Scene α) (ray : Ray α) :
    Keeps states (integrator.radiance scene ray : StateM σ (Color α)) := by
  cases integrator with
  | pathTracer maxDepth => exact keeps_tracePath h _ _ _ _ _ _
  | direct => exact keeps_directRadiance h _ _
  | normals remap => exact .ite (.pure _) (.pure _)
  | albedo => exact .pure _
  | traversal unit => exact .pure _

end Draws

/-! ## Pixels -/

section Pixels

variable {α : Type} [Scalar α] [Sampler σ α] (h : Sampler.Memoryless states)
variable (scene : Scene α) (integrator : Integrator α) {s s' : σ}

/-- The mean of a number of samples of a pixel. -/
def meanOfSamples (p : Pixel) (count : Nat) : StateM σ (Color α) := do
  let sum ← (List.range count).foldlM
    (fun sum i => do return sum + (← renderSample scene integrator p i)) .zero
  return sum / (Scalar.ofNat count : α)

theorem renderPixel_eq (p : Pixel) (s : σ) :
    renderPixel scene integrator p s =
      if (Sampler.samplesPerPixel s).toNat = 0 then (.zero, s)
      else meanOfSamples scene integrator p (Sampler.samplesPerPixel s).toNat s := by
  simp only [renderPixel, bind, StateT.bind, get, getThe, MonadStateOf.get, StateT.get, pure]
  split <;> rfl

/-- The color of a pixel, as a sampler alone gives it. -/
def pixelColor (s : σ) (p : Pixel) : Color α := (renderPixel scene integrator p s).1

include h

omit [Scalar α] in
theorem Sampler.Memoryless.keeps_next₁ : Keeps states (Sampler.next₁ : StateM σ α) :=
  fun _ hs => h.of_draw hs

theorem keeps_renderSample (p : Pixel) (i : Nat) :
    Keeps states (renderSample scene integrator p i : StateM σ (Color α)) := by
  have hseed : Keeps states (modify fun s => Sampler.seedPixel s p (UInt32.ofNat i)) :=
    fun s hs => h.of_seedPixel p _ hs
  refine hseed.bind fun _ => ?_
  refine (Camera.keeps_sample h.keeps_next₁ _ _).bind fun c => ?_
  exact (Integrator.keeps_radiance h.keeps_next₁ _ _ _).bind fun _ => .pure _

theorem keeps_renderPixel (p : Pixel) :
    Keeps states (renderPixel scene integrator p : StateM σ (Color α)) := by
  intro s hs
  rw [renderPixel_eq]
  split
  · exact hs
  · refine Keeps.bind (.foldlM (fun sum i => ?_) _ _) (fun _ => .pure _) s hs
    exact (keeps_renderSample h scene integrator p i).bind fun _ => .pure _

/-- A sample of a pixel takes the same course from all states. -/
theorem renderSample_eq (hs : states s) (hs' : states s') (p : Pixel) (i : Nat) :
    renderSample scene integrator p i s = renderSample scene integrator p i s' := by
  have hstart := h.start_eq p (UInt32.ofNat i) hs hs'
  exact congrArg (fun start => (do
    let c ← scene.camera.sample p
    let radiance ← integrator.radiance scene c.ray
    return c.weight * radiance : StateM σ (Color α)) start) hstart

/-- The mean of some samples takes the same course from all states, since the first of them does. -/
theorem meanOfSamples_eq (hs : states s) (hs' : states s') (p : Pixel) {count : Nat}
    (hcount : count ≠ 0) :
    meanOfSamples scene integrator p count s = meanOfSamples scene integrator p count s' := by
  obtain ⟨n, rfl⟩ := Nat.exists_eq_succ_of_ne_zero hcount
  have hfirst := renderSample_eq h scene integrator hs hs' p 0
  simp only [meanOfSamples, List.range_succ_eq_map, List.foldlM_cons, bind, StateT.bind, hfirst]

/-- The color of a pixel does not depend on the state. -/
theorem renderPixel_fst_eq (hs : states s) (hs' : states s') (p : Pixel) :
    (renderPixel scene integrator p s).1 = (renderPixel scene integrator p s').1 := by
  rw [renderPixel_eq, renderPixel_eq, h.count_eq hs hs']
  split
  · rfl
  next hcount => rw [meanOfSamples_eq h scene integrator hs hs' p hcount]

theorem keeps_renderBucket (b : Bucket) :
    Keeps states (renderBucket scene integrator b : StateM σ (List (Color α))) :=
  .mapM (keeps_renderPixel h scene integrator) _

/-- A bucket shows the colors of its pixels, whatever its sampler has rendered before. -/
theorem renderBucket_fst (hs : states s) (hs' : states s') (b : Bucket) :
    (renderBucket scene integrator b s').1 = b.pixels.map (pixelColor scene integrator s) := by
  rw [renderBucket]
  induction b.pixels generalizing s' with
  | nil => rfl
  | cons p ps ih =>
    rw [List.mapM_cons, List.map_cons, pixelColor, renderPixel_fst_eq h scene integrator hs hs' p,
      ← ih (keeps_renderPixel h scene integrator p s' hs')]
    rfl

end Pixels

end Radiance
