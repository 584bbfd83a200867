import Radiance.Proofs.Integrator.Direct
import Radiance.Proofs.Render.Pixel
import Radiance.Proofs.Shape.Record

/-!
# The truncated recursion of light transport

A path gathers radiance vertex by vertex, with the product of the weights so far in front.  In exact
arithmetic this is the recursion that adds to the emission of a hit the light of one lamp and the
weighted radiance of the next ray, cut off after a number of vertices.

The same loop is run with its queries and samples written to a log, to bound their number.

## Main definitions

* `PathOps.follow`: the loop over any three operations; `PathOps.plain` and `PathOps.logged` are
  those of a scene, without and with a log.
* `Asks`: a computation that adds at most so much to the log.
* `truncated`: the recursion.

## Main statements

* `follow_plain`, `erases_follow`: the loop is the loop that runs, and the log changes nothing.
* `asks_follow`: how much a path of a number of vertices asks for.
* `gathers_follow`: the loop against the recursion.
* `pathTracer_computes_truncation`: all of it for whole paths.
-/

namespace Radiance

/-! ## The loop over any operations -/

/-- What a path asks for: the nearest hit of a ray, the light of one lamp at a hit, and a bounce. -/
structure PathOps (m : Type → Type) (α : Type) where
  closestHit : Ray α → m (Hit α)
  estimate : Hit α → m (Color α)
  scatter : Hit α → m (BsdfSample α)

/-- The number of queries and estimates of a path, and its samples in turn. -/
structure PathLog (α : Type) where
  queries : Nat := 0
  estimates : Nat := 0
  samples : List (BsdfSample α) := []

/-- A sampler and a log beside it. -/
structure Logged (σ α : Type) where
  sampler : σ
  log : PathLog α := {}

variable {α : Type} [Scalar α] {σ : Type} [Sampler σ α]

namespace PathOps

section

variable {m : Type → Type} [Monad m]

/-- Radiance and the weighted light of one lamp, if there are lamps. -/
def addLight (ops : PathOps m α) (scene : Scene α) (hit : Hit α) (radiance throughput : Color α) :
    m (Color α) :=
  if scene.hasLights then do
    let direct ← ops.estimate hit
    return radiance + throughput * direct
  else return radiance

/-- Follows a path as `tracePath` does. -/
def follow (ops : PathOps m α) (scene : Scene α) :
    Nat → Color α → Color α → Ray α → UInt32 → m (Color α)
  | 0, radiance, _, _, _ => return radiance
  | n + 1, radiance, throughput, ray, depth => do
    let hit ← ops.closestHit ray
    if hit.isHit then
      let radiance := radiance + throughput * hit.emission
      if hit.bsdf?.isNone ∨ n = 0 then return radiance
      else
        let radiance ← ops.addLight scene hit radiance throughput
        let sample ← ops.scatter hit
        if sample.isInvalid then return radiance
        else
          ops.follow scene n radiance (throughput * sample.weight)
            ((Ray.towards hit.surface.position sample.wi).withDepth (depth + 1)) (depth + 1)
    else return radiance + throughput * scene.evaluateBackground ray.direction

end

/-- The operations of a scene. -/
def plain (scene : Scene α) : PathOps (StateM σ) α where
  closestHit ray := pure (scene.intersect ray)
  estimate hit := nextEvent scene hit
  scatter hit := hit.sampleBsdf

/-- The operations of a scene, each written to the log. -/
def logged (scene : Scene α) : PathOps (StateM (Logged σ α)) α where
  closestHit ray := fun l =>
    (scene.intersect ray, { l with log := { l.log with queries := l.log.queries + 1 } })
  estimate hit := fun l =>
    let (direct, sampler) := nextEvent scene hit l.sampler
    (direct, { sampler, log := { l.log with estimates := l.log.estimates + 1 } })
  scatter hit := fun l =>
    let (sample, sampler) := hit.sampleBsdf l.sampler
    (sample, { sampler, log := { l.log with samples := l.log.samples ++ [sample] } })

end PathOps

open PathOps Exact

variable (scene : Scene α)

/-- With the operations of a scene the loop is the loop that runs. -/
theorem follow_plain (n : Nat) (radiance throughput : Color α) (ray : Ray α) (depth : UInt32) :
    (plain scene).follow scene n radiance throughput ray depth =
      tracePath (σ := σ) scene n radiance throughput ray depth := by
  induction n generalizing radiance throughput ray depth with
  | zero => rfl
  | succ n ih =>
    simp only [follow, tracePath, addLight, ← ih]
    cases scene.hasLights <;> rfl

/-! ## The log changes nothing -/

section

variable {β γ : Type}

/-- A computation with a log does what the other does without. -/
def Erases (x : StateM (Logged σ α) β) (y : StateM σ β) : Prop :=
  ∀ l, ((x l).1, (x l).2.sampler) = y l.sampler

namespace Erases

variable {x x' : StateM (Logged σ α) β} {y y' : StateM σ β}

omit [Scalar α] [Sampler σ α] in
theorem pure (b : β) : Erases (Pure.pure b : StateM (Logged σ α) β) (Pure.pure b) := fun _ => rfl

omit [Scalar α] [Sampler σ α] in
theorem bind {f : β → StateM (Logged σ α) γ} {g : β → StateM σ γ} (hx : Erases x y)
    (hf : ∀ b, Erases (f b) (g b)) : Erases (x >>= f) (y >>= g) := by
  intro l
  refine (hf (x l).1 (x l).2).trans ?_
  change g (x l).1 (x l).2.sampler = g (y l.sampler).1 (y l.sampler).2
  rw [← hx l]

omit [Scalar α] [Sampler σ α] in
theorem ite {c : Prop} [Decidable c] (hx : Erases x y) (hx' : Erases x' y') :
    Erases (if c then x else x') (if c then y else y') := by
  split
  · exact hx
  · exact hx'

end Erases

theorem erases_addLight (hit : Hit α) (radiance throughput : Color α) :
    Erases ((logged scene).addLight scene hit radiance throughput)
      ((plain scene).addLight (m := StateM σ) scene hit radiance throughput) :=
  .ite (.bind (fun _ => rfl) fun _ => .pure _) (.pure _)

/-- The log changes neither the radiance nor the sampler. -/
theorem erases_follow (n : Nat) (radiance throughput : Color α) (ray : Ray α) (depth : UInt32) :
    Erases ((logged scene).follow scene n radiance throughput ray depth)
      ((plain scene).follow (m := StateM σ) scene n radiance throughput ray depth) := by
  induction n generalizing radiance throughput ray depth with
  | zero => exact .pure _
  | succ n ih =>
    refine .bind (fun _ => rfl) fun hit => .ite (.ite (.pure _) ?_) (.pure _)
    refine .bind (erases_addLight scene hit _ _) fun radiance => ?_
    exact .bind (fun _ => rfl) fun sample => .ite (.pure _) (ih _ _ _ _)

/-! ## How much a path asks for -/

/-- A computation adds at most so many queries, estimates and samples to the log. -/
def Asks (queries estimates samples : Nat) (x : StateM (Logged σ α) β) : Prop :=
  ∀ l, (x l).2.log.queries ≤ l.log.queries + queries ∧
    (x l).2.log.estimates ≤ l.log.estimates + estimates ∧
    ∃ more, (x l).2.log.samples = l.log.samples ++ more ∧ more.length ≤ samples

namespace Asks

variable {x x' : StateM (Logged σ α) β} {q e k q' e' k' : Nat}

omit [Scalar α] [Sampler σ α]

theorem pure (b : β) : Asks 0 0 0 (Pure.pure b : StateM (Logged σ α) β) :=
  fun _ => ⟨le_rfl, le_rfl, [], (List.append_nil _).symm, le_rfl⟩

theorem mono (h : Asks q e k x) (hq : q ≤ q') (he : e ≤ e') (hk : k ≤ k') : Asks q' e' k' x := by
  intro l
  obtain ⟨hqueries, hestimates, more, hsamples, hlength⟩ := h l
  exact ⟨by omega, by omega, more, hsamples, hlength.trans hk⟩

theorem bind {f : β → StateM (Logged σ α) γ} (hx : Asks q e k x) (hf : ∀ b, Asks q' e' k' (f b)) :
    Asks (q + q') (e + e') (k + k') (x >>= f) := by
  intro l
  obtain ⟨hqueries, hestimates, more, hsamples, hlength⟩ := hx l
  obtain ⟨hqueries', hestimates', more', hsamples', hlength'⟩ := hf (x l).1 (x l).2
  refine ⟨hqueries'.trans (by omega), hestimates'.trans (by omega), more ++ more', ?_, ?_⟩
  · rw [← List.append_assoc, ← hsamples]
    exact hsamples'
  · rw [List.length_append]
    omega

theorem ite {c : Prop} [Decidable c] (hx : c → Asks q e k x) (hx' : ¬c → Asks q e k x') :
    Asks q e k (if c then x else x') := by
  split
  next h => exact hx h
  next h => exact hx' h

end Asks

end

section

variable (hit : Hit α) (radiance throughput : Color α) (ray : Ray α) (depth : UInt32)

theorem asks_closestHit : Asks 1 0 0 ((logged (σ := σ) scene).closestHit ray) :=
  fun _ => ⟨le_rfl, le_rfl, [], (List.append_nil _).symm, le_rfl⟩

theorem asks_scatter : Asks 0 0 1 ((logged (σ := σ) scene).scatter hit) :=
  fun _ => ⟨le_rfl, le_rfl, [_], rfl, le_rfl⟩

theorem asks_addLight :
    Asks 0 1 0 ((logged (σ := σ) scene).addLight scene hit radiance throughput) := by
  have hestimate : Asks 0 1 0 ((logged (σ := σ) scene).estimate hit) :=
    fun _ => ⟨le_rfl, le_rfl, [], (List.append_nil _).symm, le_rfl⟩
  refine .ite (fun _ => hestimate.bind fun _ => .pure _) fun _ => ?_
  exact (Asks.pure radiance).mono le_rfl (Nat.zero_le 1) le_rfl

/-- A path asks for a hit at each vertex, and for light and a bounce at all but the last. -/
theorem asks_follow (n : Nat) :
    Asks n (n - 1) (n - 1)
      ((logged (σ := σ) scene).follow scene n radiance throughput ray depth) := by
  induction n generalizing radiance throughput ray depth with
  | zero => exact .pure _
  | succ n ih =>
    have hstop (c : Color α) : Asks n n n (pure c : StateM (Logged σ α) (Color α)) :=
      (Asks.pure c).mono (Nat.zero_le n) (Nat.zero_le n) (Nat.zero_le n)
    refine ((asks_closestHit scene ray).bind fun hit => (?_ : Asks n n n _)).mono (by omega)
      (by omega) (by omega)
    refine .ite (fun _ => .ite (fun _ => hstop _) fun hgo => ?_) fun _ => hstop _
    -- The path goes on only when a vertex is left for the bounce.
    have hn : n ≠ 0 := fun h => hgo (.inr h)
    have hbounce (radiance : Color α) := (asks_scatter (σ := σ) scene hit).bind fun sample =>
      Asks.ite (c := sample.isInvalid = true)
        (fun _ => (Asks.pure radiance).mono (Nat.zero_le n) (Nat.zero_le (n - 1))
          (Nat.zero_le (n - 1)))
        fun _ => ih radiance (throughput * sample.weight)
          ((Ray.towards hit.surface.position sample.wi).withDepth (depth + 1)) (depth + 1)
    exact ((asks_addLight scene hit _ throughput).bind hbounce).mono (by omega) (by omega)
      (by omega)

end

/-! ## The recursion -/

/-- The light of one lamp at a hit, none without lamps. -/
def lampLight (scene : Scene α) (hit : Hit α) : StateM σ (Color α) :=
  if scene.hasLights then nextEvent scene hit else return .zero

/-- The radiance along a ray at a depth, where paths end at another depth: the background, or the
emission at the hit with the light of one lamp and the weighted radiance of a bounce. -/
def truncated (scene : Scene α) (maxDepth : Nat) (ray : Ray α) (depth : Nat) :
    StateM σ (Color α) :=
  let hit := scene.intersect ray
  if hit.isHit then
    if _h : hit.bsdf?.isSome ∧ depth + 1 < maxDepth then do
      let direct ← lampLight scene hit
      let sample ← hit.sampleBsdf
      if sample.isInvalid then return hit.emission + direct
      else
        let next := (Ray.towards hit.surface.position sample.wi).withDepth (.ofNat (depth + 1))
        let incoming ← truncated scene maxDepth next (depth + 1)
        return hit.emission + direct + sample.weight * incoming
    else return hit.emission
  else return scene.evaluateBackground ray.direction
  termination_by maxDepth - depth

/-- All weights that a path has drawn are real, and so is the throughput all along. -/
def PathLog.IsReal {z : ZeroSign} (log : PathLog (Exact z)) : Prop :=
  ∀ sample ∈ log.samples, sample.weight.IsReal

section

variable {z : ZeroSign} {τ : Type} [Sampler τ (Exact z)] (scene : Scene (Exact z))

theorem addLight_logged {throughput : Color (Exact z)} (ht : throughput.IsReal)
    (hit : Hit (Exact z)) (radiance emission : Color (Exact z)) (l : Logged τ (Exact z)) :
    let x := (logged scene).addLight scene hit (radiance + throughput * emission) throughput l
    let y := lampLight scene hit l.sampler
    x.1 = radiance + throughput * (emission + y.1) ∧ x.2.sampler = y.2 := by
  unfold addLight lampLight
  cases scene.hasLights with
  | true =>
    refine ⟨?_, rfl⟩
    rw [ht.mul_add, ← Vec3.add_assoc]
    rfl
  | false =>
    refine ⟨?_, rfl⟩
    change _ = radiance + throughput * (emission + .zero)
    rw [Vec3.add_zero]
    rfl

/-- The first computation adds to radiance what the second computes, times a throughput, if all
weights stay real. -/
def Gathers (radiance throughput : Color (Exact z))
    (x : StateM (Logged τ (Exact z)) (Color (Exact z))) (y : StateM τ (Color (Exact z))) : Prop :=
  ∀ l, (x l).2.log.IsReal →
    (x l).1 = radiance + throughput * (y l.sampler).1 ∧ (x l).2.sampler = (y l.sampler).2

namespace Gathers

variable {r t : Color (Exact z)} {hit : Hit (Exact z)}

omit [Sampler τ (Exact z)] in
theorem pure (r t e : Color (Exact z)) :
    Gathers (τ := τ) r t (Pure.pure (r + t * e)) (Pure.pure e) := fun _ _ => ⟨rfl, rfl⟩

omit [Sampler τ (Exact z)] in
theorem ite {c : Prop} [Decidable c] {x x' : StateM (Logged τ (Exact z)) (Color (Exact z))}
    {y y' : StateM τ (Color (Exact z))} (h : c → Gathers r t x y) (h' : ¬c → Gathers r t x' y') :
    Gathers r t (if c then x else x') (if c then y else y') := by
  split
  next hc => exact h hc
  next hc => exact h' hc

/-- The light of a lamp, on the way to the rest. -/
theorem addLight {f : Color (Exact z) → StateM (Logged τ (Exact z)) (Color (Exact z))}
    {g : Color (Exact z) → StateM τ (Color (Exact z))} (ht : t.IsReal) (e : Color (Exact z))
    (h : ∀ direct, Gathers r t (f (r + t * (e + direct))) (g direct)) :
    Gathers r t ((logged scene).addLight scene hit (r + t * e) t >>= f)
      (lampLight scene hit >>= g) := by
  intro l hreal
  obtain ⟨hcolor, hsampler⟩ := addLight_logged scene ht hit r e l
  have hrest := h (lampLight scene hit l.sampler).1
    ((logged scene).addLight scene hit (r + t * e) t l).2
  rw [← hcolor, hsampler] at hrest
  exact hrest hreal

/-- A bounce, on the way to a rest that keeps the log of it. -/
theorem scatter {f : BsdfSample (Exact z) → StateM (Logged τ (Exact z)) (Color (Exact z))}
    {g : BsdfSample (Exact z) → StateM τ (Color (Exact z))} {q e k : Nat}
    (hasks : ∀ sample, Asks q e k (f sample))
    (h : ∀ sample, sample.weight.IsReal → Gathers r t (f sample) (g sample)) :
    Gathers r t ((logged scene).scatter hit >>= f) (hit.sampleBsdf >>= g) := by
  intro l hreal
  refine h (hit.sampleBsdf l.sampler).1 ?_ ((logged scene).scatter hit l).2 hreal
  obtain ⟨-, -, more, hsamples, -⟩ :=
    hasks (hit.sampleBsdf l.sampler).1 ((logged scene).scatter hit l).2
  refine hreal _ ?_
  have hmem : (hit.sampleBsdf l.sampler).1 ∈ ((logged scene).scatter hit l).2.log.samples :=
    List.mem_append_right _ (List.mem_singleton.2 rfl)
  change _ ∈ (f (hit.sampleBsdf l.sampler).1 ((logged scene).scatter hit l).2).2.log.samples
  rw [hsamples]
  exact List.mem_append_left _ hmem

omit [Sampler τ (Exact z)] in
/-- The rest of a path, from the radiance so far and the product of the weights. -/
theorem weigh {x : StateM (Logged τ (Exact z)) (Color (Exact z))} {y : StateM τ (Color (Exact z))}
    {w c : Color (Exact z)} (ht : t.IsReal) (hw : w.IsReal) (h : Gathers (r + t * c) (t * w) x y) :
    Gathers r t x (y >>= fun incoming => Pure.pure (c + w * incoming)) := by
  intro l hreal
  obtain ⟨hcolor, hsampler⟩ := h l hreal
  refine ⟨?_, hsampler⟩
  calc (x l).1 = r + t * c + t * w * (y l.sampler).1 := hcolor
    _ = r + (t * c + t * (w * (y l.sampler).1)) := by rw [Vec3.add_assoc, ht.mul_mul _ hw]
    _ = r + t * (c + w * (y l.sampler).1) := by rw [ht.mul_add]

end Gathers

/-- The invariant of the loop: a path adds to the radiance so far the throughput times the radiance
of the recursion with as many vertices left. -/
theorem gathers_follow {n : Nat} (hn : 0 < n) (d : Nat) (radiance : Color (Exact z))
    {throughput : Color (Exact z)} (ht : throughput.IsReal) (ray : Ray (Exact z)) :
    Gathers (τ := τ) radiance throughput
      ((logged scene).follow scene n radiance throughput ray (.ofNat d))
      (truncated scene (d + n) ray d) := by
  induction n generalizing d radiance throughput ray with
  | zero => exact absurd hn (lt_irrefl 0)
  | succ n ih =>
    suffices hvertex : Gathers (τ := τ) radiance throughput _ _ from
      fun l => hvertex ((logged scene).closestHit ray l).2
    rw [truncated]
    refine .ite (fun _ => ?_) fun _ => .pure _ _ _
    have hstop : (scene.intersect ray).bsdf?.isNone ∨ n = 0 ↔
        ¬((scene.intersect ray).bsdf?.isSome ∧ d + 1 < d + (n + 1)) := by
      cases (scene.intersect ray).bsdf? <;> simp
    by_cases hgo : (scene.intersect ray).bsdf?.isSome ∧ d + 1 < d + (n + 1)
    · rw [if_neg (by rwa [hstop, not_not]), dif_pos hgo]
      refine .addLight scene ht _ fun direct => ?_
      refine .scatter scene (q := n) (e := n - 1) (k := n - 1) (fun sample => ?_)
        fun sample hweight => .ite (fun _ => .pure _ _ _) fun _ => ?_
      · refine .ite (fun _ => (Asks.pure _).mono ?_ ?_ ?_) fun _ => asks_follow scene _ _ _ _ n
        all_goals exact Nat.zero_le _
      · have hdepth : UInt32.ofNat d + 1 = .ofNat (d + 1) := (UInt32.ofNat_add d 1).symm
        rw [hdepth, show d + (n + 1) = d + 1 + n by omega]
        exact (ih (by omega) (d + 1) _ (ht.mul hweight) _).weigh ht hweight
    · rw [if_pos (hstop.2 hgo), dif_neg hgo]
      exact .pure _ _ _

/-! ## Whole paths -/

/-- The run of a path tracer from a sampler, with its log. -/
def Integrator.loggedPath {α : Type} [Scalar α] {σ : Type} [Sampler σ α] (scene : Scene α)
    (maxDepth : UInt32) (ray : Ray α) (s : σ) : Color α × Logged σ α :=
  (logged scene).follow scene maxDepth.toNat .zero .one ray 0 { sampler := s }

/-- A path tracer computes the recursion that ends at its depth, from the same draws, as long as its
weights stay real numbers.  A log of the run shows at most as many queries as the depth, and one
sample and one estimate fewer; a path of depth one shows what its ray sees. -/
theorem pathTracer_computes_truncation {D : UInt32} (hD : 1 ≤ D) (ray : Ray (Exact z)) (s : τ) :
    let result := (Integrator.pathTracer D).radiance scene ray s
    let run := Integrator.loggedPath scene D ray s
    (run.1, run.2.sampler) = result ∧
      (run.2.log.IsReal → result = truncated scene D.toNat ray 0 s) ∧
      run.2.log.queries ≤ D.toNat ∧ run.2.log.samples.length ≤ D.toNat - 1 ∧
      run.2.log.estimates ≤ D.toNat - 1 ∧ (D = 1 → result = (scene.emitted ray, s)) := by
  intro result run
  have herase : (run.1, run.2.sampler) = result := by
    have h := erases_follow scene D.toNat .zero .one ray 0 { sampler := s }
    rw [follow_plain] at h
    exact h
  have hpos : 0 < D.toNat := by
    rw [UInt32.le_iff_toNat_le] at hD
    exact hD
  obtain ⟨hqueries, hestimates, more, hsamples, hlength⟩ :=
    asks_follow scene .zero .one ray 0 D.toNat { sampler := s }
  refine ⟨herase, fun hreal => ?_, hqueries.trans_eq (Nat.zero_add _), ?_,
    hestimates.trans_eq (Nat.zero_add _), ?_⟩
  · obtain ⟨hcolor, hsampler⟩ :=
      gathers_follow scene hpos 0 .zero Vec3.isReal_one ray { sampler := s } hreal
    rw [Vec3.zero_add, Vec3.one_mul, Nat.zero_add] at hcolor
    rw [Nat.zero_add] at hsampler
    rw [← herase]
    exact Prod.ext hcolor hsampler
  · refine le_of_eq_of_le (congrArg List.length hsamples) ?_
    simpa using hlength
  · rintro rfl
    have hone := tracePath_one (σ := τ) scene .zero .one ray 0
    rw [Vec3.zero_add, Vec3.one_mul] at hone
    exact congrFun hone s

/-! ### Matte scenes -/

variable {scene}

/-- The weights of a path are real if the samples at all hits of the scene are. -/
theorem keeps_isReal_follow
    (h : ∀ ray (s : τ), ((scene.intersect ray).sampleBsdf s).1.weight.IsReal) (n : Nat)
    (radiance throughput : Color (Exact z)) (ray : Ray (Exact z)) (depth : UInt32) :
    Keeps (fun l : Logged τ (Exact z) => l.log.IsReal)
      ((logged scene).follow scene n radiance throughput ray depth) := by
  induction n generalizing radiance throughput ray depth with
  | zero => exact .pure _
  | succ n ih =>
    suffices hvertex : Keeps (fun l : Logged τ (Exact z) => l.log.IsReal) _ from
      fun l => hvertex ((logged scene).closestHit ray l).2
    have hscatter : Keeps (fun l : Logged τ (Exact z) => l.log.IsReal)
        ((logged scene).scatter (scene.intersect ray)) := by
      intro l hl sample hsample
      obtain hold | hnew := List.mem_append.1 hsample
      · exact hl sample hold
      · rw [List.mem_singleton.1 hnew]
        exact h ray l.sampler
    have hlight (c t : Color (Exact z)) : Keeps (fun l : Logged τ (Exact z) => l.log.IsReal)
        ((logged scene).addLight scene (scene.intersect ray) c t) :=
      .ite (.bind (fun _ hl => hl) fun _ => .pure _) (.pure _)
    refine .ite (.ite (.pure _) ?_) (.pure _)
    exact (hlight _ _).bind fun _ => hscatter.bind fun _ => .ite (.pure _) (ih _ _ _ _)

/-- A white matte rectangle. -/
noncomputable def matteRectangle : Scene (Exact z) where
  camera := .pinhole 1 1 90 .x .identity
  root := .placed .rectangle { bsdf := some (.diffuse (.constant .one)) }

theorem binding_matteRectangle (ray : Ray (Exact z)) :
    let found := (matteRectangle.root.intersect ray (.unbounded (-ray.direction))).1
    (matteRectangle.intersect ray).binding =
      if found then some { bsdf := some (.diffuse (.constant .one)) } else none := by
  rw [Scene.intersect, matteRectangle, Shape.intersect, Binding.binding_intersect]
  · rfl
  · intro ray hit
    rw [Shape.intersect, Rectangle.intersect_eq, Encounter.binding_answer]

theorem isReal_sampleBsdf_matteRectangle (ray : Ray (Exact z)) (s : τ) :
    ((matteRectangle.intersect ray).sampleBsdf s).1.weight.IsReal := by
  have hinvalid : (BsdfSample.invalid : BsdfSample (Exact z)).weight.IsReal :=
    ⟨0, 0, 0, by simp [BsdfSample.invalid, Vec3.zero, Vec3.splat]⟩
  have hbsdf : (matteRectangle.intersect ray).bsdf? = none ∨
      (matteRectangle.intersect ray).bsdf? = some (.diffuse (.constant .one)) := by
    rw [Hit.bsdf?, binding_matteRectangle]
    split
    · exact .inr rfl
    · exact .inl rfl
  unfold Hit.sampleBsdf
  rcases hbsdf with hnone | hmatte
  · rw [hnone]
    exact hinvalid
  · rw [hmatte]
    have hone : (BsdfSample.isInvalid (⟨.zero, .one⟩ : BsdfSample (Exact z))) = false := by
      simp [BsdfSample.isInvalid, Vec3.isZero, Vec3.one, Vec3.splat]
    change ((if BsdfSample.isInvalid (⟨.zero, .one⟩ : BsdfSample (Exact z)) then pure .invalid
      else pure _ : StateM τ (BsdfSample (Exact z))) _).1.weight.IsReal
    rw [hone]
    exact Vec3.isReal_one

/-- A path of three vertices in the scene of a matte rectangle, which its ray hits. -/
theorem pathTracer_computes_truncation_matteRectangle :
    let ray : Ray (Exact .plus) := .towardsOrigin ⟨0, 0, 1⟩ 2
    let s : Replay (Exact .plus) := ⟨#[number (1 / 4), number (1 / 2)], 1, 0⟩
    (matteRectangle.intersect ray).isHit = true ∧
      (Integrator.pathTracer 3).radiance matteRectangle ray s =
        truncated matteRectangle 3 ray 0 s := by
  intro ray s
  have hmeets := Rectangle.encounter?_of_center (z := .plus) (d := ⟨0, 0, 1⟩) (a := 2) one_ne_zero
    (by norm_num)
  have hnear : ¬(Scalar.infinity : Exact .plus) ≤ number 2 :=
    fun h => Scalar.not_lt_of_le h (lt_infinity 2)
  constructor
  · rw [Hit.isHit, binding_matteRectangle, if_pos]
    · rfl
    · simp [matteRectangle, Shape.intersect, Binding.intersect_of_none, Rectangle.intersect_eq,
        Encounter.answer, ray, hmeets, hnear, Hit.unbounded, Hit.within]
  · have hreal := keeps_isReal_follow isReal_sampleBsdf_matteRectangle 3 .zero .one ray 0
      { sampler := s } (by simp [PathLog.IsReal])
    exact (pathTracer_computes_truncation matteRectangle (D := 3) (by decide) ray s).2.1 hreal

end

end Radiance
