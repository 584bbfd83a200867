import Radiance.Proofs.Integrator.Recursion
import Radiance.Proofs.Scene.Physical

/-!
# Radiance is not negative and grows with depth

In a physical scene every term that an estimator gathers is a product of colors that are not
negative.  So no estimate is negative, and a path that may go on for one more vertex, from the same
draws, repeats the shorter one before it adds to it.

To speak of what a run meets on its way, it is also run with notes of the values that it asks of
materials and of the weights of its bounces.

## Main definitions

* `Noted`: a sampler with notes; `PathOps.noted` are the operations of a scene that write them.
* `Integrator.noted`: the estimators with notes.
* `Tracks`: a run with notes against the run without, while nothing negative is met.
* `PathsExtend`: paths add to the radiance that they start with.
* `Grows`: from the same draws one computation has at least the color of another.

## Main statements

* `PathsExtend.goOn`, `pathsExtend`: one vertex of a path, and whole paths.
* `tracks_direct`: direct light.
* `grows_follow`: a path that may have one more vertex.
* `radiance_isNonneg_grows`: all of it for whole estimates.
-/

namespace Radiance

/-! ## Runs with notes -/

/-- A sampler, and beside it the values that materials had so far and the weights of the bounces. -/
structure Noted (σ α : Type) where
  sampler : σ
  evaluations : List (Color α) := []
  weights : List (Color α) := []

namespace Noted

variable {σ α β : Type}

/-- A computation that notes nothing. -/
def lift (x : StateM σ β) : StateM (Noted σ α) β := fun n =>
  ((x n.sampler).1, { n with sampler := (x n.sampler).2 })

/-- Notes the value of a material. -/
def evaluation (c : Color α) : StateM (Noted σ α) Unit := fun n =>
  ((), { n with evaluations := n.evaluations ++ [c] })

/-- Notes the weight of a bounce. -/
def weight (c : Color α) : StateM (Noted σ α) Unit := fun n =>
  ((), { n with weights := n.weights ++ [c] })

end Noted

variable {α : Type} [Scalar α] {σ : Type} [Sampler σ α]

/-- The light at a hit from one light picked at random, as `nextEvent` has it, with a note of what
the material makes of it. -/
def notedEvent (scene : Scene α) (hit : Hit α) : StateM (Noted σ α) (Color α) := do
  match ← Noted.lift scene.sampleLight with
  | none => return .zero
  | some choice =>
    if choice.light.canBeIntersected then return .zero
    else
      let sample ← Noted.lift (choice.light.sampleDirect hit.surface.position)
      if sample.isInvalid then return .zero
      else if scene.occluded (.towards hit.surface.position sample.wi) sample.distance then
        return .zero
      else
        Noted.evaluation (hit.evaluateBsdf sample.wi)
        return (hit.evaluateBsdf sample.wi * sample.weight) / choice.probability

namespace PathOps

/-- The operations of a scene, with notes. -/
def noted (scene : Scene α) : PathOps (StateM (Noted σ α)) α where
  closestHit ray := pure (scene.intersect ray)
  estimate hit := notedEvent scene hit
  scatter hit := do
    let sample ← Noted.lift hit.sampleBsdf
    Noted.weight sample.weight
    return sample

section

variable {m : Type → Type} [Monad m] (ops : PathOps m α) (scene : Scene α)

/-- What a path does at a hit once its emission is gathered: it adds the light of one lamp and goes
on with a bounce. -/
def goOn (n : Nat) (radiance throughput : Color α) (hit : Hit α) (depth : UInt32) :
    m (Color α) := do
  let radiance ← ops.addLight scene hit radiance throughput
  let sample ← ops.scatter hit
  if sample.isInvalid then return radiance
  else
    ops.follow scene n radiance (throughput * sample.weight)
      ((Ray.towards hit.surface.position sample.wi).withDepth (depth + 1)) (depth + 1)

theorem follow_succ (n : Nat) (radiance throughput : Color α) (ray : Ray α) (depth : UInt32) :
    ops.follow scene (n + 1) radiance throughput ray depth = (do
      let hit ← ops.closestHit ray
      if hit.isHit then
        if hit.bsdf?.isNone ∨ n = 0 then return radiance + throughput * hit.emission
        else ops.goOn scene n (radiance + throughput * hit.emission) throughput hit depth
      else return radiance + throughput * scene.evaluateBackground ray.direction) := rfl

/-- Radiance and the light of one lamp, if there are lamps. -/
def addDirect (hit : Hit α) (radiance : Color α) : m (Color α) :=
  if scene.hasLights then do
    let direct ← ops.estimate hit
    return radiance + direct
  else return radiance

/-- The estimator of direct light over any operations. -/
def direct (ray : Ray α) : m (Color α) := do
  let hit ← ops.closestHit ray
  if hit.isHit ∧ hit.bsdf?.isSome then
    let radiance ← ops.addDirect scene hit hit.emission
    let sample ← ops.scatter hit
    if sample.isInvalid then return radiance
    else
      return radiance + sample.weight * scene.emitted (.towards hit.surface.position sample.wi)
  else return scene.emitted ray

end

/-- With the operations of a scene it is the estimator that runs. -/
theorem direct_plain (scene : Scene α) (ray : Ray α) :
    (plain scene).direct scene ray = directRadiance (σ := σ) scene ray := by
  rw [directRadiance_eq]
  rfl

end PathOps

/-- The estimators of radiance with notes.  The pictures of a property of the first hit meet no
material. -/
def Integrator.noted (integrator : Integrator α) (scene : Scene α) (ray : Ray α) :
    StateM (Noted σ α) (Color α) :=
  match integrator with
  | pathTracer maxDepth => (PathOps.noted scene).follow scene maxDepth.toNat .zero .one ray 0
  | direct => (PathOps.noted scene).direct scene ray
  | _ => Noted.lift (integrator.radiance scene ray)

/-! ## Runs that meet nothing negative -/

open Exact PathOps Sampler

section

variable {z : ZeroSign} {τ : Type} [Sampler τ (Exact z)] {β γ : Type}

/-- Draws of the unit interval ahead, and nothing negative in the notes. -/
structure Noted.IsFair (n : Noted τ (Exact z)) : Prop where
  draws : DrawsUnit n.sampler
  evaluations : ∀ c ∈ n.evaluations, c.IsNonneg
  weights : ∀ c ∈ n.weights, c.IsNonneg

/-- A run with notes does what the other does without, its result has a property, and nothing
negative is met. -/
def Tracks (P : β → Prop) (x : StateM (Noted τ (Exact z)) β) (y : StateM τ β) : Prop :=
  ∀ n, n.IsFair → ((x n).1, (x n).2.sampler) = y n.sampler ∧ P (x n).1 ∧ (x n).2.IsFair

namespace Tracks

variable {P : β → Prop} {Q : γ → Prop} {x x' : StateM (Noted τ (Exact z)) β} {y y' : StateM τ β}

theorem pure {b : β} (h : P b) :
    Tracks P (Pure.pure b : StateM (Noted τ (Exact z)) β) (Pure.pure b) := fun _ hn => ⟨rfl, h, hn⟩

theorem lift (h : Ensures DrawsUnit P y) : Tracks P (Noted.lift y) y := fun n hn =>
  ⟨rfl, (h n.sampler hn.draws).1, (h n.sampler hn.draws).2, hn.evaluations, hn.weights⟩

theorem bind {f : β → StateM (Noted τ (Exact z)) γ} {g : β → StateM τ γ} (hx : Tracks P x y)
    (hf : ∀ b, P b → Tracks Q (f b) (g b)) : Tracks Q (x >>= f) (y >>= g) := by
  intro n hn
  obtain ⟨hsame, hb, hnext⟩ := hx n hn
  obtain ⟨hsame', hresult, hlast⟩ := hf (x n).1 hb (x n).2 hnext
  refine ⟨hsame'.trans ?_, hresult, hlast⟩
  change g (x n).1 (x n).2.sampler = g (y n.sampler).1 (y n.sampler).2
  rw [← hsame]

theorem ite {c : Prop} [Decidable c] (hx : c → Tracks P x y) (hx' : ¬c → Tracks P x' y') :
    Tracks P (if c then x else x') (if c then y else y') := by
  split
  next h => exact hx h
  next h => exact hx' h

theorem mono {P' : β → Prop} (hx : Tracks P x y) (h : ∀ b, P b → P' b) : Tracks P' x y :=
  fun n hn => ⟨(hx n hn).1, h _ (hx n hn).2.1, (hx n hn).2.2⟩

/-- A value that is not negative may be noted. -/
theorem evaluation {c : Color (Exact z)} (hc : c.IsNonneg) (hx : Tracks P x y) :
    Tracks P (Noted.evaluation c >>= fun _ => x) y := by
  intro n hn
  refine hx { n with evaluations := n.evaluations ++ [c] } ⟨hn.draws, fun d hd => ?_, hn.weights⟩
  obtain hold | hnew := List.mem_append.1 hd
  · exact hn.evaluations d hold
  · exact List.mem_singleton.1 hnew ▸ hc

/-- A weight that is not negative may be noted. -/
theorem weight {c : Color (Exact z)} (hc : c.IsNonneg) (hx : Tracks P x y) :
    Tracks P (Noted.weight c >>= fun _ => x) y := by
  intro n hn
  refine hx { n with weights := n.weights ++ [c] } ⟨hn.draws, hn.evaluations, fun d hd => ?_⟩
  obtain hold | hnew := List.mem_append.1 hd
  · exact hn.weights d hold
  · exact List.mem_singleton.1 hnew ▸ hc

/-- What holds of the results of a run with notes holds of the run without. -/
theorem ensures (h : Tracks P x y) : Ensures DrawsUnit P y := by
  intro s hs
  obtain ⟨hsame, hresult, hlast⟩ := h { sampler := s } ⟨hs, by simp, by simp⟩
  rw [← hsame]
  exact ⟨hresult, hlast.draws⟩

end Tracks

/-! ## The operations of a scene -/

variable {scene : Scene (Exact z)} {hit : Hit (Exact z)} {ray : Ray (Exact z)}

/-- The light of one lamp at a hit is not negative. -/
theorem tracks_notedEvent (hscene : scene.IsPhysical) (hhit : hit.IsPhysical) :
    Tracks Vec3.IsNonneg (notedEvent scene hit) (nextEvent (σ := τ) scene hit) := by
  refine .bind (.lift hscene.ensures_sampleLight) fun choice? hchoice => ?_
  cases choice? with
  | none => exact .pure Vec3.isNonneg_zero
  | some choice =>
    obtain ⟨hlight, hprobability⟩ := hchoice choice rfl
    refine .ite (fun _ => .pure Vec3.isNonneg_zero) fun _ => ?_
    refine .bind (.lift (hlight.ensures_sampleDirect hhit.surface.position))
      fun sample hsample => ?_
    refine .ite (fun _ => .pure Vec3.isNonneg_zero) fun hvalid => ?_
    refine .ite (fun _ => .pure Vec3.isNonneg_zero) fun _ => ?_
    obtain ⟨w, hw⟩ := hsample.direction (by simpa using hvalid)
    have hvalue := hhit.evaluateBsdf w
    rw [← hw] at hvalue
    exact .evaluation hvalue (.pure ((hvalue.mul hsample.weight).div hprobability))

/-- A bounce is fair, and its weight can be noted. -/
theorem tracks_scatter (hhit : hit.IsPhysical) :
    Tracks BsdfSample.IsFair ((noted scene).scatter hit) ((plain (σ := τ) scene).scatter hit) := by
  have hplain : (plain (σ := τ) scene).scatter hit = hit.sampleBsdf >>= Pure.pure :=
    (bind_pure _).symm
  rw [hplain]
  exact .bind (.lift hhit.ensures_sampleBsdf) fun sample hsample =>
    .weight hsample.weight (.pure hsample)

/-- What a ray sees is not negative. -/
theorem Scene.IsPhysical.emitted (hscene : scene.IsPhysical) (hray : ray.IsUnit) :
    (scene.emitted ray).IsNonneg := by
  cases hhit : (scene.intersect ray).isHit with
  | true =>
    rw [Scene.emitted_of_hit hhit]
    exact (hscene.isPhysical_intersect hray hhit).emission
  | false =>
    rw [Scene.emitted_of_miss hhit]
    exact hscene.evaluateBackground hray

/-! ## Paths -/

section

variable {radiance throughput : Color (Exact z)}

/-- A color that is not negative and at least the radiance so far. -/
def Vec3.Extends (radiance c : Color (Exact z)) : Prop := c.IsNonneg ∧ radiance.AtMost c

theorem Vec3.Extends.refl (h : radiance.IsNonneg) : radiance.Extends radiance := ⟨h, .refl h⟩

theorem Vec3.Extends.trans {a b c : Color (Exact z)} (hab : a.Extends b) (hbc : b.Extends c) :
    a.Extends c := ⟨hbc.1, hab.2.trans hbc.2⟩

/-- Weighted light extends the radiance so far. -/
theorem Vec3.Extends.add {c : Color (Exact z)} (hr : radiance.IsNonneg) (ht : throughput.IsNonneg)
    (hc : c.IsNonneg) : radiance.Extends (radiance + throughput * c) :=
  ⟨hr.add (ht.mul hc), .add hr (ht.mul hc)⟩

theorem tracks_addLight (hscene : scene.IsPhysical) (hhit : hit.IsPhysical)
    (hr : radiance.IsNonneg) (ht : throughput.IsNonneg) :
    Tracks radiance.Extends ((noted scene).addLight scene hit radiance throughput)
      ((plain (σ := τ) scene).addLight scene hit radiance throughput) :=
  .ite (fun _ => .bind (tracks_notedEvent hscene hhit) fun _ hdirect => .pure (.add hr ht hdirect))
    fun _ => .pure (.refl hr)

/-- Paths of a number of vertices extend the radiance that they start with. -/
def PathsExtend (τ : Type) [Sampler τ (Exact z)] (scene : Scene (Exact z)) (n : Nat) : Prop :=
  ∀ ⦃radiance throughput : Color (Exact z)⦄ ⦃ray : Ray (Exact z)⦄ (depth : UInt32),
    radiance.IsNonneg → throughput.IsNonneg → ray.IsUnit →
    Tracks radiance.Extends ((noted scene).follow scene n radiance throughput ray depth)
      ((plain (σ := τ) scene).follow scene n radiance throughput ray depth)

/-- One vertex of a path. -/
theorem PathsExtend.goOn {n : Nat} (hnext : PathsExtend τ scene n) (hscene : scene.IsPhysical)
    (hhit : hit.IsPhysical) (hr : radiance.IsNonneg) (ht : throughput.IsNonneg) (depth : UInt32) :
    Tracks radiance.Extends ((noted scene).goOn scene n radiance throughput hit depth)
      ((plain (σ := τ) scene).goOn scene n radiance throughput hit depth) := by
  refine .bind (tracks_addLight hscene hhit hr ht) fun lit hlit => ?_
  refine .bind (tracks_scatter hhit) fun sample hsample => ?_
  refine .ite (fun _ => .pure hlit) fun hvalid => ?_
  obtain ⟨u, hu, hwi⟩ := hsample.direction (by simpa using hvalid)
  rw [hwi]
  exact (hnext (depth + 1) hlit.1 (ht.mul hsample.weight)
    (hhit.isUnit_towards hu (depth + 1))).mono fun _ => hlit.trans

/-- A path extends the radiance that it starts with. -/
theorem pathsExtend (hscene : scene.IsPhysical) (n : Nat) : PathsExtend τ scene n := by
  induction n with
  | zero => exact fun _ _ _ _ hr _ _ => .pure (.refl hr)
  | succ n ih =>
    intro radiance throughput ray depth hr ht hray
    rw [follow_succ, follow_succ]
    refine .bind (P := fun hit => hit = scene.intersect ray) (.pure rfl) fun hit hhit => ?_
    subst hhit
    refine .ite (fun hhit => ?_) fun _ => .pure (.add hr ht (hscene.evaluateBackground hray))
    have hphysical := hscene.isPhysical_intersect hray hhit
    have hemitted := Vec3.Extends.add hr ht hphysical.emission
    refine .ite (fun _ => .pure hemitted) fun _ => ?_
    exact (ih.goOn hscene hphysical hemitted.1 ht depth).mono fun _ => hemitted.trans

/-- The estimate of direct light is not negative. -/
theorem tracks_direct (hscene : scene.IsPhysical) (hray : ray.IsUnit) :
    Tracks Vec3.IsNonneg ((noted scene).direct scene ray)
      ((plain (σ := τ) scene).direct scene ray) := by
  refine .bind (P := fun hit => hit = scene.intersect ray) (.pure rfl) fun hit hhit => ?_
  subst hhit
  refine .ite (fun hhit => ?_) fun _ => .pure (hscene.emitted hray)
  have hphysical := hscene.isPhysical_intersect hray hhit.1
  have hlight : Tracks Vec3.IsNonneg
      ((noted scene).addDirect scene (scene.intersect ray) (scene.intersect ray).emission)
      ((plain (σ := τ) scene).addDirect scene (scene.intersect ray)
        (scene.intersect ray).emission) :=
    .ite (fun _ => .bind (tracks_notedEvent hscene hphysical) fun _ hdirect =>
      .pure (hphysical.emission.add hdirect)) fun _ => .pure hphysical.emission
  refine .bind hlight fun lit hlit => .bind (tracks_scatter hphysical) fun sample hsample => ?_
  refine .ite (fun _ => .pure hlit) fun hvalid => .pure (hlit.add (hsample.weight.mul ?_))
  obtain ⟨u, hu, hwi⟩ := hsample.direction (by simpa using hvalid)
  rw [hwi]
  exact hscene.emitted (hphysical.isUnit_towards hu 0)

/-! ## One more vertex -/

/-- From the same draws the second computation has at least the color of the first. -/
def Grows (x y : StateM τ (Color (Exact z))) : Prop :=
  ∀ s, DrawsUnit s → (x s).1.AtMost (y s).1

namespace Grows

variable {x x' y y' : StateM τ (Color (Exact z))}

theorem of_ensures {c : Color (Exact z)} (hy : Ensures DrawsUnit c.AtMost y) : Grows (pure c) y :=
  fun s hs => (hy s hs).1

/-- Both computations begin with the same steps. -/
theorem bind {P : β → Prop} {m : StateM τ β} {f g : β → StateM τ (Color (Exact z))}
    (hm : Ensures DrawsUnit P m) (h : ∀ b, P b → Grows (f b) (g b)) : Grows (m >>= f) (m >>= g) :=
  fun s hs => h _ (hm s hs).1 _ (hm s hs).2

theorem ite {c : Prop} [Decidable c] (hx : c → Grows x y) (hx' : ¬c → Grows x' y') :
    Grows (if c then x else x') (if c then y else y') := by
  split
  next h => exact hx h
  next h => exact hx' h

end Grows

theorem Grows.refl {c : Color (Exact z)} (hc : c.IsNonneg) :
    Grows (pure c : StateM τ (Color (Exact z))) (pure c) := .of_ensures (.pure (.refl hc))

/-- Two paths see the same at their first vertex, so they compare as they do after it. -/
theorem grows_vertex {n n' : Nat} (hscene : scene.IsPhysical) (hr : radiance.IsNonneg)
    (ht : throughput.IsNonneg) (hray : ray.IsUnit) (depth : UInt32)
    (hrest : ∀ (hit : Hit (Exact z)) (lit : Color (Exact z)), hit.IsPhysical → lit.IsNonneg →
      Grows
        (if hit.bsdf?.isNone ∨ n = 0 then pure lit
        else (plain (σ := τ) scene).goOn scene n lit throughput hit depth)
        (if hit.bsdf?.isNone ∨ n' = 0 then pure lit
        else (plain scene).goOn scene n' lit throughput hit depth)) :
    Grows ((plain (σ := τ) scene).follow scene (n + 1) radiance throughput ray depth)
      ((plain scene).follow scene (n' + 1) radiance throughput ray depth) := by
  rw [follow_succ, follow_succ]
  refine .bind (P := fun hit => hit = scene.intersect ray) (.pure rfl) fun hit hhit => ?_
  subst hhit
  refine .ite (fun hhit => ?_) fun _ => .refl (hr.add (ht.mul (hscene.evaluateBackground hray)))
  have hphysical := hscene.isPhysical_intersect hray hhit
  exact hrest _ _ hphysical (hr.add (ht.mul hphysical.emission))

/-- A path that may have one more vertex gathers at least as much.  It repeats the shorter path,
draw for draw, up to the last vertex of that one, and goes on from the radiance there. -/
theorem grows_follow (hscene : scene.IsPhysical) (n : Nat) (hr : radiance.IsNonneg)
    (ht : throughput.IsNonneg) (hray : ray.IsUnit) (depth : UInt32) :
    Grows ((plain (σ := τ) scene).follow scene (n + 1) radiance throughput ray depth)
      ((plain scene).follow scene (n + 2) radiance throughput ray depth) := by
  induction n generalizing radiance throughput ray depth with
  | zero =>
    refine grows_vertex hscene hr ht hray depth fun hit lit hhit hlit => ?_
    rw [if_pos (.inr rfl)]
    refine .of_ensures (.ite (fun _ => .pure (.refl hlit)) fun _ => ?_)
    exact (((pathsExtend hscene 1).goOn hscene hhit hlit ht depth).mono fun _ h => h.2).ensures
  | succ n ih =>
    refine grows_vertex hscene hr ht hray depth fun hit lit hhit hlit => ?_
    simp only [Nat.succ_ne_zero, or_false]
    refine .ite (fun _ => .refl hlit) fun _ => ?_
    refine .bind (tracks_addLight hscene hhit hlit ht).ensures fun lit hlit => ?_
    refine .bind (tracks_scatter hhit).ensures fun sample hsample => ?_
    refine .ite (fun _ => .refl hlit.1) fun hvalid => ?_
    obtain ⟨u, hu, hwi⟩ := hsample.direction (by simpa using hvalid)
    rw [hwi]
    exact ih hlit.1 (ht.mul hsample.weight) (hhit.isUnit_towards hu (depth + 1)) (depth + 1)

end

/-! ## Whole estimates -/

theorem tracks_pathTracer (hscene : scene.IsPhysical) (hray : ray.IsUnit) (D : UInt32) :
    Tracks Vec3.IsNonneg ((Integrator.pathTracer D).noted scene ray)
      ((Integrator.pathTracer D).radiance (σ := τ) scene ray) := by
  have hpath := pathsExtend (τ := τ) hscene D.toNat 0 Vec3.isNonneg_zero Vec3.isNonneg_one hray
  rw [follow_plain] at hpath
  exact hpath.mono fun _ h => h.1

/-- In a physical scene, along a unit ray and from draws of the unit interval, path tracing and
direct light meet no negative value of a material and no negative weight, and gather no negative
color.  A path tracer that may go one vertex deeper gathers at least as much from the same draws. -/
theorem radiance_isNonneg_grows (hscene : scene.IsPhysical) (hray : ray.IsUnit) {s : τ}
    (hs : DrawsUnit s) :
    (∀ integrator : Integrator (Exact z),
      (integrator = .direct ∨ ∃ D, integrator = .pathTracer D) →
      let run := integrator.noted scene ray { sampler := s }
      (run.1, run.2.sampler) = integrator.radiance scene ray s ∧
        (∀ value ∈ run.2.evaluations, value.IsNonneg) ∧
        (∀ weight ∈ run.2.weights, weight.IsNonneg) ∧ run.1.IsNonneg) ∧
    ∀ D : UInt32, 1 ≤ D → D.toNat + 1 < UInt32.size →
      ((Integrator.pathTracer D).radiance scene ray s).1.AtMost
        ((Integrator.pathTracer (D + 1)).radiance scene ray s).1 := by
  refine ⟨fun integrator hintegrator => ?_, fun D hD hmax => ?_⟩
  · have htracks : Tracks Vec3.IsNonneg (integrator.noted scene ray)
        (integrator.radiance (σ := τ) scene ray) := by
      obtain rfl | ⟨D, rfl⟩ := hintegrator
      · have hdirect := tracks_direct (τ := τ) hscene hray
        rw [direct_plain] at hdirect
        exact hdirect
      · exact tracks_pathTracer hscene hray D
    obtain ⟨hsame, hresult, hnotes⟩ := htracks { sampler := s } ⟨hs, by simp, by simp⟩
    exact ⟨hsame, hnotes.evaluations, hnotes.weights, hresult⟩
  · obtain ⟨n, hn⟩ : ∃ n, D.toNat = n + 1 :=
      Nat.exists_eq_add_one.2 (UInt32.le_iff_toNat_le.1 hD)
    have hsucc : (D + 1).toNat = n + 2 := by
      rw [UInt32.toNat_add]
      exact (Nat.mod_eq_of_lt hmax).trans (congrArg Nat.succ hn)
    have hgrows := grows_follow (τ := τ) hscene n Vec3.isNonneg_zero Vec3.isNonneg_one hray 0 s hs
    rw [follow_plain, follow_plain, ← hn, ← hsucc] at hgrows
    exact hgrows

/-! ### A lit rectangle -/

/-- A glowing rectangle of checkered plastic under a lamp, in front of an image. -/
noncomputable def litRectangle : Scene (Exact z) where
  camera := .pinhole 1 1 90 .x .identity
  root := .placed .rectangle
    { bsdf := some (.principled (.checkerboard .one .zero (.splat 1)) (.constant .one)
        (.constant .zero) (.constant .one))
      emission := some (.constant .one) }
  lights := #[.ofPower ⟨0, 1, 2⟩ .one, .ofDirection .unitZ .one]
  background := some ⟨.image ⟨⟨1, 1, #[.one]⟩, 2, .tile, .bilinear⟩, none⟩

theorem isPhysical_litRectangle : (litRectangle : Scene (Exact z)).IsPhysical := by
  have hone : (Vec3.one : Color (Exact z)).IsIn (Set.Icc 0 1) :=
    ⟨1, by simp, 1, by simp, 1, by simp, by simp [Vec3.one, Vec3.splat]⟩
  have hzero : (Vec3.zero : Color (Exact z)).IsIn (Set.Icc 0 1) :=
    ⟨0, by simp, 0, by simp, 0, by simp, by simp [Vec3.zero, Vec3.splat]⟩
  have hwhite : (Texture.constant .one : Texture (Exact z)).IsNonneg :=
    Texture.takesIn_constant (Vec3.isIn_Ici_iff.2 Vec3.isNonneg_one)
  have hbsdf : (Bsdf.principled (.checkerboard .one .zero (.splat 1)) (.constant .one)
      (.constant .zero) (.constant .one) : Bsdf (Texture (Exact z))).IsPhysical :=
    ⟨Texture.takesIn_checkerboard hone hzero _, hwhite.scalarIn,
      (Texture.takesIn_constant hzero).scalarIn, (Texture.takesIn_constant hone).scalarIn⟩
  refine ⟨.placed (by simp) ⟨?_, ?_⟩ .rectangle, ?_, ?_⟩
  · rintro _ ⟨⟩
    exact hbsdf
  · rintro _ ⟨⟩
    exact hwhite
  · intro light hlight
    simp only [litRectangle, Array.mem_def, List.mem_cons, List.not_mem_nil, or_false] at hlight
    obtain rfl | rfl := hlight
    · exact Light.isPhysical_ofPower ⟨0, 1, 2, by simp⟩ Vec3.isNonneg_one
    · exact Light.isPhysical_ofDirection _ Vec3.isNonneg_one
  · rintro _ ⟨⟩
    refine ⟨Texture.takesIn_image ?_ ⟨2, zero_le_two, ofNat_eq 2⟩, by simp⟩
    simpa using Vec3.isNonneg_one

/-- A path of three vertices against one of two, at a hit of the glowing side. -/
theorem radiance_isNonneg_grows_litRectangle :
    let ray : Ray (Exact .plus) := .towardsOrigin ⟨0, 0, -1⟩ 2
    let s : Replay (Exact .plus) := ⟨#[number (1 / 4), number (1 / 2)], 1, 0⟩
    let scene : Scene (Exact .plus) := litRectangle
    scene.IsPhysical ∧ ray.IsUnit ∧ DrawsUnit s ∧ (scene.intersect ray).isHit = true ∧
      (Integrator.direct.radiance scene ray s).1.IsNonneg ∧
      ((Integrator.pathTracer 2).radiance scene ray s).1.AtMost
        ((Integrator.pathTracer 3).radiance scene ray s).1 := by
  intro ray s scene
  have hray : ray.IsUnit := Ray.isUnit_towardsOrigin (by norm_num) 2
  have hs : DrawsUnit s := drawsUnit_pair (by norm_num) (by norm_num) 1 0
  have hmeets := Rectangle.encounter?_of_center (z := .plus) (d := ⟨0, 0, -1⟩) (a := 2)
    (by norm_num) (by norm_num)
  have hnear : ¬(Scalar.infinity : Exact .plus) ≤ number 2 :=
    fun h => Scalar.not_lt_of_le h (lt_infinity 2)
  have hhit : (scene.intersect ray).isHit = true := by
    simp [Hit.isHit, Scene.intersect, scene, litRectangle, Shape.intersect,
      Binding.intersect_of_none, Binding.claim_eq, Rectangle.intersect_eq, Encounter.answer, ray,
      hmeets, hnear, Hit.unbounded, Hit.within]
  have hmain := radiance_isNonneg_grows isPhysical_litRectangle hray hs
  obtain ⟨hsame, -, -, hnonneg⟩ := hmain.1 .direct (.inl rfl)
  refine ⟨isPhysical_litRectangle, hray, hs, hhit, ?_, hmain.2 2 (by decide) (by decide)⟩
  rw [← hsame]
  exact hnonneg

end

end Radiance
