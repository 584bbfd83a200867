import Radiance.Integrator
import Radiance.Proofs.Scalar.Neutral

/-!
# Paths of two vertices and direct light

A path of at most two vertices gathers what the estimator of direct light gathers, in the same order
and with the same draws.  The path starts from no light and full throughput, which changes at most
the sign of a channel that is zero.

## Main definitions

* `Scene.emitted`: what the first hit of a ray emits, or the background.
* `Ray.SameLine`: rays that differ at most in their number of bounces.
* `Vec3.EqUpToZeroSign`: colors that differ at most in the signs of zeros.

## Main statements

* `Shape.intersect_congr`: a query does not look at the number of bounces.
* `directRadiance_eq`, `tracePath_two_eq`: both estimators as the same two steps after a first hit.
* `pathTracer_two_agrees_direct`: the two estimators agree.
-/

namespace Radiance

variable {α : Type}

/-! ## Rays along one line -/

/-- The same origin and direction, after any numbers of bounces. -/
structure Ray.SameLine (r r' : Ray α) : Prop where
  origin : r.origin = r'.origin
  direction : r.direction = r'.direction

variable [Scalar α] {r r' : Ray α}

theorem Box.rayEntry_congr (h : r.SameLine r') (b : Box α) (invDirection : Vec3 α) :
    b.rayEntry r invDirection = b.rayEntry r' invDirection := by
  simp only [rayEntry, h.origin]

theorem Hierarchy.Tree.query_congr (h : r.SameLine r') (indices : Array Nat)
    (invDirection : Vec3 α) (q : Query α) (t : Tree α) (hit : Hit α) :
    t.query indices r invDirection q hit = t.query indices r' invDirection q hit := by
  induction t generalizing hit with
  | leaf box first count => rfl
  | branch box left right ihl ihr =>
    have hleft : left.query indices r invDirection q = left.query indices r' invDirection q :=
      funext ihl
    have hright : right.query indices r invDirection q = right.query indices r' invDirection q :=
      funext ihr
    simp only [query, Box.rayEntry_congr h, hleft, hright]

theorem Hierarchy.intersect_congr (h : r.SameLine r') (hierarchy : Hierarchy α) {q q' : Query α}
    (hq : ∀ i hit, q i hit = q' i hit) (hit : Hit α) :
    hierarchy.intersect r q hit = hierarchy.intersect r' q' hit := by
  obtain rfl : q = q' := funext fun i => funext (hq i)
  simp only [intersect, h.direction, Box.rayEntry_congr h, Tree.query_congr h]

theorem Transform.inverseRay_congr (h : r.SameLine r') (t : Transform α) :
    (t.inverseRay r).SameLine (t.inverseRay r') := by
  refine ⟨?_, ?_⟩
  · simp only [inverseRay, h.origin]
  · simp only [inverseRay, h.direction]

theorem Ray.SameLine.pointAt (h : r.SameLine r') (t : α) : r.pointAt t = r'.pointAt t := by
  rw [Ray.pointAt, Ray.pointAt, h.origin, h.direction]

theorem Binding.intersect_congr (h : r.SameLine r') (b : Binding α)
    {inner : Ray α → Hit α → Bool × Hit α}
    (hinner : ∀ {r r' : Ray α}, r.SameLine r' → ∀ hit, inner r hit = inner r' hit) (hit : Hit α) :
    b.intersect inner r hit = b.intersect inner r' hit := by
  cases hb : b.transform with
  | none => simp only [intersect, hb, hinner h]
  | some t =>
    have hmoved := t.inverseRay_congr h
    have hlocal : Ray.SameLine
        { t.inverseRay r with
          direction := (t.inverseRay r).direction / (t.inverseRay r).direction.length }
        { t.inverseRay r' with
          direction := (t.inverseRay r').direction / (t.inverseRay r').direction.length } :=
      ⟨hmoved.origin, by simp only [hmoved.direction]⟩
    simp only [intersect, hb, hinner hlocal]
    simp only [hmoved.direction]

/-- A query does not look at the number of bounces. -/
theorem Shape.intersect_congr (h : r.SameLine r') (s : Shape α) (hit : Hit α) :
    s.intersect r hit = s.intersect r' hit := by
  fun_induction Shape.intersect s r hit generalizing r' with
  | case1 r hit =>
    rw [Shape.intersect]
    simp only [Sphere.intersect, Sphere.distance?, Sphere.roots?, h.origin, h.direction, h.pointAt]
  | case2 r hit =>
    rw [Shape.intersect]
    simp only [Rectangle.intersect, h.origin, h.direction, h.pointAt]
  | case3 r hit m =>
    rw [Shape.intersect]
    refine Hierarchy.intersect_congr h _ (fun i hit => ?_) hit
    simp only [TriangleMesh.queryTriangle, Triangle.intersect?, h.origin, h.direction, h.pointAt]
  | case4 r hit children hierarchy query =>
    rename_i ih
    rw [Shape.intersect]
    refine Hierarchy.intersect_congr h _ (fun i hit => ?_) hit
    simp only [query]
    split
    · exact ih i hit _ h
    · rfl
  | case5 r hit inner b ih =>
    rw [Shape.intersect]
    exact Binding.intersect_congr h b (fun h' hit => ih _ hit h') hit

/-! ## What a ray sees -/

omit [Scalar α] in
theorem Ray.withDepth_direction (ray : Ray α) (d : UInt32) :
    (ray.withDepth d).direction = ray.direction := rfl

omit [Scalar α] in
theorem Ray.sameLine_withDepth (ray : Ray α) (d : UInt32) : (ray.withDepth d).SameLine ray :=
  ⟨rfl, rfl⟩

namespace Scene

@[simp] theorem intersect_withDepth (scene : Scene α) (ray : Ray α) (d : UInt32) :
    scene.intersect (ray.withDepth d) = scene.intersect ray := by
  have h := ray.sameLine_withDepth d
  rw [intersect, intersect, Shape.intersect_congr h, h.direction]

/-- What the first hit of a ray emits, or the background if there is none. -/
def emitted (scene : Scene α) (ray : Ray α) : Color α :=
  let hit := scene.intersect ray
  if hit.isHit then hit.emission else scene.evaluateBackground ray.direction

theorem emitted_of_hit {scene : Scene α} {ray : Ray α} (h : (scene.intersect ray).isHit = true) :
    scene.emitted ray = (scene.intersect ray).emission := if_pos h

theorem emitted_of_miss {scene : Scene α} {ray : Ray α} (h : (scene.intersect ray).isHit = false) :
    scene.emitted ray = scene.evaluateBackground ray.direction := if_neg (by simp [h])

@[simp] theorem emitted_withDepth (scene : Scene α) (ray : Ray α) (d : UInt32) :
    scene.emitted (ray.withDepth d) = scene.emitted ray := by
  rw [emitted, emitted, intersect_withDepth, (ray.sameLine_withDepth d).direction]

end Scene

variable {σ : Type} [Sampler σ α]

/-- A path of one vertex adds what its ray sees, and draws nothing. -/
theorem tracePath_one (scene : Scene α) (radiance throughput : Color α) (ray : Ray α)
    (depth : UInt32) :
    tracePath (σ := σ) scene 1 radiance throughput ray depth =
      pure (radiance + throughput * scene.emitted ray) := by
  simp only [tracePath, Scene.emitted, or_true, if_true]
  split <;> rfl

/-! ## Colors up to the signs of zeros -/

namespace Vec3

/-- Two colors whose channels differ at most in the signs of zeros. -/
structure EqUpToZeroSign (a b : Color α) : Prop where
  x : Scalar.EqUpToZeroSign a.x b.x
  y : Scalar.EqUpToZeroSign a.y b.y
  z : Scalar.EqUpToZeroSign a.z b.z

variable [Scalar.HasNeutral α]

theorem one_mul_of_neutral (a : Color α) : one * a = a := by
  obtain ⟨x, y, z⟩ := a
  change Vec3.mk (1 * x) (1 * y) (1 * z) = _
  simp only [Scalar.HasNeutral.one_mul]

theorem EqUpToZeroSign.zero_add (a : Color α) : EqUpToZeroSign (zero + a) a :=
  ⟨Scalar.HasNeutral.zero_add a.x, Scalar.HasNeutral.zero_add a.y, Scalar.HasNeutral.zero_add a.z⟩

theorem EqUpToZeroSign.add_congr {a b : Color α} (h : EqUpToZeroSign a b) (c : Color α) :
    EqUpToZeroSign (a + c) (b + c) :=
  ⟨Scalar.HasNeutral.add_congr c.x h.x, Scalar.HasNeutral.add_congr c.y h.y,
    Scalar.HasNeutral.add_congr c.z h.z⟩

end Vec3

/-! ## Agreement -/

/-- Two outcomes of estimates: the same color up to the signs of zeros, and the same sampler. -/
structure EstimatesAgree {σ : Type} (a b : Color α × σ) : Prop where
  color : a.1.EqUpToZeroSign b.1
  sampler : a.2 = b.2

namespace Scene

/-- Radiance and the light at a hit from one light, if there are lights. -/
def addDirect (scene : Scene α) (hit : Hit α) (radiance : Color α) : StateM σ (Color α) :=
  if scene.hasLights then do
    let direct ← nextEvent scene hit
    pure (radiance + direct)
  else pure radiance

/-- Radiance and what one bounce from a hit sees. -/
def addBounce (scene : Scene α) (hit : Hit α) (radiance : Color α) : StateM σ (Color α) := do
  let sample ← hit.sampleBsdf
  if sample.isInvalid then return radiance
  else return radiance + sample.weight * scene.emitted (.towards hit.surface.position sample.wi)

variable [Scalar.HasNeutral α] (scene : Scene α) (hit : Hit α) {a b : Color α}

theorem addDirect_agree (h : a.EqUpToZeroSign b) (s : σ) :
    EstimatesAgree (scene.addDirect hit a s) (scene.addDirect hit b s) := by
  unfold addDirect
  split
  · exact ⟨h.add_congr _, rfl⟩
  · exact ⟨h, rfl⟩

theorem addBounce_agree (h : a.EqUpToZeroSign b) (s : σ) :
    EstimatesAgree (scene.addBounce hit a s) (scene.addBounce hit b s) := by
  change EstimatesAgree ((if (hit.sampleBsdf s).1.isInvalid then pure a else pure _ : StateM σ _) _)
    ((if (hit.sampleBsdf s).1.isInvalid then pure b else pure _ : StateM σ _) _)
  split
  · exact ⟨h, rfl⟩
  · exact ⟨h.add_congr _, rfl⟩

/-- Radiances that agree before the light at a hit agree after it and one bounce. -/
theorem addDirect_addBounce_agree (h : a.EqUpToZeroSign b) (s : σ) :
    EstimatesAgree ((scene.addDirect hit a >>= scene.addBounce hit) s)
      ((scene.addDirect hit b >>= scene.addBounce hit) s) := by
  have hdirect := scene.addDirect_agree hit h s
  have hbounce := scene.addBounce_agree hit hdirect.color (scene.addDirect hit a s).2
  change EstimatesAgree (scene.addBounce hit (scene.addDirect hit a s).1 _)
    (scene.addBounce hit (scene.addDirect hit b s).1 (scene.addDirect hit b s).2)
  rwa [← hdirect.sampler]

end Scene

/-- The estimator of direct light, in its two steps after the first hit. -/
theorem directRadiance_eq (scene : Scene α) (ray : Ray α) :
    directRadiance (σ := σ) scene ray =
      let hit := scene.intersect ray
      if hit.isHit ∧ hit.bsdf?.isSome then scene.addDirect hit hit.emission >>= scene.addBounce hit
      else pure (scene.emitted ray) := by
  rw [directRadiance]
  cases hhit : (scene.intersect ray).isHit with
  | false => simp [hhit, Scene.emitted_of_miss]
  | true =>
    cases hbsdf : (scene.intersect ray).bsdf? with
    | none => simp [hhit, hbsdf, Scene.emitted_of_hit]
    | some bsdf =>
      cases hlights : scene.hasLights <;>
        simp [hhit, hbsdf, hlights, Scene.addDirect, Scene.addBounce, Scene.emitted,
          Ray.withDepth_direction]

/-- A path of two vertices takes the same two steps. -/
theorem tracePath_two_eq [Scalar.HasNeutral α] (scene : Scene α) (radiance : Color α) (ray : Ray α)
    (depth : UInt32) :
    tracePath (σ := σ) scene 2 radiance .one ray depth =
      let hit := scene.intersect ray
      if hit.isHit ∧ hit.bsdf?.isSome then
        scene.addDirect hit (radiance + hit.emission) >>= scene.addBounce hit
      else pure (radiance + scene.emitted ray) := by
  rw [tracePath]
  simp only [tracePath_one, Vec3.one_mul_of_neutral, Scene.emitted_withDepth]
  cases hhit : (scene.intersect ray).isHit with
  | false => simp [hhit, Scene.emitted_of_miss]
  | true =>
    cases hbsdf : (scene.intersect ray).bsdf? with
    | none => simp [hhit, Scene.emitted_of_hit]
    | some bsdf =>
      cases hlights : scene.hasLights <;>
        simp [hlights, Scene.addDirect, Scene.addBounce]

/-- Paths of at most two vertices estimate what the estimator of direct light does: the same color
up to the signs of zero channels, from the same draws. -/
theorem pathTracer_two_agrees_direct {σ : Type} [Sampler σ Float32] (scene : Scene Float32)
    (ray : Ray Float32) (s : σ) :
    EstimatesAgree ((Integrator.pathTracer 2).radiance scene ray s)
      (Integrator.direct.radiance scene ray s) := by
  change EstimatesAgree (tracePath scene 2 .zero .one ray 0 s) (directRadiance scene ray s)
  rw [tracePath_two_eq, directRadiance_eq]
  dsimp only
  split
  · exact scene.addDirect_addBounce_agree _ (Vec3.EqUpToZeroSign.zero_add _) s
  · exact ⟨Vec3.EqUpToZeroSign.zero_add _, rfl⟩

end Radiance
