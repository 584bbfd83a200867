import Radiance.Proofs.Scattering.Samples
import Radiance.Proofs.Shape.Rotation

/-!
# Hits under physical looks

A shape is physical if its geometry is sound and all looks that are bound to it are.  A hit of such
a shape along a unit ray has a right-handed frame and real texture coordinates, so the light that it
emits and scatters is not negative, and a bounce leaves it in some direction.

## Main definitions

* `Binding.IsPhysical`, `Shape.IsPhysical`: physical looks, and shapes under them.
* `Hit.IsPhysical`: a regular surface at real texture coordinates under a physical look, seen along
  a ray.

## Main statements

* `Shape.IsPhysical.isPhysical_hit`: the hits of a physical shape.
* `Hit.IsPhysical.emission`, `Hit.IsPhysical.evaluateBsdf`, `Hit.IsPhysical.ensures_sampleBsdf`: the
  light that leaves them.
-/

namespace Radiance

open Exact Matrix

variable {z : ZeroSign}

/-! ## Directions in a frame -/

namespace Frame

variable {f : Frame (Exact z)} {w : Fin 3 → ℝ}

/-- A direction stays one in the coordinates of a frame. -/
theorem IsRightHanded.exists_toLocal (hf : f.IsRightHanded) (w : Fin 3 → ℝ) :
    ∃ v, f.toLocal (.ofCoords w) = .ofCoords v ∧ (w ≠ 0 → v ≠ 0) := by
  obtain ⟨t, n, h, rfl⟩ := hf.exists_around
  exact ⟨axes t n *ᵥ w, toLocal_around t n w,
    Coords.mulVec_ne_zero (det_ne_zero_of_right_inverse h.axes_mul_transpose)⟩

/-- A direction in the coordinates of a frame is one of space. -/
theorem IsRightHanded.exists_toWorld (hf : f.IsRightHanded) (hw : w ≠ 0) :
    ∃ v, v ≠ 0 ∧ f.toWorld (.ofCoords w) = .ofCoords v := by
  obtain ⟨t, n, h, rfl⟩ := hf.exists_around
  exact ⟨(axes t n)ᵀ *ᵥ w,
    Coords.mulVec_ne_zero (det_ne_zero_of_right_inverse h.transpose_mul_axes) hw,
    toWorld_around t n w⟩

end Frame

/-! ## Texture coordinates -/

theorem Sphere.isReal_uv {e : Encounter (Exact z)} {ray : Ray (Exact z)} (hray : ray.IsUnit)
    (he : encounter? ray = some e) : e.surface.uv.IsReal := by
  obtain ⟨τ, x, y, w, rfl, -, hone⟩ := encounter?_spec hray he
  have hne : ![x, y, w] ≠ 0 := Coords.ne_zero_of_dotProduct_self (by
    simpa [dotProduct, Fin.sum_univ_three] using hone)
  have hnormal := Vec3.normalize_ofCoords (z := z) hne
  change (surfaceAt (.ofCoords ![x, y, w])).uv.IsReal
  simp only [surfaceAt, hnormal]
  exact Vec2.isReal_angles _ _ _

theorem Rectangle.isReal_uv {e : Encounter (Exact z)} {ray : Ray (Exact z)} (hray : ray.IsReal)
    (he : encounter? ray = some e) : e.surface.uv.IsReal := by
  obtain ⟨x, -, -, -, -, hsurface⟩ := encounter?_spec hray he
  obtain ⟨a, b, c, hpoint⟩ := hray.pointAt x
  rw [hsurface, hpoint]
  exact ⟨(a + 1) * 0.5, (b + 1) * 0.5, by simp [surfaceAt]⟩

/-- All texture coordinates of a mesh are real. -/
def Mesh.IsTextured (m : Mesh (Exact z)) : Prop := ∀ uvs ∈ m.uvs, ∀ t ∈ uvs, t.IsReal

theorem TriangleMesh.isReal_uv {m : TriangleMesh (Exact z)} {ray : Ray (Exact z)} {i : Nat}
    (hm : m.mesh.IsReal) (htextured : m.mesh.IsTextured) (hray : ray.IsReal)
    {e : Encounter (Exact z)} (he : m.encounter? ray i = some e) : e.surface.uv.IsReal := by
  obtain ⟨a, b, c, hcorners⟩ := hm.exists_corners i
  rw [encounter?, hcorners] at he
  obtain ⟨⟨t, bary⟩, ht, rfl⟩ := Option.map_eq_some_iff.1 he
  obtain ⟨τ, u, v, -, rfl, -⟩ := Triangle.isHit_of_intersect? hray ht
  simp only [surfaceAt]
  split
  next ts hts =>
    have hcoords (j : Nat) : (ts.getD j .zero).IsReal := by
      rw [Array.getD_eq_getD_getElem?]
      cases hj : ts[j]? with
      | none => exact ⟨0, 0, by simp [Vec2.zero, Vec2.splat]⟩
      | some t => exact htextured ts hts t (Array.mem_of_getElem? hj)
    obtain ⟨x₀, y₀, h₀⟩ := hcoords (m.mesh.triangle i).1
    obtain ⟨x₁, y₁, h₁⟩ := hcoords (m.mesh.triangle i).2.1
    obtain ⟨x₂, y₂, h₂⟩ := hcoords (m.mesh.triangle i).2.2
    rw [h₀, h₁, h₂, one_eq, number_sub, number_sub]
    exact ⟨_, _, rfl⟩
  · exact ⟨u, v, rfl⟩

theorem Binding.applyNormalMap_uv {α : Type} [Scalar α] (b : Binding α) (s : Surface α) :
    (b.applyNormalMap s).uv = s.uv := by
  unfold applyNormalMap
  split
  · rfl
  · dsimp only
    split <;> rfl

theorem Binding.placeSurface_uv {α : Type} [Scalar α] (b : Binding α) (s : Surface α) :
    (b.placeSurface s).1.uv = s.uv := by
  simp only [placeSurface]
  split
  · exact b.applyNormalMap_uv s
  · exact b.applyNormalMap_uv s

/-! ## Shapes -/

/-- A physical material and an emission without negative colors, whichever is there. -/
structure Binding.IsPhysical (b : Binding (Exact z)) : Prop where
  bsdf : ∀ m ∈ b.bsdf, m.IsPhysical
  emission : ∀ e ∈ b.emission, e.IsNonneg

/-- A sound shape with real texture coordinates, under physical looks alone. -/
inductive Shape.IsPhysical : Shape (Exact z) → Prop
  | sphere : IsPhysical .sphere
  | rectangle : IsPhysical .rectangle
  | mesh {mesh : Mesh (Exact z)} (smooth : Bool) (method : SplitMethod) :
      mesh.IsReal → mesh.IsTextured → IsPhysical (.mesh (.ofMesh mesh smooth method))
  | group (method : SplitMethod) {children : Array (Shape (Exact z))} :
      (∀ c ∈ children.toList, IsPhysical c) → IsPhysical (.ofChildren method children)
  | placed {inner : Shape (Exact z)} {b : Binding (Exact z)} :
      (∀ t ∈ b.transform, t.IsAffine) → b.IsPhysical → IsPhysical inner →
      IsPhysical (.placed inner b)

/-- The binding of a record keeps a property that all bindings on the way have. -/
def BindsOnly {α : Type} (P : Binding α → Prop) (before : Hit α) (result : Bool × Hit α) : Prop :=
  (∀ b ∈ before.binding, P b) → ∀ b ∈ result.2.binding, P b

theorem BindsOnly.sequential {α : Type} {P : Binding α → Prop} :
    Hierarchy.Sequential (BindsOnly P) where
  skip _ h := h
  countNode _ _ h := h
  countPrimitive _ _ h := h
  seq _ _ _ hr hs h := hs (hr h)

theorem Encounter.bindsOnly_answer {α : Type} [Scalar α] (P : Binding α → Prop)
    (e : Option (Encounter α)) (hit : Hit α) : BindsOnly P hit (answer e hit) := by
  intro h
  rwa [binding_answer]

namespace Shape.IsPhysical

variable {s : Shape (Exact z)} {ray : Ray (Exact z)}

theorem isSound (hs : s.IsPhysical) : s.IsSound := by
  induction hs with
  | sphere => exact .sphere
  | rectangle => exact .rectangle
  | mesh smooth method hreal _ => exact .mesh smooth method hreal
  | group method _ ih => exact .group method ih
  | placed hb _ _ ih => exact .placed hb ih

/-- Every hit of a physical shape has real texture coordinates. -/
theorem reports_isReal_uv (hs : s.IsPhysical) (hray : ray.IsUnit) (hit : Hit (Exact z)) :
    Reports (fun _ p => p.uv.IsReal) hit (s.intersect ray hit) := by
  induction hs generalizing ray hit with
  | sphere =>
    rw [Shape.intersect, Sphere.intersect_eq]
    exact Encounter.reports_answer (fun d hd => Sphere.isReal_uv hray hd) hit
  | rectangle =>
    rw [Shape.intersect, Rectangle.intersect_eq]
    exact Encounter.reports_answer (fun d hd => Rectangle.isReal_uv hray.toIsReal hd) hit
  | @mesh mesh smooth method hreal htextured =>
    rw [Shape.intersect]
    refine Reports.sequential.intersect_build method _ ray (fun i _ hit => ?_) hit
    rw [TriangleMesh.queryTriangle_eq]
    exact Encounter.reports_answer (fun d hd => TriangleMesh.isReal_uv
      (m := .ofMesh mesh smooth method) hreal htextured hray.toIsReal hd) hit
  | @group method children _ ih =>
    rw [intersect_ofChildren]
    refine Reports.sequential.intersect_build method _ ray (fun i hi hit => ?_) hit
    rw [Array.size_map] at hi
    simp only [dif_pos hi]
    exact ih children[i] (by simp) hray hit
  | @placed inner b hb _ _ ih =>
    refine ⟨(Shape.kept_intersect _ ray hit).untouched, fun hfound => ?_⟩
    obtain ⟨hinside, hsurface⟩ := found_of_placed hfound
    rw [hsurface, Binding.placeSurface_uv]
    exact (ih (Binding.isUnit_localRay hb hray) _).found hinside

/-- A query of a physical shape leaves a physical binding. -/
theorem bindsOnly (hs : s.IsPhysical) (ray : Ray (Exact z)) (hit : Hit (Exact z)) :
    BindsOnly Binding.IsPhysical hit (s.intersect ray hit) := by
  induction hs generalizing ray hit with
  | sphere =>
    rw [Shape.intersect, Sphere.intersect_eq]
    exact Encounter.bindsOnly_answer _ _ hit
  | rectangle =>
    rw [Shape.intersect, Rectangle.intersect_eq]
    exact Encounter.bindsOnly_answer _ _ hit
  | mesh smooth method _ _ =>
    rw [Shape.intersect]
    refine BindsOnly.sequential.intersect _ ray (fun i hit => ?_) hit
    rw [TriangleMesh.queryTriangle_eq]
    exact Encounter.bindsOnly_answer _ _ hit
  | @group method children _ ih =>
    rw [intersect_ofChildren]
    refine BindsOnly.sequential.intersect_build method _ ray (fun i hi hit => ?_) hit
    rw [Array.size_map] at hi
    simp only [dif_pos hi]
    exact ih children[i] (by simp) ray hit
  | @placed inner b _ hb _ ih =>
    intro hbefore
    have hinner := ih (b.localRay ray) (b.innerHit ray hit) (by simp)
    rw [Shape.intersect]
    cases hinside : (inner.intersect (b.localRay ray) (b.innerHit ray hit)).1 with
    | false => rwa [(b.intersect_missed inner.intersect ray hit hinside).2.2]
    | true =>
      rw [(b.intersect_found inner.intersect ray hit hinside).2.2]
      intro b' hb'
      split at hb'
      · exact Option.mem_some.1 hb' ▸ hb
      · obtain hinner' | ⟨-, hself⟩ := Option.or_eq_some_iff.1 hb'
        · exact hinner b' hinner'
        · exact Option.some.inj hself ▸ hb

end Shape.IsPhysical

/-! ## Hits -/

/-- A regular surface at real texture coordinates under a physical look, seen along a ray. -/
structure Hit.IsPhysical (hit : Hit (Exact z)) : Prop where
  surface : hit.surface.IsRegular
  uv : hit.surface.uv.IsReal
  wo : ∃ o, o ≠ 0 ∧ hit.wo = .ofCoords o
  binding : ∀ b ∈ hit.binding, b.IsPhysical

/-- Every hit of a physical shape along a unit ray is physical. -/
theorem Shape.IsPhysical.isPhysical_hit {s : Shape (Exact z)} (hs : s.IsPhysical)
    {ray : Ray (Exact z)} (hray : ray.IsUnit) {t : Exact z}
    (hfound : (s.intersect ray (.within (-ray.direction) t)).1 = true) :
    (s.intersect ray (.within (-ray.direction) t)).2.IsPhysical := by
  obtain ⟨_, d, hd, hcoords⟩ := hray.isProper.exists_coords
  refine ⟨(hs.isSound.reports_isRegular hray _).found hfound,
    (hs.reports_isReal_uv hray _).found hfound, ⟨-d, neg_ne_zero.2 hd, ?_⟩,
    hs.bindsOnly ray _ (by simp [Hit.within])⟩
  rw [(s.kept_intersect ray _).wo, hcoords]
  exact Vec3.neg_ofCoords d

namespace Hit.IsPhysical

variable {hit : Hit (Exact z)}

theorem localWo (h : hit.IsPhysical) : ∃ o, o ≠ 0 ∧ hit.localWo = .ofCoords o := by
  obtain ⟨w, hw, hwo⟩ := h.wo
  obtain ⟨o, hlocal, ho⟩ := h.surface.frame.exists_toLocal w
  exact ⟨o, ho hw, by rw [Hit.localWo, hwo, hlocal]⟩

theorem isPhysical_bsdf (h : hit.IsPhysical) {bsdf : Bsdf (Texture (Exact z))}
    (hbsdf : hit.bsdf? = some bsdf) : bsdf.IsPhysical := by
  obtain ⟨b, hb, hmaterial⟩ := Option.bind_eq_some_iff.1 hbsdf
  exact (h.binding b hb).bsdf bsdf hmaterial

/-- No hit emits negative light. -/
theorem emission (h : hit.IsPhysical) : hit.emission.IsNonneg := by
  unfold Hit.emission
  split
  next texture htexture =>
    obtain ⟨b, hb, hemission⟩ := Option.bind_eq_some_iff.1 htexture
    unfold emittedRadiance
    split
    · exact ((h.binding b hb).emission texture hemission).evaluate h.uv
    · exact Vec3.isNonneg_zero
  · exact Vec3.isNonneg_zero

/-- No hit scatters negative light. -/
theorem evaluateBsdf (h : hit.IsPhysical) (w : Fin 3 → ℝ) :
    (hit.evaluateBsdf (.ofCoords w)).IsNonneg := by
  unfold Hit.evaluateBsdf
  split
  · exact Vec3.isNonneg_zero
  next bsdf hbsdf =>
    obtain ⟨o, -, ho⟩ := h.localWo
    obtain ⟨i, hi, -⟩ := h.surface.frame.exists_toLocal w
    rw [ho, hi]
    exact (h.isPhysical_bsdf hbsdf).evaluate h.uv o i

variable {σ : Type} [Sampler σ (Exact z)]

/-- No bounce has a negative weight, and one that does not fail leaves in some direction. -/
theorem ensures_sampleBsdf (h : hit.IsPhysical) :
    Ensures Sampler.DrawsUnit BsdfSample.IsFair
      (hit.sampleBsdf : StateM σ (BsdfSample (Exact z))) := by
  unfold Hit.sampleBsdf
  split
  · exact .pure BsdfSample.isFair_invalid
  next bsdf hbsdf =>
    obtain ⟨o, ho, hlocal⟩ := h.localWo
    rw [hlocal]
    refine ((h.isPhysical_bsdf hbsdf).ensures_sample h.uv ho).bind fun s hs => ?_
    refine .ite (fun _ => .pure BsdfSample.isFair_invalid) fun hvalid => .pure ⟨hs.weight, ?_⟩
    intro _
    obtain ⟨u, hu, hwi⟩ := hs.direction (by simpa using hvalid)
    obtain ⟨v, hv, hworld⟩ := h.surface.frame.exists_toWorld hu
    refine ⟨Coords.unit v, Coords.unit_ne_zero hv, ?_⟩
    rw [hwi, hworld, Vec3.normalize_ofCoords hv]

/-- The ray of a bounce has unit length. -/
theorem isUnit_towards (h : hit.IsPhysical) {u : Fin 3 → ℝ} (hu : u ≠ 0) (depth : UInt32) :
    ((Ray.towards hit.surface.position (.ofCoords u)).withDepth depth).IsUnit := by
  have hdirection : ((Ray.towards hit.surface.position (.ofCoords u)).withDepth depth).direction =
      (.ofCoords (Coords.unit u) : Vec3 (Exact z)) := Vec3.normalize_ofCoords hu
  refine ⟨⟨h.surface.position, ?_⟩, ?_⟩
  · rw [hdirection]
    exact Vec3.isReal_ofCoords _
  · rw [hdirection, Vec3.length_ofCoords, Coords.length, Coords.unit_dotProduct_unit hu,
      Real.sqrt_one, one_eq]

end Hit.IsPhysical

end Radiance
