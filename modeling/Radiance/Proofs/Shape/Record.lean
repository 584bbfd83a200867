import Radiance.Proofs.Geometry.Affine
import Radiance.Proofs.Hierarchy.Sequence
import Radiance.Proofs.Shape.Surfaces

/-!
# What a query does to a record

An instance changes the record before it asks the shape inside, and a group hands one record from
child to child.  All of this is undone on a miss, for any scalars; in exact arithmetic a hit is
nearer than the record before it.

## Main definitions

* `Kept`: a miss leaves the record alone but for the work counted.
* `Narrowed`: a hit is nearer than the record before.
* `Shape.IsMeasured`: the geometry that a ray comes to is real, and no instance collapses the ray.

## Main statements

* `Shape.intersect_record`: every query of every shape keeps the record, and narrows it.
-/

namespace Radiance

variable {α : Type}

/-- A miss changes nothing but the work counted; the direction back stays in any case. -/
structure Kept (before : Hit α) (result : Bool × Hit α) : Prop where
  miss : result.1 = false → result.2 = { before with stats := result.2.stats }
  wo : result.2.wo = before.wo

open Hierarchy (Sequential Untouched)

theorem Kept.sequential : Sequential (@Kept α) where
  skip hit := ⟨fun _ => rfl, rfl⟩
  countNode hit r h := ⟨h.miss, h.wo⟩
  countPrimitive hit r h := ⟨h.miss, h.wo⟩
  seq hit r s hr hs := by
    refine ⟨fun hnone => ?_, hs.wo.trans hr.wo⟩
    obtain ⟨hrnone, hsnone⟩ := Bool.or_eq_false_iff.1 hnone
    dsimp only
    rw [hs.miss hsnone, hr.miss hrnone]

theorem Kept.untouched {before : Hit α} {result : Bool × Hit α} (h : Kept before result)
    (hnone : result.1 = false) : Untouched before result.2 := by
  rw [h.miss hnone]
  exact ⟨rfl, rfl, rfl, rfl⟩

theorem kept_true {before after : Hit α} : Kept before (true, after) ↔ after.wo = before.wo :=
  ⟨fun h => h.wo, fun hwo => ⟨by simp, hwo⟩⟩

variable [Scalar α]

theorem Encounter.kept_answer (e : Option (Encounter α)) (hit : Hit α) :
    Kept hit (answer e hit) := by
  unfold answer
  split
  · exact Kept.sequential.skip hit
  · split
    · exact Kept.sequential.skip hit
    · exact ⟨by simp, rfl⟩

theorem Encounter.binding_answer (e : Option (Encounter α)) (hit : Hit α) :
    (answer e hit).2.binding = hit.binding := by
  unfold answer
  split
  · rfl
  · split <;> rfl

/-! ## Instances -/

namespace Binding

variable (b : Binding α)

theorem claim_eq (hit : Hit α) : b.claim hit =
    { hit with
      isMapped := hit.isMapped && b.mapsAt hit.surface.uv
      binding := if hit.binding.isNone || b.hasMaterial then some b else hit.binding } := by
  dsimp only [claim]
  split <;> rfl

variable {b} (inner : Ray α → Hit α → Bool × Hit α) (ray : Ray α) (hit : Hit α)

/-- Without a transform the shape inside is asked about the same ray and distance. -/
theorem intersect_of_none (hb : b.transform = none) :
    b.intersect inner ray hit =
      let r := inner ray { hit with binding := none }
      if r.1 then (true, b.claim { r.2 with surface := b.applyNormalMap r.2.surface })
      else (false, { r.2 with binding := hit.binding }) := by
  simp only [intersect, hb]
  split <;> simp_all

/-- With a transform it is asked about the local ray, in the scale of that ray. -/
theorem intersect_of_some {t : Transform α} (hb : b.transform = some t) :
    b.intersect inner ray hit =
      let r := inner (t.localRay ray) { hit with binding := none, t := hit.t * t.rayScale ray }
      if r.1 then
        (true, b.claim { r.2 with
          t := r.2.t / t.rayScale ray, surface := (b.placeSurface r.2.surface).1 })
      else (false, { r.2 with t := hit.t, binding := hit.binding }) := by
  simp only [intersect, hb]
  split <;> simp_all [Transform.rayScale, Transform.localRay]

/-- What an instance holds shows the instance, if nothing inside has a binding. -/
theorem binding_intersect (hinner : ∀ ray hit, (inner ray hit).2.binding = hit.binding) :
    (b.intersect inner ray hit).2.binding =
      if (b.intersect inner ray hit).1 then some b else hit.binding := by
  cases hb : b.transform with
  | none =>
    rw [intersect_of_none inner ray hit hb]
    dsimp only
    split <;> simp [claim_eq, hinner]
  | some t =>
    rw [intersect_of_some inner ray hit hb]
    dsimp only
    split <;> simp [claim_eq, hinner]

theorem kept_intersect (hinner : ∀ ray hit, Kept hit (inner ray hit)) :
    Kept hit (b.intersect inner ray hit) := by
  cases hb : b.transform with
  | none =>
    rw [intersect_of_none inner ray hit hb]
    have h := hinner ray { hit with binding := none }
    generalize inner ray { hit with binding := none } = r at h
    obtain ⟨found, after⟩ := r
    cases found with
    | true => simpa [kept_true, claim_eq] using kept_true.1 h
    | false =>
      have hafter : after = _ := h.miss rfl
      exact ⟨fun _ => by rw [hafter]; rfl, h.wo⟩
  | some t =>
    rw [intersect_of_some inner ray hit hb]
    have h := hinner (t.localRay ray) { hit with binding := none, t := hit.t * t.rayScale ray }
    generalize inner (t.localRay ray) { hit with binding := none, t := hit.t * t.rayScale ray } = r
      at h
    obtain ⟨found, after⟩ := r
    cases found with
    | true => simpa [kept_true, claim_eq] using kept_true.1 h
    | false =>
      have hafter : after = _ := h.miss rfl
      exact ⟨fun _ => by rw [hafter]; rfl, h.wo⟩

end Binding

/-! ## Shapes -/

/-- Every query of every shape keeps the record. -/
theorem Shape.kept_intersect (s : Shape α) (ray : Ray α) (hit : Hit α) :
    Kept hit (s.intersect ray hit) := by
  fun_induction Shape.intersect s ray hit with
  | case1 ray hit =>
    rw [Sphere.intersect_eq]
    exact Encounter.kept_answer _ hit
  | case2 ray hit =>
    rw [Rectangle.intersect_eq]
    exact Encounter.kept_answer _ hit
  | case3 ray hit m =>
    refine Kept.sequential.intersect _ ray (fun i hit => ?_) hit
    rw [TriangleMesh.queryTriangle_eq]
    exact Encounter.kept_answer _ hit
  | case4 ray hit children hierarchy query ih =>
    refine Kept.sequential.intersect _ ray (fun i hit => ?_) hit
    simp only [query]
    split
    · exact ih i hit _
    · exact Kept.sequential.skip hit
  | case5 ray hit inner b ih => exact Binding.kept_intersect _ ray hit ih

/-! ## Distances -/

/-- A hit is nearer than a record that has a distance, and a miss leaves the distance. -/
structure Narrowed (before : Hit α) (result : Bool × Hit α) : Prop where
  found : Scalar.isNaN before.t = false → result.1 = true → result.2.t < before.t
  miss : result.1 = false → result.2.t = before.t

section

variable [Scalar.IsOrdered α]

theorem Narrowed.isNaN_eq_false {before : Hit α} {result : Bool × Hit α}
    (h : Narrowed before result) (ht : Scalar.isNaN before.t = false) :
    Scalar.isNaN result.2.t = false := by
  cases hfound : result.1 with
  | true => exact (Scalar.IsOrdered.isNaN_of_lt (h.found ht hfound)).1
  | false => rwa [h.miss hfound]

theorem Narrowed.sequential : Sequential (@Narrowed α _) where
  skip hit := ⟨by simp, fun _ => rfl⟩
  countNode hit r h := ⟨h.found, h.miss⟩
  countPrimitive hit r h := ⟨h.found, h.miss⟩
  seq hit r s hr hs := by
    constructor
    · intro ht hfound
      have hrt := hr.isNaN_eq_false ht
      cases hrfound : r.1 with
      | true =>
        cases hsfound : s.1 with
        | true => exact Scalar.lt_trans (hs.found hrt hsfound) (hr.found ht hrfound)
        | false => simpa [hs.miss hsfound] using hr.found ht hrfound
      | false =>
        have hsfound : s.1 = true := by simpa [hrfound] using hfound
        simpa [hr.miss hrfound] using hs.found hrt hsfound
    · intro hnone
      obtain ⟨hrnone, hsnone⟩ := Bool.or_eq_false_iff.1 hnone
      exact (hs.miss hsnone).trans (hr.miss hrnone)

theorem Encounter.narrowed_answer {e : Option (Encounter α)}
    (he : ∀ d ∈ e, Scalar.isNaN d.t = false) (hit : Hit α) : Narrowed hit (answer e hit) := by
  unfold answer
  split
  · exact Narrowed.sequential.skip hit
  next d =>
    split
    · exact Narrowed.sequential.skip hit
    next hnear => exact ⟨fun ht _ => Scalar.lt_of_not_le (he d rfl) ht hnear, by simp⟩

end

open Exact

variable {z : ZeroSign}

/-- The geometry that a ray comes to is real, and every instance on the way keeps a positive part of
the direction. -/
inductive Shape.IsMeasured : Shape (Exact z) → Ray (Exact z) → Prop
  | sphere {ray : Ray (Exact z)} : IsMeasured .sphere ray
  | rectangle {ray : Ray (Exact z)} : IsMeasured .rectangle ray
  | mesh {ray : Ray (Exact z)} {m : TriangleMesh (Exact z)} :
      m.mesh.IsReal → IsMeasured (.mesh m) ray
  | group {ray : Ray (Exact z)} {children : Array (Shape (Exact z))}
      {hierarchy : Hierarchy (Exact z)} :
      (∀ c ∈ children.toList, IsMeasured c ray) → IsMeasured (.group children hierarchy) ray
  | plain {ray : Ray (Exact z)} {inner : Shape (Exact z)} {b : Binding (Exact z)} :
      b.transform = none → IsMeasured inner ray → IsMeasured (.placed inner b) ray
  | moved {ray : Ray (Exact z)} {inner : Shape (Exact z)} {b : Binding (Exact z)}
      {t : Transform (Exact z)} :
      b.transform = some t → t.inverse.isFinite = true → 0 < t.rayScale ray →
      IsMeasured inner (t.localRay ray) → IsMeasured (.placed inner b) ray

/-- The local ray of a finite inverse is real, and so is its scale. -/
theorem Transform.isReal_localRay {t : Transform (Exact z)} {ray : Ray (Exact z)}
    (ht : t.inverse.isFinite = true) (hray : ray.IsReal) (hscale : 0 < t.rayScale ray) :
    (t.localRay ray).IsReal ∧ ∃ s : ℝ, 0 < s ∧ t.rayScale ray = number s := by
  have hreal := isReal_inverseRay ht hray
  have hne : (t.inverseRay ray).direction ≠ .zero := by
    intro hzero
    rw [rayScale, hzero, Vec3.zero, Vec3.splat, zero_eq, Vec3.length_mk] at hscale
    simp at hscale
  obtain ⟨s, hs, hlength, hdirection, -⟩ := hreal.direction.div_length hne
  exact ⟨⟨hreal.origin, hdirection⟩, s, hs, hlength⟩

theorem Binding.narrowed_intersect_of_none {b : Binding α} {ray : Ray α}
    {inner : Ray α → Hit α → Bool × Hit α} (hb : b.transform = none)
    (hinner : ∀ hit, Narrowed hit (inner ray hit)) (hit : Hit α) :
    Narrowed hit (b.intersect inner ray hit) := by
  rw [intersect_of_none inner ray hit hb]
  have h := hinner { hit with binding := none }
  generalize inner ray { hit with binding := none } = r at h
  obtain ⟨found, after⟩ := r
  cases found with
  | true => exact ⟨fun ht _ => by simpa [claim_eq] using h.found ht rfl, by simp⟩
  | false => exact ⟨by simp, fun _ => h.miss rfl⟩

theorem Binding.narrowed_intersect_of_some {b : Binding (Exact z)} {t : Transform (Exact z)} {s : ℝ}
    {inner : Ray (Exact z) → Hit (Exact z) → Bool × Hit (Exact z)} {ray : Ray (Exact z)}
    (hb : b.transform = some t) (hs : 0 < s) (hscale : t.rayScale ray = number s)
    (hinner : ∀ hit, Narrowed hit (inner (t.localRay ray) hit)) (hit : Hit (Exact z)) :
    Narrowed hit (b.intersect inner ray hit) := by
  rw [intersect_of_some inner ray hit hb, hscale]
  have h := hinner { hit with binding := none, t := hit.t * number s }
  generalize inner (t.localRay ray) { hit with binding := none, t := hit.t * number s } = r at h
  obtain ⟨found, after⟩ := r
  cases found with
  | true =>
    refine ⟨fun ht _ => ?_, by simp⟩
    have hscaled : Scalar.isNaN (hit.t * number s) = false := by
      rw [isNaN_eq_false_iff] at ht ⊢
      exact mul_number_ne_undefined ht hs
    simpa [claim_eq, div_number_lt_iff hs] using h.found hscaled rfl
  | false => exact ⟨by simp, fun _ => rfl⟩

/-- A measured shape finds only hits nearer than the record. -/
theorem Shape.IsMeasured.narrowed {s : Shape (Exact z)} {ray : Ray (Exact z)}
    (hs : s.IsMeasured ray) (hray : ray.IsReal) (hit : Hit (Exact z)) :
    Narrowed hit (s.intersect ray hit) := by
  induction hs generalizing hit with
  | sphere =>
    rw [Shape.intersect, Sphere.intersect_eq]
    refine Encounter.narrowed_answer (fun d hd => ?_) hit
    obtain ⟨x, hx⟩ := Sphere.isReal_encounter? hray hd
    simp [hx]
  | rectangle =>
    rw [Shape.intersect, Rectangle.intersect_eq]
    refine Encounter.narrowed_answer (fun d hd => ?_) hit
    obtain ⟨x, hx⟩ := Rectangle.isReal_encounter? hray hd
    simp [hx]
  | @mesh ray m hm =>
    rw [Shape.intersect]
    refine Narrowed.sequential.intersect _ ray (fun i hit => ?_) hit
    rw [TriangleMesh.queryTriangle_eq]
    refine Encounter.narrowed_answer (fun d hd => ?_) hit
    obtain ⟨⟨x, hx⟩, -⟩ := TriangleMesh.liesOn hm hray hd
    simp [hx]
  | @group ray children hierarchy _ ih =>
    rw [Shape.intersect]
    refine Narrowed.sequential.intersect _ ray (fun i hit => ?_) hit
    split
    · exact ih _ (by simp) hray hit
    · exact Narrowed.sequential.skip hit
  | @plain ray inner b hb _ ih =>
    rw [Shape.intersect]
    exact Binding.narrowed_intersect_of_none hb (ih hray) hit
  | @moved ray inner b t hb hinverse hscale _ ih =>
    obtain ⟨hlocal, s, hs, hlength⟩ := Transform.isReal_localRay hinverse hray hscale
    rw [Shape.intersect]
    exact Binding.narrowed_intersect_of_some hb hs hlength (ih hlocal) hit

/-- A query of any shape that misses leaves the record as it was, except that more work is counted,
and one that hits leaves the direction back; this holds for any scalars, whatever their arithmetic.
In exact arithmetic a hit of a measured shape is nearer than the record before it. -/
theorem Shape.intersect_record :
    (∀ (α : Type) [Scalar α] (s : Shape α) (ray : Ray α) (hit : Hit α),
      let result := s.intersect ray hit
      (result.1 = false → result.2 = { hit with stats := result.2.stats }) ∧
        result.2.wo = hit.wo) ∧
    ∀ (z : ZeroSign) (s : Shape (Exact z)) (ray : Ray (Exact z)) (hit : Hit (Exact z)),
      ray.IsReal → s.IsMeasured ray → Scalar.isNaN hit.t = false →
      (s.intersect ray hit).1 = true → (s.intersect ray hit).2.t < hit.t := by
  refine ⟨fun α _ s ray hit => ?_, fun z s ray hit hray hs ht hfound => ?_⟩
  · have h := s.kept_intersect ray hit
    exact ⟨h.miss, h.wo⟩
  · exact (hs.narrowed hray hit).found ht hfound

/-! ### A stretched sphere -/

/-- A ray aimed at the center of a stretched sphere hits it at its radius before the center. -/
theorem Shape.intersect_stretched_sphere {b : Binding (Exact z)} {s a : ℝ} {d : Vec3 ℝ}
    (hb : b.transform = some (.stretch s)) (hs : 0 < s) (ha : 1 + 3e-4 < a / s)
    (hd : d.x * d.x + d.y * d.y + d.z * d.z = 1) {hit : Hit (Exact z)}
    (ht : number (a - s) < hit.t) :
    ((placed .sphere b).intersect (.towardsOrigin d a) hit).1 = true ∧
      ((placed .sphere b).intersect (.towardsOrigin d a) hit).2.t = number (a - s) := by
  have hscale := (Transform.localRay_stretch hs (Ray.isUnit_towardsOrigin (z := z) hd a)).1
  have hmeets := Sphere.encounter?_of_center (Ray.isUnit_towardsOrigin (z := z) hd (a / s)) rfl ha
  have hfar : (a / s - 1) / s⁻¹ = a - s := by
    field_simp
  have hinv : (0 : ℝ) < s⁻¹ := inv_pos.2 hs
  have hnear : ¬hit.t * number s⁻¹ ≤ number (a / s - 1) := by
    intro hle
    rw [← hfar, ← number_div _ _ hinv.ne', div_number_lt_iff hinv] at ht
    exact Scalar.not_lt_of_le hle ht
  rw [Shape.intersect, Binding.intersect_of_some _ _ _ hb, hscale,
    Transform.localRay_stretch_towardsOrigin hs hd]
  simp only [Shape.intersect, Sphere.intersect_eq, hmeets, Encounter.answer, hnear, if_false,
    if_true, Binding.claim_eq, number_div _ _ hinv.ne', hfar, and_self]

/-- A sphere of radius two, four units in front of the ray, is hit within a limit of three. -/
theorem Shape.intersect_record_sphere :
    let s : Shape (Exact .plus) := placed .sphere { transform := some (.stretch 2) }
    let result := s.intersect (.towardsOrigin ⟨0, 0, 1⟩ 4) (.within .zero (number 3))
    result.1 = true ∧ result.2.t < number 3 ∧ result.2.wo = .zero := by
  intro s result
  have hd : (0 : ℝ) * 0 + 0 * 0 + 1 * 1 = 1 := by norm_num
  have hray := Ray.isUnit_towardsOrigin (z := .plus) (d := ⟨0, 0, 1⟩) hd 4
  obtain ⟨hscale, -⟩ := Transform.localRay_stretch (s := 2) two_pos hray
  have hmeasured : s.IsMeasured (.towardsOrigin ⟨0, 0, 1⟩ 4) :=
    .moved rfl (Bool.and_eq_true_iff.1 (Transform.isAffine_stretch two_ne_zero).isInvertible).2
      (by simp [hscale]) .sphere
  have hfound : result.1 = true :=
    (intersect_stretched_sphere rfl two_pos (by norm_num) hd (by norm_num [Hit.within])).1
  exact ⟨hfound, intersect_record.2 _ s _ _ hray.toIsReal hmeasured (by simp [Hit.within]) hfound,
    (intersect_record.1 _ s _ _).2⟩

end Radiance
