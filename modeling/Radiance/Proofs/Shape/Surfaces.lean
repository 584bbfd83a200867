import Radiance.Proofs.Geometry.Entry
import Radiance.Proofs.Shape.Sphere
import Radiance.Proofs.Shape.Triangle
import Radiance.Shape

/-!
# Single surfaces

A sphere, a rectangle or a triangle is met by a ray at most once: each looks for its encounter
without looking at the record, and then accepts it if it is nearer.  In exact arithmetic the
encounter lies on the ray and in the box of the surface.

## Main definitions

* `Encounter`: where a ray meets a surface; `Encounter.answer` is what a record becomes.
* `LiesOn`: a hit is at a real distance along the ray, at the point of the ray there, in a box.

## Main statements

* `Sphere.intersect_eq`, `Rectangle.intersect_eq`, `TriangleMesh.queryTriangle_eq`: the queries.
* `Sphere.liesOn`, `Rectangle.liesOn`, `TriangleMesh.liesOn`: where their encounters lie.
-/

namespace Radiance

/-- A distance along a ray and the point of a surface there. -/
structure Encounter (α : Type) where
  t : α
  surface : Surface α

section

variable {α : Type} [Scalar α]

/-- What the query of a surface makes of a record, given where the ray meets the surface. -/
def Encounter.answer (e : Option (Encounter α)) (hit : Hit α) : Bool × Hit α :=
  match e with
  | none => (false, hit)
  | some e =>
    if hit.t ≤ e.t then (false, hit) else (true, { hit with t := e.t, surface := e.surface })

def Sphere.encounter? (ray : Ray α) : Option (Encounter α) :=
  (distance? ray).map fun t => ⟨t, surfaceAt (ray.pointAt t)⟩

theorem Sphere.intersect_eq (ray : Ray α) (hit : Hit α) :
    intersect ray hit = Encounter.answer (encounter? ray) hit := by
  unfold intersect encounter?
  cases distance? ray <;> rfl

def Rectangle.encounter? (ray : Ray α) : Option (Encounter α) :=
  let t := -ray.origin.z / ray.direction.z
  let p := ray.pointAt t
  if ray.direction.z == 0 then none
  else if t < Scalar.epsilon then none
  else if 1 < Scalar.abs p.x ∨ 1 < Scalar.abs p.y then none
  else some ⟨t, surfaceAt p.x p.y⟩

theorem Rectangle.intersect_eq (ray : Ray α) (hit : Hit α) :
    intersect ray hit = Encounter.answer (encounter? ray) hit := by
  unfold intersect encounter?
  grind [Encounter.answer]

def TriangleMesh.encounter? (m : TriangleMesh α) (ray : Ray α) (i : Nat) : Option (Encounter α) :=
  let (a, b, c) := m.mesh.corners i
  (Triangle.intersect? ray a b c).map fun (t, bary) => ⟨t, m.surfaceAt i (ray.pointAt t) bary⟩

theorem TriangleMesh.queryTriangle_eq (m : TriangleMesh α) (ray : Ray α) (i : Nat) (hit : Hit α) :
    m.queryTriangle ray i hit = Encounter.answer (m.encounter? ray i) hit := by
  simp only [queryTriangle, encounter?]
  cases Triangle.intersect? ray (m.mesh.corners i).1 (m.mesh.corners i).2.1
    (m.mesh.corners i).2.2 <;> rfl

end

open Exact

variable {z : ZeroSign}

/-- A hit lies on a ray, at a real distance along it, and in a box. -/
def LiesOn (ray : Ray (Exact z)) (box : Box (Exact z)) (t : Exact z) (s : Surface (Exact z)) :
    Prop :=
  (∃ τ : ℝ, t = number τ) ∧ s.position = ray.pointAt t ∧ box.HasPoint s.position

/-! ## Spheres -/

namespace Sphere

variable {ray : Ray (Exact z)}

theorem isReal_encounter? (hray : ray.IsReal) {e : Encounter (Exact z)}
    (he : encounter? ray = some e) : ∃ x : ℝ, e.t = number x := by
  obtain ⟨t, ht, rfl⟩ := Option.map_eq_some_iff.1 he
  exact isReal_distance? hray ht

theorem hasPoint_boundingBox {x y t : ℝ} (h : x * x + y * y + t * t = 1) :
    (boundingBox : Box (Exact z)).HasPoint ⟨number x, number y, number t⟩ := by
  have hbetween {v : ℝ} (hv : v * v ≤ 1) : -1 ≤ v ∧ v ≤ 1 :=
    abs_le.1 (abs_le_one_iff_mul_self_le_one.2 hv)
  have hx := mul_self_nonneg x
  have hy := mul_self_nonneg y
  have ht := mul_self_nonneg t
  refine Box.hasPoint_ofPoints ?_ ?_ ?_
  · simpa [Vec3.one, Vec3.splat] using hbetween (by linarith)
  · simpa [Vec3.one, Vec3.splat] using hbetween (by linarith)
  · simpa [Vec3.one, Vec3.splat] using hbetween (by linarith)

/-- A root along a ray with unit direction is a point of the sphere. -/
theorem encounter?_spec (hray : ray.IsUnit) {e : Encounter (Exact z)}
    (he : encounter? ray = some e) :
    ∃ τ x y w : ℝ, e = ⟨number τ, surfaceAt ⟨number x, number y, number w⟩⟩ ∧
      ray.pointAt (number τ) = ⟨number x, number y, number w⟩ ∧ x * x + y * y + w * w = 1 := by
  obtain ⟨t, ht, rfl⟩ := Option.map_eq_some_iff.1 he
  obtain ⟨τ, rfl, ⟨-, hon⟩, -⟩ := (distance?_eq_some_iff hray t).1 ht
  obtain ⟨x, y, w, hpoint⟩ := hray.toIsReal.pointAt τ
  refine ⟨τ, x, y, w, by rw [hpoint], hpoint, ?_⟩
  rwa [IsOn, hpoint, Vec3.lengthSquared, Vec3.dot, number_mul, number_mul, number_mul, number_add,
    number_add, one_eq, number_inj] at hon

/-- A point of the sphere is its own normal. -/
theorem liesOn (hray : ray.IsUnit) {e : Encounter (Exact z)} (he : encounter? ray = some e) :
    LiesOn ray boundingBox e.t e.surface := by
  obtain ⟨τ, x, y, w, rfl, hpoint, hone⟩ := encounter?_spec hray he
  have hnormal : (⟨number x, number y, number w⟩ : Vec3 (Exact z)).normalize =
      ⟨number x, number y, number w⟩ := by
    rw [Vec3.normalize, Vec3.length_mk_eq_one.2 hone, one_eq, number_div _ _ one_ne_zero]
    simp
  refine ⟨⟨τ, rfl⟩, hnormal.trans hpoint.symm, ?_⟩
  change Box.HasPoint _ (Vec3.normalize _)
  rw [hnormal]
  exact hasPoint_boundingBox hone

/-- A ray aimed at the center from outside meets the sphere one unit before the center. -/
theorem encounter?_of_center (hray : ray.IsUnit) {a : ℝ}
    (ho : ray.origin = (number (-a) : Exact z) • ray.direction) (ha : 1 + 3e-4 < a) :
    encounter? ray = some ⟨number (a - 1), surfaceAt (ray.pointAt (number (a - 1)))⟩ := by
  obtain ⟨d, e, f, hd⟩ := hray.direction
  have hunit := hray.length_eq
  rw [hd, Vec3.length_mk_eq_one] at hunit
  have hb : ray.origin.dot ray.direction = number (-a) := by
    simp only [ho, hd, Vec3.smul_mk, Vec3.dot, number_mul, number_add, number_inj]
    linear_combination -a * hunit
  have hc : ray.origin.lengthSquared - 1 = number (a * a - 1) := by
    simp only [ho, hd, Vec3.smul_mk, Vec3.lengthSquared, Vec3.dot, number_mul, number_add, one_eq,
      number_sub, number_inj]
    linear_combination a * a * hunit
  have hroots : roots? ray = some (number (a - 1), number (a + 1)) := by
    have hdisc : -a * -a - (a * a - 1) = 1 := by ring
    have hsum : -(-a) + 1 = a + 1 := by ring
    have hneg : ¬0 < -a := by linarith
    have hpos : a + 1 ≠ 0 := by linarith
    have hother : (a * a - 1) / (a + 1) = a - 1 := by
      field_simp
      ring
    simp only [roots?, hb, hc, number_mul, number_sub, number_neg, zero_eq, number_lt, hdisc]
    rw [if_neg (by norm_num), sqrt_number _ zero_le_one, Real.sqrt_one, if_neg hneg, number_add,
      hsum, number_beq, decide_eq_false hpos]
    have hless : a - 1 < a + 1 := by linarith
    simp [number_div _ _ hpos, hother, hless]
  rw [encounter?, distance?, hroots]
  have hfar : (3e-4 : ℝ) < a - 1 := by linarith
  simp [hfar]

end Sphere

/-! ## Rectangles -/

namespace Rectangle

variable {ray : Ray (Exact z)} {e : Encounter (Exact z)}

theorem encounter?_spec (hray : ray.IsReal) (he : encounter? ray = some e) :
    ∃ x : ℝ, e.t = number x ∧ (ray.pointAt (number x)).z = 0 ∧
      Scalar.abs (ray.pointAt (number x)).x ≤ 1 ∧ Scalar.abs (ray.pointAt (number x)).y ≤ 1 ∧
      e.surface = surfaceAt (ray.pointAt (number x)).x (ray.pointAt (number x)).y := by
  obtain ⟨⟨ox, oy, oz, ho⟩, ⟨dx, dy, dz, hd⟩⟩ := hray
  unfold encounter? at he
  dsimp only at he
  split at he
  · cases he
  next hne =>
  replace hne : dz ≠ 0 := by simpa [hd] using hne
  have ht : -ray.origin.z / ray.direction.z = number (-oz / dz) := by
    rw [ho, hd, number_neg, number_div _ _ hne]
  have hpoint : ray.pointAt (number (-oz / dz)) = ⟨number (ox + -oz / dz * dx),
      number (oy + -oz / dz * dy), number (oz + -oz / dz * dz)⟩ := by
    rw [Ray.pointAt, ho, hd]
    rfl
  rw [ht] at he
  split at he
  · cases he
  · split at he
    · cases he
    next hin =>
    cases he
    refine ⟨_, rfl, ?_, ?_, ?_, rfl⟩
    · rw [hpoint, zero_eq, number_inj]
      field_simp
      ring
    · rw [not_or] at hin
      rw [hpoint] at hin ⊢
      simpa using hin.1
    · rw [not_or] at hin
      rw [hpoint] at hin ⊢
      simpa using hin.2

theorem isReal_encounter? (hray : ray.IsReal) (he : encounter? ray = some e) :
    ∃ x : ℝ, e.t = number x := by
  obtain ⟨x, hx, -⟩ := encounter?_spec hray he
  exact ⟨x, hx⟩

theorem liesOn (hray : ray.IsReal) (he : encounter? ray = some e) :
    LiesOn ray boundingBox e.t e.surface := by
  obtain ⟨x, ht, hz, hx, hy, hsurface⟩ := encounter?_spec hray he
  have hposition : e.surface.position = ray.pointAt (number x) := by
    rw [hsurface]
    exact Vec3.ext rfl rfl hz.symm
  obtain ⟨a, b, c, hpoint⟩ := hray.pointAt x
  refine ⟨⟨x, ht⟩, by rw [hposition, ht], ?_⟩
  rw [hposition]
  rw [hpoint] at hx hy hz ⊢
  refine Box.hasPoint_ofPoints ?_ ?_ ?_
  · simpa [abs_le] using hx
  · simpa [abs_le] using hy
  · obtain rfl : c = 0 := by simpa using hz
    simp

/-- A ray aimed at the center meets the rectangle there. -/
theorem encounter?_of_center {d : Vec3 ℝ} {a : ℝ} (hd : d.z ≠ 0) (ha : 3e-4 ≤ a) :
    encounter? (.towardsOrigin d a : Ray (Exact z)) = some ⟨number a, surfaceAt 0 0⟩ := by
  have hpoint : (Ray.towardsOrigin d a).pointAt (number a) = (⟨0, 0, 0⟩ : Vec3 (Exact z)) := by
    simp [Ray.towardsOrigin, Ray.pointAt, Vec3.ofReal]
  have hdistance : -(Ray.towardsOrigin d a).origin.z / (Ray.towardsOrigin d a).direction.z =
      (number a : Exact z) := by
    simp [Ray.towardsOrigin, Vec3.ofReal, number_div _ _ hd, hd]
  have hdirection : ((Ray.towardsOrigin d a).direction.z == (0 : Exact z)) = false := by
    simp [Ray.towardsOrigin, Vec3.ofReal, hd]
  simp only [encounter?, hdistance, hpoint, hdirection]
  simp [not_lt.2 ha]

end Rectangle

/-! ## Triangles -/

theorem Triangle.isHit_of_intersect? {ray : Ray (Exact z)} {a b c : Vec3 ℝ} (hray : ray.IsReal)
    {t : Exact z} {bary : Vec2 (Exact z)}
    (h : intersect? ray (.ofReal a) (.ofReal b) (.ofReal c) = some (t, bary)) :
    ∃ τ u v : ℝ, t = number τ ∧ bary = ⟨number u, number v⟩ ∧
      IsHit ray (.ofReal a) (.ofReal b) (.ofReal c) τ u v := by
  have isReal (p : Vec3 ℝ) : (.ofReal p : Vec3 (Exact z)).IsReal := Vec3.isReal_iff.2 ⟨p, rfl⟩
  obtain ⟨-, τ, u, v, hhit, hanswer⟩ :=
    (intersect?_eq_some_iff hray (isReal a) (isReal b) (isReal c)).1 h
  obtain ⟨rfl, rfl⟩ := Prod.mk.inj hanswer
  exact ⟨τ, u, v, rfl, rfl, hhit⟩

/-- An interval around three numbers is around their weighted means. -/
theorem Interval.contains_mean {i : Interval (Exact z)} {a b c u v : ℝ}
    (ha : i.contains (number a) = true) (hb : i.contains (number b) = true)
    (hc : i.contains (number c) = true) (hu : 0 ≤ u) (hv : 0 ≤ v) (huv : u + v ≤ 1) :
    i.contains (number ((1 - u - v) * a + u * b + v * c)) = true := by
  have hmin : i.contains (number (a ⊓ (b ⊓ c))) = true := by
    obtain h | h := min_choice a (b ⊓ c) <;> rw [h]
    · exact ha
    · obtain h | h := min_choice b c <;> rwa [h]
  have hmax : i.contains (number (a ⊔ (b ⊔ c))) = true := by
    obtain h | h := max_choice a (b ⊔ c) <;> rw [h]
    · exact ha
    · obtain h | h := max_choice b c <;> rwa [h]
  refine contains_of_between hmin hmax ?_ ?_
  · have hlo : a ⊓ (b ⊓ c) ≤ a ∧ a ⊓ (b ⊓ c) ≤ b ∧ a ⊓ (b ⊓ c) ≤ c := by simp
    nlinarith
  · have hhi : a ≤ a ⊔ (b ⊔ c) ∧ b ≤ a ⊔ (b ⊔ c) ∧ c ≤ a ⊔ (b ⊔ c) := by simp
    nlinarith

/-- All vertices are real points. -/
def Mesh.IsReal (m : Mesh (Exact z)) : Prop := ∀ p ∈ m.positions.toList, p.IsReal

theorem Mesh.IsReal.position {m : Mesh (Exact z)} (hm : m.IsReal) (v : Nat) :
    ∃ p : Vec3 ℝ, m.position v = .ofReal p := by
  rw [← Vec3.isReal_iff, Mesh.position, Array.getD_eq_getD_getElem?]
  cases h : m.positions[v]? with
  | none => exact ⟨0, 0, 0, by simp [Vec3.zero, Vec3.splat]⟩
  | some p => exact hm p (Array.mem_toList_iff.2 (Array.mem_of_getElem? h))

theorem Mesh.IsReal.exists_corners {m : Mesh (Exact z)} (hm : m.IsReal) (i : Nat) :
    ∃ a b c : Vec3 ℝ, m.corners i = (.ofReal a, .ofReal b, .ofReal c) := by
  obtain ⟨a, ha⟩ := hm.position (m.triangle i).1
  obtain ⟨b, hb⟩ := hm.position (m.triangle i).2.1
  obtain ⟨c, hc⟩ := hm.position (m.triangle i).2.2
  refine ⟨a, b, c, ?_⟩
  rw [← ha, ← hb, ← hc]
  rfl

namespace TriangleMesh

variable {m : TriangleMesh (Exact z)} {ray : Ray (Exact z)} {i : Nat} {e : Encounter (Exact z)}

theorem liesOn (hm : m.mesh.IsReal) (hray : ray.IsReal) (he : m.encounter? ray i = some e) :
    LiesOn ray (m.mesh.triangleBounds i) e.t e.surface := by
  obtain ⟨a, b, c, hcorners⟩ := hm.exists_corners i
  rw [encounter?, hcorners] at he
  obtain ⟨⟨t, bary⟩, ht, rfl⟩ := Option.map_eq_some_iff.1 he
  obtain ⟨τ, u, v, rfl, rfl, hmeets, hu, hv, huv, -⟩ := Triangle.isHit_of_intersect? hray ht
  refine ⟨⟨τ, rfl⟩, rfl, ?_⟩
  change Box.HasPoint _ (ray.pointAt (number τ))
  rw [hmeets, Mesh.triangleBounds, hcorners]
  have hcorner (p : Vec3 ℝ)
      (hp : (.ofReal p : Vec3 (Exact z)) ∈ [.ofReal a, .ofReal b, .ofReal c]) :=
    Box.hasPoint_hull_ofReal hp
  have hpa := hcorner a (by simp)
  have hpb := hcorner b (by simp)
  have hpc := hcorner c (by simp)
  exact ⟨Interval.contains_mean hpa.x hpb.x hpc.x hu hv huv,
    Interval.contains_mean hpa.y hpb.y hpc.y hu hv huv,
    Interval.contains_mean hpa.z hpb.z hpc.z hu hv huv⟩

end TriangleMesh

end Radiance
