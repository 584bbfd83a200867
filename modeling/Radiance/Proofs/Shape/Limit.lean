import Radiance.Proofs.Hierarchy.Settled
import Radiance.Proofs.Shape.Located

/-!
# A limited query agrees with the unlimited one

In exact arithmetic what a ray sees of a sound shape does not depend on the record: a record with a
limit accepts it exactly if it is nearer than the limit, and then shows the same hit.  The binding
shown is the same too, unless a group holds shapes alone beside instances; such a shape leaves the
binding of an instance behind it in the record.

## Main definitions

* `Shape.HasLook`: what the hits of a shape do to the binding of a record.
* `Shape.IsUniform`: no group mixes shapes alone with instances.

## Main statements

* `Shape.IsSound.exists_settles`: what a ray sees of a sound shape is settled.
* `Shape.IsSound.limited_agrees`: the limited query finds what the unlimited one finds.
-/

namespace Radiance

open Hierarchy (Untouched Sights)

variable {α : Type}

/-- What an instance shows of a shape: its own binding or one from inside, unless the shape leaves
open which. -/
def Look.placed (look : Look) (b : Binding α) : Look :=
  if b.hasMaterial || look ≠ .mixed then .bound else .mixed

/-- What the hits of a shape do to the binding of a record; nothing is asked of mixed shapes. -/
inductive Shape.HasLook : Shape α → Look → Prop
  | sphere : HasLook .sphere .bare
  | rectangle : HasLook .rectangle .bare
  | mesh {m : TriangleMesh α} : HasLook (.mesh m) .bare
  | group {children : Array (Shape α)} {hierarchy : Hierarchy α} {look : Look} :
      (∀ c ∈ children.toList, HasLook c look) → HasLook (.group children hierarchy) look
  | placed {inner : Shape α} {b : Binding α} {look : Look} :
      HasLook inner look → HasLook (.placed inner b) (look.placed b)
  | mixed {s : Shape α} : HasLook s .mixed

/-- No group mixes shapes alone with instances, except inside an instance with a look of its own. -/
def Shape.IsUniform (s : Shape α) : Prop := ∃ look, look ≠ .mixed ∧ s.HasLook look

/-! ## Instances -/

namespace Binding

/-- The binding that an instance shows with a sight of the shape inside. -/
def shown (b : Binding α) : Look → Sight α → Option (Binding α)
  | .bare, _ => some b
  | _, e => if e.binding.isNone || b.hasMaterial then some b else e.binding

theorem isSome_shown (b : Binding α) (look : Look) (e : Sight α) : (b.shown look e).isSome := by
  cases look <;> simp only [shown]
  · rfl
  all_goals split <;> simp_all [Option.isSome_iff_ne_none]

variable [Scalar α] {look : Look}

/-- The record of an instance shows what it makes of the sight inside. -/
theorem shows_claim {b : Binding α} {e e' : Sight α} {start before after hit : Hit α}
    (hstart : start.binding = none) (h : look.Shows e start after)
    (hhit : hit.binding = after.binding) (he : e'.binding = b.shown look e) :
    (look.placed b).Shows e' before (b.claim hit) := by
  rw [Look.placed]
  split
  next hbound =>
    refine ⟨he ▸ isSome_shown b look e, ?_⟩
    rw [claim_eq, he, hhit]
    cases look with
    | bare =>
      have hnone : after.binding = none := Eq.trans h hstart
      simp [hnone, shown]
    | bound =>
      have hsight : after.binding = e.binding := h.2
      simp [hsight, shown]
    | mixed =>
      have hmaterial : b.hasMaterial = true := by simpa using hbound
      simp [hmaterial, shown]
  · trivial

/-- An instance settles if the shape inside does, and if it compares what it makes of a sight with
its own record as the shape inside compares the sight with the record it is given. -/
theorem settles_claim {b : Binding α} {d : Option (Sight α)} {inner f : Hit α → Bool × Hit α}
    (enter : Hit α → Hit α) (carry : α → α) (place : Surface α → Surface α)
    (hinner : Settles look d inner)
    (henter : ∀ hit, Scalar.isNaN hit.t = false →
      Scalar.isNaN (enter hit).t = false ∧ (enter hit).binding = none)
    (hcarry : ∀ hit, ∀ e ∈ d, carry e.t < hit.t ↔ e.t < (enter hit).t)
    (hkept : ∀ hit, Kept hit (f hit))
    (hmiss : ∀ hit, (inner (enter hit)).1 = false → (f hit).1 = false)
    (hfound : ∀ hit, (inner (enter hit)).1 = true → f hit =
      (true, b.claim { (inner (enter hit)).2 with
        t := carry (inner (enter hit)).2.t, surface := place (inner (enter hit)).2.surface })) :
    Settles (look.placed b) (d.map fun e => ⟨⟨carry e.t, place e.surface⟩, b.shown look e⟩) f := by
  intro hit ht
  obtain ⟨hdefined, hnone⟩ := henter hit ht
  have h := hinner (enter hit) hdefined
  cases d with
  | none => exact ⟨hmiss hit h.1, (hkept hit).untouched (hmiss hit h.1)⟩
  | some e =>
    rw [Option.map_some]
    by_cases hnear : e.t < (enter hit).t
    · rw [Option.filter_some_pos (by simpa using hnear)] at h
      rw [Option.filter_some_pos (by simpa [hcarry hit e rfl] using hnear)]
      obtain ⟨hinside, htime, hsurface, hshows⟩ := h
      rw [hfound hit hinside]
      refine ⟨rfl, ?_, ?_, shows_claim hnone hshows rfl rfl⟩
      · rw [claim_eq, htime]
      · rw [claim_eq, hsurface]
    · rw [Option.filter_some_neg (by simpa using hnear)] at h
      rw [Option.filter_some_neg (by simpa [hcarry hit e rfl] using hnear)]
      exact ⟨hmiss hit h.1, (hkept hit).untouched (hmiss hit h.1)⟩

variable {b : Binding α} {inner : Ray α → Hit α → Bool × Hit α} {ray : Ray α}
  {d : Option (Sight α)}

theorem settles_of_none (hb : b.transform = none) (hkept : ∀ ray hit, Kept hit (inner ray hit))
    (hinner : Settles look d (inner ray)) :
    Settles (look.placed b)
      (d.map fun e => ⟨⟨e.t, b.applyNormalMap e.surface⟩, b.shown look e⟩)
      (b.intersect inner ray) := by
  refine settles_claim (fun hit => { hit with binding := none }) id b.applyNormalMap hinner
    (fun hit ht => ⟨ht, rfl⟩) (fun hit e _ => Iff.rfl)
    (fun hit => kept_intersect inner ray hit hkept) (fun hit hmiss => ?_) fun hit hfound => ?_
  · rw [intersect_of_none inner ray hit hb]
    simp [hmiss]
  · rw [intersect_of_none inner ray hit hb]
    simp [hfound]

end Binding

open Exact

variable {z : ZeroSign}

/-- The limit is scaled on the way in as the distance is on the way out. -/
theorem Binding.settles_of_some {b : Binding (Exact z)} {t : Transform (Exact z)} {s : ℝ}
    {inner : Ray (Exact z) → Hit (Exact z) → Bool × Hit (Exact z)} {ray : Ray (Exact z)}
    {look : Look} {d : Option (Sight (Exact z))} (hb : b.transform = some t) (hs : 0 < s)
    (hscale : t.rayScale ray = number s) (hkept : ∀ ray hit, Kept hit (inner ray hit))
    (hinner : Settles look d (inner (t.localRay ray))) :
    Settles (look.placed b)
      (d.map fun e => ⟨⟨e.t / number s, (b.placeSurface e.surface).1⟩, b.shown look e⟩)
      (b.intersect inner ray) := by
  refine settles_claim (fun hit => { hit with binding := none, t := hit.t * number s })
    (· / number s) (fun surface => (b.placeSurface surface).1) hinner (fun hit ht => ⟨?_, rfl⟩)
    (fun hit e _ => div_number_lt_iff hs) (fun hit => kept_intersect inner ray hit hkept)
    (fun hit hmiss => ?_) fun hit hfound => ?_
  · rw [isNaN_eq_false_iff] at ht ⊢
    exact mul_number_ne_undefined ht hs
  · rw [intersect_of_some inner ray hit hb, hscale]
    simp [hmiss]
  · rw [intersect_of_some inner ray hit hb, hscale]
    simp [hfound]

/-! ## Shapes -/

namespace Shape

variable {look : Look} {ray : Ray (Exact z)}

/-- What a ray sees of a shape lies where the hits of the shape lie. -/
theorem liesOn_of_settles {s : Shape (Exact z)} {box : Box (Exact z)} {d : Option (Sight (Exact z))}
    (hd : ∀ e ∈ d, ∃ τ : ℝ, e.t = number τ) (h : Settles look d (s.intersect ray))
    (hreports : ∀ hit, Reports (LiesOn ray box) hit (s.intersect ray hit)) :
    ∀ e ∈ d, LiesOn ray box e.t e.surface := by
  rintro e rfl
  obtain ⟨hfound, ht, hsurface, -⟩ := h.unlimited hd (.unbounded .zero) rfl
  rw [← ht, ← hsurface]
  exact (hreports _).found hfound

/-- An instance settles on a real distance if the shape inside does. -/
theorem exists_settles_placed {inner : Shape (Exact z)} {b : Binding (Exact z)}
    (hb : ∀ t ∈ b.transform, t.IsAffine)
    (hinner : ∀ ray : Ray (Exact z), ray.IsUnit → ∃ d, (∀ e ∈ d, ∃ τ : ℝ, e.t = number τ) ∧
      Settles look d (inner.intersect ray))
    (hray : ray.IsProper) (hunit : b.transform = none → ray.IsUnit) :
    ∃ d, (∀ e ∈ d, ∃ τ : ℝ, e.t = number τ) ∧
      Settles (look.placed b) d ((placed inner b).intersect ray) := by
  have hintersect : (placed inner b).intersect ray =
      b.intersect (fun ray hit => inner.intersect ray hit) ray := by
    funext hit
    rw [Shape.intersect]
  rw [hintersect]
  cases ht : b.transform with
  | none =>
    obtain ⟨d, hreal, hd⟩ := hinner ray (hunit ht)
    refine ⟨_, ?_, Binding.settles_of_none ht inner.kept_intersect hd⟩
    simpa using hreal
  | some t =>
    have haffine := hb t ht
    obtain ⟨s, hs, hscale⟩ := haffine.exists_rayScale hray
    obtain ⟨d, hreal, hd⟩ := hinner _ (haffine.isUnit_localRay hray)
    refine ⟨_, ?_, Binding.settles_of_some ht hs hscale inner.kept_intersect hd⟩
    rintro _ he
    obtain ⟨e, hmem, rfl⟩ := Option.mem_map.1 he
    obtain ⟨τ, hτ⟩ := hreal e hmem
    exact ⟨τ / s, by rw [← number_div _ _ hs.ne', ← hτ]⟩

/-- A group settles on one of the sights of its children.  A child counts if every box around it is
entered in front of its points. -/
theorem exists_sees_ofChildren (method : SplitMethod) {children : Array (Shape (Exact z))}
    (counts : Nat → Prop) (hray : ray.IsProper)
    (hsettles : ∀ i (hi : i < children.size), ∃ d : Option (Sight (Exact z)),
      (∀ e ∈ d, ∃ τ : ℝ, e.t = number τ) ∧ Settles look d (children[i].intersect ray))
    (hreports : ∀ i (hi : i < children.size) hit,
      Reports (LiesOn ray children[i].boundingBox) hit (children[i].intersect ray hit))
    (hcounts : ∀ i (hi : i < children.size), counts i → ∀ τ : ℝ,
      children[i].boundingBox.HasPoint (ray.pointAt (number τ)) → ∀ box : Box (Exact z),
      (∀ p, children[i].boundingBox.HasPoint p → box.HasPoint p) →
        box.rayEntry ray ray.direction.recip ≤ number τ) :
    ∃ (sights : Sights z) (d : Option (Sight (Exact z))),
      (∀ i (hi : i < children.size), (∀ e ∈ sights i, ∃ τ : ℝ, e.t = number τ) ∧
        Settles look (sights i) (children[i].intersect ray)) ∧
      Hierarchy.Sees look sights counts (List.range children.size)
        ((ofChildren method children).intersect ray) d := by
  have hchild (i : Nat) : ∃ d : Option (Sight (Exact z)), ∀ hi : i < children.size,
      (∀ e ∈ d, ∃ τ : ℝ, e.t = number τ) ∧ Settles look d (children[i].intersect ray) := by
    by_cases hi : i < children.size
    · obtain ⟨d, hd⟩ := hsettles i hi
      exact ⟨d, fun _ => hd⟩
    · exact ⟨none, fun h => absurd h hi⟩
  choose sights hsights using hchild
  have hlies (i : Nat) (hi : i < children.size) :=
    liesOn_of_settles (hsights i hi).1 (hsights i hi).2 (hreports i hi)
  have hitem {i : Nat} (hi : i < children.size) :
      (Hierarchy.item (children.map item) i).bounds = children[i].boundingBox := by
    rw [item_map hi]
    rfl
  have hsize : (children.map item).size = children.size := Array.size_map
  obtain ⟨d, hd⟩ : ∃ d, Hierarchy.Sees look sights counts (List.range (children.map item).size)
      ((ofChildren method children).intersect ray) d := by
    rw [intersect_ofChildren]
    refine Hierarchy.exists_sees_build hray (fun i hi => ?_) (fun i hi => ?_) fun i hi => ?_
    · simpa only [dif_pos (hsize ▸ hi)] using (hsights i (hsize ▸ hi)).2
    · rw [hitem (hsize ▸ hi)]
      exact hlies i (hsize ▸ hi)
    · rw [hitem (hsize ▸ hi)]
      intro hcount e he box hbox
      obtain ⟨⟨τ, hτ⟩, hposition, hpoint⟩ := hlies i (hsize ▸ hi) e he
      rw [hposition, hτ] at hpoint
      exact hτ ▸ hcounts i (hsize ▸ hi) hcount τ hpoint box hbox
  exact ⟨sights, d, hsights, hd.of_mem_iff fun i => by simp⟩

theorem exists_settles_answer {e : Option (Encounter (Exact z))}
    (he : ∀ d ∈ e, ∃ τ : ℝ, d.t = number τ) :
    ∃ d : Option (Sight (Exact z)), (∀ e ∈ d, ∃ τ : ℝ, e.t = number τ) ∧
      Settles .bare d (Encounter.answer e) := by
  refine ⟨_, ?_, Encounter.settles_answer fun d hd => ?_⟩
  · simpa using he
  · obtain ⟨τ, hτ⟩ := he d hd
    simp [hτ]

theorem exists_settles_mesh {mesh : Mesh (Exact z)} (smooth : Bool) (method : SplitMethod)
    (hmesh : mesh.IsReal) (hray : ray.IsProper) :
    ∃ d, (∀ e ∈ d, ∃ τ : ℝ, e.t = number τ) ∧
      Settles .bare d ((Shape.mesh (.ofMesh mesh smooth method)).intersect ray) := by
  let m := TriangleMesh.ofMesh mesh smooth method
  let sights : Sights z := fun i => (m.encounter? ray i).map fun d => ⟨d, none⟩
  have hlies {i : Nat} : ∀ e ∈ sights i, LiesOn ray (mesh.triangleBounds i) e.t e.surface := by
    intro e he
    obtain ⟨d, hd, rfl⟩ := Option.mem_map.1 he
    exact TriangleMesh.liesOn (m := m) hmesh hray.toIsReal hd
  have hquery : (Shape.mesh m).intersect ray =
      (Hierarchy.build method (TriangleMesh.items mesh)).intersect ray (m.queryTriangle ray) := by
    funext hit
    rw [Shape.intersect]
    rfl
  obtain ⟨d, hd⟩ : ∃ d, Hierarchy.Sees .bare sights (fun _ => False)
      (List.range (TriangleMesh.items mesh).size) ((Shape.mesh m).intersect ray) d := by
    rw [hquery]
    refine Hierarchy.exists_sees_build hray (fun i hi => ?_) (fun i hi => ?_) (by simp)
    · have hanswer : m.queryTriangle ray i = Encounter.answer (m.encounter? ray i) :=
        funext fun hit => m.queryTriangle_eq ray i hit
      rw [hanswer]
      refine Encounter.settles_answer fun d hd => ?_
      obtain ⟨⟨τ, hτ⟩, -⟩ := TriangleMesh.liesOn (m := m) hmesh hray.toIsReal hd
      simp [hτ]
    · rw [TriangleMesh.item_items hi]
      exact hlies
  exact ⟨d, hd.exists_number fun i _ e he => (hlies e he).1, hd.settles⟩

/-- What a ray sees of a sound shape is settled, whatever the record. -/
theorem IsSound.exists_settles {s : Shape (Exact z)} (hs : s.IsSound) (hlook : s.HasLook look)
    (hray : ray.IsUnit) :
    ∃ d, (∀ e ∈ d, ∃ τ : ℝ, e.t = number τ) ∧ Settles look d (s.intersect ray) := by
  induction hs generalizing look ray with
  | sphere =>
    have hsphere : Shape.sphere.intersect ray = Encounter.answer (Sphere.encounter? ray) := by
      funext hit
      rw [Shape.intersect, Sphere.intersect_eq]
    rw [hsphere]
    obtain ⟨d, hreal, hd⟩ := exists_settles_answer fun _ => Sphere.isReal_encounter? hray.toIsReal
    cases hlook with
    | sphere => exact ⟨d, hreal, hd⟩
    | mixed => exact ⟨d, hreal, hd.mixed⟩
  | rectangle =>
    have hrectangle :
        Shape.rectangle.intersect ray = Encounter.answer (Rectangle.encounter? ray) := by
      funext hit
      rw [Shape.intersect, Rectangle.intersect_eq]
    rw [hrectangle]
    obtain ⟨d, hreal, hd⟩ :=
      exists_settles_answer fun _ => Rectangle.isReal_encounter? hray.toIsReal
    cases hlook with
    | rectangle => exact ⟨d, hreal, hd⟩
    | mixed => exact ⟨d, hreal, hd.mixed⟩
  | mesh smooth method hmesh =>
    obtain ⟨d, hreal, hd⟩ := exists_settles_mesh smooth method hmesh hray.isProper
    cases hlook with
    | mesh => exact ⟨d, hreal, hd⟩
    | mixed => exact ⟨d, hreal, hd.mixed⟩
  | @group method children hchildren ih =>
    have hlooks : ∀ c ∈ children.toList, c.HasLook look := by
      unfold ofChildren at hlook
      cases hlook with
      | group h => exact h
      | mixed => exact fun _ _ => .mixed
    obtain ⟨sights, d, hsights, hd⟩ := exists_sees_ofChildren method (fun _ => False)
      hray.isProper (fun i hi => ih children[i] (by simp) (hlooks _ (by simp)) hray)
      (fun i hi => (hchildren _ (by simp)).reports_liesOn hray) (by simp)
    exact ⟨d, hd.exists_number fun i hi => (hsights i (List.mem_range.1 hi)).1, hd.settles⟩
  | @placed inner b hb _ ih =>
    cases hlook with
    | placed h =>
      exact exists_settles_placed hb (fun _ => ih h) hray.isProper fun _ => hray
    | mixed =>
      obtain ⟨d, hreal, hd⟩ :=
        exists_settles_placed hb (fun _ => ih .mixed) hray.isProper fun _ => hray
      exact ⟨d, hreal, hd.mixed⟩

/-! ## Limits -/

/-- A settled query with a limit finds what it finds without one, if that is nearer. -/
theorem limited_agrees_of_settles {d : Option (Sight (Exact z))}
    {f : Hit (Exact z) → Bool × Hit (Exact z)} (hreal : ∀ e ∈ d, ∃ τ : ℝ, e.t = number τ)
    (h : Settles look d f) (hit : Hit (Exact z)) (ht : Scalar.isNaN hit.t = false) :
    ((f hit).1 = true ↔
      (f { hit with t := Scalar.infinity }).1 = true ∧
        (f { hit with t := Scalar.infinity }).2.t < hit.t) ∧
      ((f hit).1 = true →
        (f hit).2.t = (f { hit with t := Scalar.infinity }).2.t ∧
        (f hit).2.surface = (f { hit with t := Scalar.infinity }).2.surface ∧
        (look ≠ .mixed → (f hit).2.binding = (f { hit with t := Scalar.infinity }).2.binding)) := by
  have hlimited := h hit ht
  have hfull := h.unlimited hreal { hit with t := Scalar.infinity } rfl
  generalize f hit = r at hlimited
  generalize f { hit with t := Scalar.infinity } = u at hfull
  cases d with
  | none => simp [show r.1 = false from hlimited.1, show u.1 = false from hfull.1]
  | some e =>
    obtain ⟨hufound, hut, husurface, hushows⟩ := hfull
    by_cases hnear : e.t < hit.t
    · rw [Option.filter_some_pos (by simpa using hnear)] at hlimited
      obtain ⟨hfound, hrt, hsurface, hshows⟩ := hlimited
      refine ⟨by simp [hfound, hufound, hut, hnear], fun _ => ⟨hrt.trans hut.symm,
        hsurface.trans husurface.symm, fun hlook => ?_⟩⟩
      cases look with
      | bare => exact Eq.trans hshows (Eq.symm hushows)
      | bound => exact hshows.2.trans hushows.2.symm
      | mixed => exact absurd rfl hlook
    · rw [Option.filter_some_neg (by simpa using hnear)] at hlimited
      simp [show r.1 = false from hlimited.1, hut, hnear]

/-- A limited query of a sound shape finds a hit exactly if the unlimited one finds one before the
limit, and then both show the same hit. -/
theorem IsSound.limited_agrees {s : Shape (Exact z)} (hs : s.IsSound) (hray : ray.IsUnit)
    (hit : Hit (Exact z)) (ht : Scalar.isNaN hit.t = false) :
    ((s.intersect ray hit).1 = true ↔
      (s.intersect ray { hit with t := Scalar.infinity }).1 = true ∧
        (s.intersect ray { hit with t := Scalar.infinity }).2.t < hit.t) ∧
      ((s.intersect ray hit).1 = true →
        (s.intersect ray hit).2.t = (s.intersect ray { hit with t := Scalar.infinity }).2.t ∧
        (s.intersect ray hit).2.surface =
          (s.intersect ray { hit with t := Scalar.infinity }).2.surface ∧
        (s.IsUniform → (s.intersect ray hit).2.binding =
          (s.intersect ray { hit with t := Scalar.infinity }).2.binding)) := by
  obtain ⟨d, hreal, hd⟩ := hs.exists_settles .mixed hray
  obtain ⟨hiff, hsame⟩ := limited_agrees_of_settles hreal hd hit ht
  refine ⟨hiff, fun hfound => ⟨(hsame hfound).1, (hsame hfound).2.1, ?_⟩⟩
  rintro ⟨look, hne, hlook⟩
  obtain ⟨e, hreal', he⟩ := hs.exists_settles hlook hray
  exact ((limited_agrees_of_settles hreal' he hit ht).2 hfound).2.2 hne

/-- A hit of a shape that shows bindings has one. -/
theorem IsSound.isSome_binding {s : Shape (Exact z)} (hs : s.IsSound) (hlook : s.HasLook .bound)
    (hray : ray.IsUnit) (hit : Hit (Exact z)) (ht : Scalar.isNaN hit.t = false)
    (hfound : (s.intersect ray hit).1 = true) : (s.intersect ray hit).2.binding.isSome := by
  obtain ⟨d, -, hd⟩ := hs.exists_settles hlook hray
  have h := hd hit ht
  cases hnear : d.filter fun e => decide (e.t < hit.t) with
  | none =>
    rw [hnear] at h
    simp [h.1] at hfound
  | some e =>
    rw [hnear] at h
    obtain ⟨-, -, -, hsome, hbinding⟩ := h
    rwa [hbinding]

end Shape

end Radiance
