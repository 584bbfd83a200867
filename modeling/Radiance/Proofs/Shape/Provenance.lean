import Radiance.Proofs.Shape.Grouping

/-!
# Where a hit comes from

A record shows a surface and the instance that lends it its look.  On the way up from a leaf every
instance carries the surface on and may put its own name into the record; on a miss it puts back the
name that it found.  Since a group hands one record from child to child, a name could outlive the
hit that it belongs to.  It does not where all children of groups are instances: the record always
shows the leaf that was accepted last, carried along its path, under the name that the path decides.

## Main definitions

* `Route`: a leaf of a shape and the instances on the path to it; `Shape.Reaches` says that a shape
  has such a path.
* `Route.carry`, `Route.claimant`: what the path makes of a surface, and who lends it its look.
* `Shape.journal`: the leaves that a query accepts, in order.
* `Shape.GroupsInstances`: all children of groups are instances.

## Main statements

* `Accounts.sequentialLog`: of a sequence of queries, the last hit accounts for the record.
* `Shape.GroupsInstances.accounts`: every query is accounted for by the last leaf it accepts.
* `Shape.record_names_claimant`: what the record shows after a query.
-/

namespace Radiance

open Hierarchy (SequentialLog)

variable {α : Type}

/-- A surface at the bottom of a shape. -/
inductive Leaf (α : Type)
  | sphere
  | rectangle
  | triangle (m : TriangleMesh α) (i : Nat)

/-- A path down to a leaf, with the instances on it from the outermost on. -/
structure Route (α : Type) where
  bindings : List (Binding α)
  leaf : Leaf α

namespace Route

/-- The outermost instance with a look of its own or, if there is none, the innermost instance. -/
def claimant (route : Route α) : Option (Binding α) :=
  (route.bindings.find? (·.hasMaterial)).or route.bindings.getLast?

/-- An instance around a path claims what it has a look for, and what nobody has claimed. -/
theorem claimant_cons (b : Binding α) (route : Route α) :
    claimant ⟨b :: route.bindings, route.leaf⟩ =
      if b.hasMaterial then some b else route.claimant.or (some b) := by
  simp only [claimant]
  split
  next hb => rw [List.find?_cons_of_pos hb, Option.some_or]
  next hb => rw [List.find?_cons_of_neg hb, List.getLast?_cons, ← Option.or_some, Option.or_assoc]

end Route

namespace Shape

/-- The paths of a shape. -/
inductive Reaches : Shape α → Route α → Prop
  | sphere : Reaches .sphere ⟨[], .sphere⟩
  | rectangle : Reaches .rectangle ⟨[], .rectangle⟩
  | mesh {m : TriangleMesh α} {i : Nat} :
      i < m.mesh.triangleCount → Reaches (.mesh m) ⟨[], .triangle m i⟩
  | group {children : Array (Shape α)} {hierarchy : Hierarchy α} {c : Shape α} {route : Route α} :
      c ∈ children.toList → Reaches c route → Reaches (.group children hierarchy) route
  | placed {inner : Shape α} {b : Binding α} {route : Route α} :
      Reaches inner route → Reaches (.placed inner b) ⟨b :: route.bindings, route.leaf⟩

def IsInstance : Shape α → Prop
  | placed _ _ => True
  | _ => False

def IsGroup : Shape α → Prop
  | group _ _ => True
  | _ => False

/-- All children of groups are instances.  Meshes have the hierarchy of their triangles; the
hierarchies of groups can be any. -/
inductive GroupsInstances [Scalar α] : Shape α → Prop
  | sphere : GroupsInstances .sphere
  | rectangle : GroupsInstances .rectangle
  | mesh (mesh : Mesh α) (smooth : Bool) (method : SplitMethod) :
      GroupsInstances (.mesh (.ofMesh mesh smooth method))
  | group {children : Array (Shape α)} {hierarchy : Hierarchy α} :
      (∀ c ∈ children.toList, c.IsInstance) → (∀ c ∈ children.toList, GroupsInstances c) →
      GroupsInstances (.group children hierarchy)
  | placed {inner : Shape α} {b : Binding α} :
      GroupsInstances inner → GroupsInstances (.placed inner b)

theorem IsInstance.isSome_claimant {s : Shape α} (hs : s.IsInstance) {route : Route α}
    (h : s.Reaches route) : route.claimant.isSome := by
  cases h with
  | placed => simp [Route.claimant]
  | sphere | rectangle | mesh | group => exact hs.elim

/-- Below a group of instances, every leaf has a claimant. -/
theorem isSome_claimant_of_group {children : Array (Shape α)} {hierarchy : Hierarchy α}
    (hchildren : ∀ c ∈ children.toList, c.IsInstance) {route : Route α}
    (h : Reaches (.group children hierarchy) route) : route.claimant.isSome := by
  cases h with
  | @group _ _ c _ hc hroute => exact (hchildren c hc).isSome_claimant hroute

end Shape

variable [Scalar α]

/-! ## Instances -/

namespace Binding

/-- The ray in the space of the inner shape. -/
def localRay (b : Binding α) (ray : Ray α) : Ray α :=
  match b.transform with
  | none => ray
  | some t => t.localRay ray

/-- The record that the inner shape is asked with. -/
def innerHit (b : Binding α) (ray : Ray α) (hit : Hit α) : Hit α :=
  match b.transform with
  | none => { hit with binding := none }
  | some t => { hit with binding := none, t := hit.t * t.rayScale ray }

variable (b : Binding α) (inner : Ray α → Hit α → Bool × Hit α) (ray : Ray α) (hit : Hit α)

/-- An instance carries the surface that is found inside, and claims the hit if it has a look for it
or nobody inside has claimed it. -/
theorem intersect_found (h : (inner (b.localRay ray) (b.innerHit ray hit)).1 = true) :
    let r := inner (b.localRay ray) (b.innerHit ray hit)
    (b.intersect inner ray hit).1 = true ∧
      (b.intersect inner ray hit).2.surface = (b.placeSurface r.2.surface).1 ∧
      (b.intersect inner ray hit).2.binding =
        if b.hasMaterial then some b else r.2.binding.or (some b) := by
  have hclaim (o : Option (Binding α)) : (if o.isNone || b.hasMaterial then some b else o) =
      if b.hasMaterial then some b else o.or (some b) := by
    cases o <;> simp
  cases hb : b.transform with
  | none =>
    simp only [localRay, innerHit, hb] at h ⊢
    simp only [intersect_of_none inner ray hit hb, h, claim_eq, placeSurface, hb, if_true, hclaim,
      and_self]
  | some t =>
    simp only [localRay, innerHit, hb] at h ⊢
    simp only [intersect_of_some inner ray hit hb, h, claim_eq, if_true, hclaim, and_self]

/-- An instance in which nothing is found puts back the binding. -/
theorem intersect_missed (h : (inner (b.localRay ray) (b.innerHit ray hit)).1 = false) :
    (b.intersect inner ray hit).1 = false ∧
      (b.intersect inner ray hit).2.surface =
        (inner (b.localRay ray) (b.innerHit ray hit)).2.surface ∧
      (b.intersect inner ray hit).2.binding = hit.binding := by
  cases hb : b.transform with
  | none =>
    simp only [localRay, innerHit, hb] at h ⊢
    simp [intersect_of_none inner ray hit hb, h]
  | some t =>
    simp only [localRay, innerHit, hb] at h ⊢
    simp [intersect_of_some inner ray hit hb, h]

@[simp] theorem innerHit_binding : (b.innerHit ray hit).binding = none := by
  unfold innerHit
  split <;> rfl

@[simp] theorem innerHit_surface : (b.innerHit ray hit).surface = hit.surface := by
  unfold innerHit
  split <;> rfl

end Binding

/-! ## Paths -/

/-- Where a ray meets a leaf, in the space of the leaf. -/
def Leaf.encounter? (ray : Ray α) : Leaf α → Option (Encounter α)
  | sphere => Sphere.encounter? ray
  | rectangle => Rectangle.encounter? ray
  | triangle m i => m.encounter? ray i

namespace Route

/-- The ray in the space of the leaf. -/
def localRay (route : Route α) (ray : Ray α) : Ray α :=
  route.bindings.foldl (fun ray b => b.localRay ray) ray

/-- A surface of the leaf, carried by the instances from the innermost to the outermost. -/
def carry (route : Route α) (s : Surface α) : Surface α :=
  route.bindings.foldr (fun b s => (b.placeSurface s).1) s

/-- A record shows the leaf of a path.  A path without instances leaves the binding that was there
before. -/
structure Shows (route : Route α) (ray : Ray α) (before : Option (Binding α)) (hit : Hit α) :
    Prop where
  surface : ∃ e, route.leaf.encounter? (route.localRay ray) = some e ∧
    hit.surface = route.carry e.surface
  binding : hit.binding = route.claimant.or before

end Route

/-! ## Journals -/

/-- The entry for a route, if it has been found. -/
def Route.entry (route : Route α) (found : Bool) : List (Route α) := if found then [route] else []

/-- The leaves that a query accepts, in order.  The last entry belongs to the last change of the
record. -/
def Shape.journal (s : Shape α) (ray : Ray α) (hit : Hit α) : List (Route α) :=
  match s with
  | sphere => Route.entry ⟨[], .sphere⟩ (Sphere.intersect ray hit).1
  | rectangle => Route.entry ⟨[], .rectangle⟩ (Rectangle.intersect ray hit).1
  | mesh m =>
    (m.hierarchy.visits ray (m.queryTriangle ray) hit).flatMap fun (i, hit) =>
      Route.entry ⟨[], .triangle m i⟩ (m.queryTriangle ray i hit).1
  | group children hierarchy =>
    let query i hit :=
      if h : i < children.size then children[i].intersect ray hit else (false, hit)
    (hierarchy.visits ray query hit).flatMap fun (i, hit) =>
      if h : i < children.size then children[i].journal ray hit else []
  | placed inner b =>
    (inner.journal (b.localRay ray) (b.innerHit ray hit)).map fun route =>
      ⟨b :: route.bindings, route.leaf⟩
  termination_by s

/-- The last entry of the log accounts for the record after a query; without an entry nothing has
changed. -/
structure Accounts (P : Route α → Prop) (ray : Ray α) (before : Hit α) (result : Bool × Hit α)
    (log : List (Route α)) : Prop where
  found : result.1 = true → ∃ route ∈ log.getLast?, P route ∧
    route.Shows ray before.binding result.2
  missed : result.1 = false →
    log = [] ∧ result.2.surface = before.surface ∧ result.2.binding = before.binding

namespace Accounts

variable {P Q : Route α → Prop} {ray : Ray α} {before : Hit α} {result : Bool × Hit α}
  {log : List (Route α)}

theorem mono (h : Accounts P ray before result log) (hPQ : ∀ route, P route → Q route) :
    Accounts Q ray before result log := by
  refine ⟨fun hfound => ?_, h.missed⟩
  obtain ⟨route, hlast, hP, hshows⟩ := h.found hfound
  exact ⟨route, hlast, hPQ route hP, hshows⟩

/-- Paths without instances do not change the binding. -/
theorem binding_eq (h : Accounts P ray before result log)
    (hbare : ∀ route, P route → route.claimant = none) : result.2.binding = before.binding := by
  cases hresult : result.1 with
  | false => exact (h.missed hresult).2.2
  | true =>
    obtain ⟨route, -, hroute, hshows⟩ := h.found hresult
    rw [hshows.binding, hbare route hroute, Option.none_or]

/-- Of a sequence of queries, the last hit accounts for the record, if all paths have instances or
none has: then the binding does not depend on the hits before. -/
theorem sequentialLog (hP : (∀ route, P route → route.claimant = none) ∨
    ∀ route, P route → route.claimant.isSome) : SequentialLog (Accounts P ray) where
  skip hit := ⟨nofun, fun _ => ⟨rfl, rfl, rfl⟩⟩
  countNode hit r log h := ⟨h.found, h.missed⟩
  countPrimitive hit r log h := ⟨h.found, h.missed⟩
  seq := by
    intro hit r s log more hr hs
    constructor
    · intro hfound
      cases hsfound : s.1 with
      | false =>
        -- The second query leaves the hit of the first one in place.
        obtain ⟨rfl, hsurface, hbinding⟩ := hs.missed hsfound
        have hrfound : r.1 = true := by simpa [hsfound] using hfound
        obtain ⟨route, hlast, hroute, hshows⟩ := hr.found hrfound
        refine ⟨route, by simpa using hlast, hroute, ?_, hbinding.trans hshows.binding⟩
        rw [hsurface]
        exact hshows.surface
      | true =>
        obtain ⟨route, hlast, hroute, hshows⟩ := hs.found hsfound
        refine ⟨route, by simp [Option.mem_def.1 hlast], hroute, hshows.surface, ?_⟩
        rw [hshows.binding]
        rcases hP with hbare | hbound
        · rw [hbare route hroute, Option.none_or, Option.none_or]
          exact hr.binding_eq hbare
        · obtain ⟨b, hb⟩ := Option.isSome_iff_exists.1 (hbound route hroute)
          rw [hb, Option.some_or, Option.some_or]
    · intro hnone
      obtain ⟨hrnone, hsnone⟩ := Bool.or_eq_false_iff.1 hnone
      obtain ⟨rfl, hrsurface, hrbinding⟩ := hr.missed hrnone
      obtain ⟨rfl, hssurface, hsbinding⟩ := hs.missed hsnone
      exact ⟨rfl, hssurface.trans hrsurface, hsbinding.trans hrbinding⟩

/-- The leaf of a path without instances answers for itself. -/
theorem answer (leaf : Leaf α) (hP : P ⟨[], leaf⟩) (ray : Ray α) (hit : Hit α) :
    Accounts P ray hit (Encounter.answer (leaf.encounter? ray) hit)
      (Route.entry ⟨[], leaf⟩ (Encounter.answer (leaf.encounter? ray) hit).1) := by
  have hbinding := Encounter.binding_answer (leaf.encounter? ray) hit
  constructor
  · intro hfound
    have hreports := Encounter.reports_answer
      (P := fun _ s => ∃ e, leaf.encounter? ray = some e ∧ s = e.surface)
      (fun e he => ⟨e, he, rfl⟩) hit
    exact ⟨⟨[], leaf⟩, by simp [Route.entry, hfound], hP, hreports.found hfound, hbinding⟩
  · intro hnone
    refine ⟨by simp [Route.entry, hnone], ?_, hbinding⟩
    rw [(Encounter.kept_answer _ hit).miss hnone]

/-- An instance carries the hit of the shape inside. -/
theorem placed {b : Binding α} {inner : Ray α → Hit α → Bool × Hit α} {ray : Ray α} {hit : Hit α}
    (hPQ : ∀ route, P route → Q ⟨b :: route.bindings, route.leaf⟩)
    (h : Accounts P (b.localRay ray) (b.innerHit ray hit)
      (inner (b.localRay ray) (b.innerHit ray hit)) log) :
    Accounts Q ray hit (b.intersect inner ray hit)
      (log.map fun route => ⟨b :: route.bindings, route.leaf⟩) := by
  cases hinner : (inner (b.localRay ray) (b.innerHit ray hit)).1 with
  | false =>
    obtain ⟨hnone, hsurface, hbinding⟩ := b.intersect_missed inner ray hit hinner
    obtain ⟨rfl, hkept, -⟩ := h.missed hinner
    refine ⟨fun hfound => absurd hfound (by simp [hnone]), fun _ => ⟨rfl, ?_, hbinding⟩⟩
    rw [hsurface, hkept, Binding.innerHit_surface]
  | true =>
    obtain ⟨hfound, hsurface, hbinding⟩ := b.intersect_found inner ray hit hinner
    obtain ⟨route, hlast, hroute, ⟨e, he, hcarried⟩, hclaimed⟩ := h.found hinner
    rw [Binding.innerHit_binding, Option.or_none] at hclaimed
    refine ⟨fun _ => ⟨⟨b :: route.bindings, route.leaf⟩, ?_, hPQ route hroute, ⟨e, he, ?_⟩, ?_⟩,
      fun hnone => absurd hnone (by simp [hfound])⟩
    · rw [List.getLast?_map, Option.mem_def.1 hlast]
      rfl
    · rw [hsurface, hcarried]
      rfl
    · rw [hbinding, hclaimed, Route.claimant_cons]
      split <;> simp

end Accounts

/-! ## Shapes -/

namespace Shape

/-- What is accepted last accounts for the record, at every level of a shape. -/
theorem GroupsInstances.accounts {s : Shape α} (hs : s.GroupsInstances) (ray : Ray α)
    (hit : Hit α) : Accounts s.Reaches ray hit (s.intersect ray hit) (s.journal ray hit) := by
  induction hs generalizing ray hit with
  | sphere =>
    rw [Shape.intersect, journal, Sphere.intersect_eq]
    exact Accounts.answer .sphere Reaches.sphere ray hit
  | rectangle =>
    rw [Shape.intersect, journal, Rectangle.intersect_eq]
    exact Accounts.answer .rectangle Reaches.rectangle ray hit
  | mesh mesh smooth method =>
    rw [Shape.intersect, journal]
    have hlog : SequentialLog (Accounts (Reaches (.mesh (.ofMesh mesh smooth method))) ray) := by
      refine Accounts.sequentialLog (.inl ?_)
      rintro _ ⟨⟩
      rfl
    refine hlog.intersect_build _ method _ ray (fun i hi hit => ?_) hit
    dsimp only
    rw [TriangleMesh.queryTriangle_eq]
    refine Accounts.answer (.triangle _ i) (Reaches.mesh ?_) ray hit
    simpa [TriangleMesh.items, TriangleMesh.ofMesh] using hi
  | @group children hierarchy hinstances _ ih =>
    rw [Shape.intersect, journal]
    have hlog : SequentialLog (Accounts (Reaches (.group children hierarchy)) ray) :=
      Accounts.sequentialLog (.inr fun _ => isSome_claimant_of_group hinstances)
    refine hlog.intersect _ hierarchy ray (fun i hit => ?_) hit
    by_cases hi : i < children.size
    · simp only [dif_pos hi]
      have hmem : children[i] ∈ children.toList := by simp
      exact (ih _ hmem ray hit).mono fun route hroute => .group hmem hroute
    · simp only [dif_neg hi]
      exact hlog.skip hit
  | placed _ ih =>
    rw [Shape.intersect, journal]
    exact (ih _ _).placed fun route hroute => .placed hroute

/-- If all children of groups are instances and the root is an instance or a group, a record always
names the right material.  After a hit it shows the leaf that was accepted last, carried by the
instances on its path from the innermost to the outermost, and it is bound to the outermost of them
that has a look of its own, or to the innermost if none has.  After a miss the binding is the one
before. -/
theorem record_names_claimant (s : Shape α) (hs : s.GroupsInstances)
    (hroot : s.IsInstance ∨ s.IsGroup) (ray : Ray α) (hit : Hit α) :
    ((s.intersect ray hit).1 = true → ∃ (route : Route α) (e : Encounter α) (b : Binding α),
      (s.journal ray hit).getLast? = some route ∧ s.Reaches route ∧
      route.leaf.encounter? (route.localRay ray) = some e ∧
      (s.intersect ray hit).2.surface = route.carry e.surface ∧
      route.claimant = some b ∧ (s.intersect ray hit).2.binding = some b) ∧
    ((s.intersect ray hit).1 = false →
      s.journal ray hit = [] ∧ (s.intersect ray hit).2.binding = hit.binding) := by
  have haccounts := hs.accounts ray hit
  constructor
  · intro hfound
    obtain ⟨route, hlast, hroute, ⟨e, he, hsurface⟩, hbinding⟩ := haccounts.found hfound
    have hclaimed : route.claimant.isSome := by
      rcases hroot with hinstance | hgroup
      · exact hinstance.isSome_claimant hroute
      · cases hs with
        | group hinstances _ => exact isSome_claimant_of_group hinstances hroute
        | sphere | rectangle | mesh | placed => exact hgroup.elim
    obtain ⟨b, hb⟩ := Option.isSome_iff_exists.1 hclaimed
    rw [hb, Option.some_or] at hbinding
    exact ⟨route, e, b, hlast, hroute, he, hsurface, hb, hbinding⟩
  · intro hnone
    obtain ⟨hempty, -, hkept⟩ := haccounts.missed hnone
    exact ⟨hempty, hkept⟩

/-! ### A lamp painted over -/

open Exact

/-- A sphere with emission inside an instance with a material, inside an instance without a look. -/
noncomputable def paintedLamp {z : ZeroSign} : Shape (Exact z) :=
  placed (placed (placed .sphere { emission := some (.constant .one) })
    { bsdf := some (.diffuse (.constant .one)) }) {}

theorem isSound_paintedLamp {z : ZeroSign} : (paintedLamp : Shape (Exact z)).IsSound := by
  unfold paintedLamp
  refine .placed ?_ (.placed ?_ (.placed ?_ .sphere)) <;> simp

/-- The one path has the material between the two other instances. -/
theorem claimant_paintedLamp {z : ZeroSign} {route : Route (Exact z)}
    (h : paintedLamp.Reaches route) :
    route.claimant = some { bsdf := some (.diffuse (.constant .one)) } := by
  unfold paintedLamp at h
  cases h with
  | placed h =>
    cases h with
    | placed h =>
      cases h with
      | placed h =>
        cases h
        rfl

theorem intersect_paintedLamp {z : ZeroSign} {d : Vec3 ℝ}
    (hd : d.x * d.x + d.y * d.y + d.z * d.z = 1) (wo : Vec3 (Exact z)) :
    ((paintedLamp : Shape (Exact z)).intersect (.towardsOrigin d 4) (.unbounded wo)).1 = true ∧
      (paintedLamp.intersect (.towardsOrigin d 4) (.unbounded wo)).2.t = number (4 - 1) := by
  have hmeets := Sphere.encounter?_of_center (Ray.isUnit_towardsOrigin (z := z) hd 4) rfl
    (by norm_num)
  have hnear : ¬(Scalar.infinity : Exact z) ≤ number (4 - 1) :=
    fun h => Scalar.not_lt_of_le h (lt_infinity _)
  simp [paintedLamp, Shape.intersect, Binding.intersect, Sphere.intersect_eq, hmeets,
    Encounter.answer, Hit.unbounded, Hit.within, hnear, Binding.claim_eq]

/-- The material shows, although the lamp is the innermost instance and a third one is around
both. -/
theorem record_names_claimant_paintedLamp :
    let s : Shape (Exact .plus) := ofChildren .midpoint #[paintedLamp]
    let ray : Ray (Exact .plus) := .towardsOrigin ⟨1 / 3, 2 / 3, 2 / 3⟩ 4
    (s.intersect ray (.unbounded .zero)).1 = true ∧
      (s.intersect ray (.unbounded .zero)).2.binding =
        some { bsdf := some (.diffuse (.constant .one)) } := by
  intro s ray
  have hd : (1 / 3 : ℝ) * (1 / 3) + 2 / 3 * (2 / 3) + 2 / 3 * (2 / 3) = 1 := by norm_num
  have hunit : ray.IsUnit := Ray.isUnit_towardsOrigin hd 4
  have hoblique : ray.IsOblique :=
    Ray.isOblique_towardsOrigin (by norm_num) (by norm_num) (by norm_num) 4
  have hsuits : paintedLamp.Suits ray := ⟨isSound_paintedLamp, .inl hunit⟩
  obtain ⟨hown, ht⟩ := intersect_paintedLamp (z := .plus) (d := ⟨1 / 3, 2 / 3, 2 / 3⟩) hd .zero
  have hseen : paintedLamp.IsSeen ray := hsuits.isSeen hoblique hown (by rw [ht]; norm_num)
  have hfound : (s.intersect ray (.unbounded .zero)).1 = true :=
    (found_singleton_iff .zero .midpoint hoblique hsuits).2 ⟨hown, hseen⟩
  have hgroups : s.GroupsInstances := by
    refine .group ?_ ?_ <;> simp only [List.mem_singleton, forall_eq]
    · trivial
    · exact .placed (.placed (.placed .sphere))
  obtain ⟨route, e, b, -, hroute, -, -, hb, hbinding⟩ :=
    (record_names_claimant s hgroups (.inr trivial) ray (.unbounded .zero)).1 hfound
  refine ⟨hfound, hbinding.trans ?_⟩
  rw [← hb]
  simp only [s, ofChildren] at hroute
  cases hroute with
  | group hc hroute =>
    obtain rfl := List.mem_singleton.1 hc
    exact claimant_paintedLamp hroute

end Shape

end Radiance
