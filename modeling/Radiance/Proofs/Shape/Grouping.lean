import Radiance.Proofs.Shape.Limit
import Radiance.Scene

/-!
# Grouping does not change what is hit

A group finds the nearest of the hits that its children find alone, in exact arithmetic and for rays
that move along all axes.  The one thing that a group adds is the test of boxes, which skips a box
that the ray leaves before `Scalar.epsilon`; a child that is asked alone measures that distance in
its own space, and may find a hit that a group skips.

## Main definitions

* `Shape.IsSeen`: the test lets a ray through to the box of a shape.
* `Shape.Suits`: a shape can be asked about a ray.
* `IgnoresStats`: the work counted so far does not matter to a query.

## Main statements

* `Shape.ignoresStats_intersect`: no query of a shape looks at the counters.
* `Shape.intersect_singleton`: a group of one shape asks it, unless the test stops the ray.
* `Shape.group_finds_nearest`: what a group finds.
* `Shape.group_misses_small_child`: a group may miss what its only child hits.
-/

namespace Radiance

open Hierarchy (Sights)

variable {α : Type}

/-! ## Counters -/

/-- The record with more work counted. -/
def Hit.addStats (hit : Hit α) (k : TraversalStats) : Hit α :=
  { hit with stats := ⟨hit.stats.nodes + k.nodes, hit.stats.primitives + k.primitives⟩ }

theorem Hit.countNode_addStats (hit : Hit α) (k : TraversalStats) :
    (hit.addStats k).countNode = hit.countNode.addStats k := by
  simp [addStats, countNode, UInt32.add_assoc, UInt32.add_comm 1]

theorem Hit.countPrimitive_addStats (hit : Hit α) (k : TraversalStats) :
    (hit.addStats k).countPrimitive = hit.countPrimitive.addStats k := by
  simp [addStats, countPrimitive, UInt32.add_assoc, UInt32.add_comm 1]

/-- The work counted before a query does not matter to it. -/
def IgnoresStats (k : TraversalStats) (f : Hit α → Bool × Hit α) : Prop :=
  ∀ hit, f (hit.addStats k) = ((f hit).1, (f hit).2.addStats k)

namespace IgnoresStats

variable {k : TraversalStats} {q : Hierarchy.Query α}

theorem skip : IgnoresStats k fun hit : Hit α => (false, hit) := fun _ => rfl

theorem seq {f g : Hit α → Bool × Hit α} (hf : IgnoresStats k f) (hg : IgnoresStats k g) :
    IgnoresStats k fun hit => ((f hit).1 || (g (f hit).2).1, (g (f hit).2).2) := by
  intro hit
  simp only [hf hit, hg (f hit).2]

theorem queryAll (members : List Nat) (hq : ∀ i, IgnoresStats k (q i)) :
    IgnoresStats k (Hierarchy.queryAll q members) := by
  induction members with
  | nil => exact skip
  | cons i rest ih =>
    intro hit
    rw [Hierarchy.queryAll_cons, Hierarchy.queryAll_cons, Hit.countPrimitive_addStats]
    exact (hq i).seq ih hit.countPrimitive

/-- Neither branch looks at the counters, and the condition does not either. -/
theorem ite {p : Hit α → Prop} [∀ hit, Decidable (p hit)] {f g : Hit α → Bool × Hit α}
    (hp : ∀ hit, p (hit.addStats k) ↔ p hit) (hf : IgnoresStats k f) (hg : IgnoresStats k g) :
    IgnoresStats k fun hit => if p hit then f hit else g hit := by
  intro hit
  simp only [hp, hf hit, hg hit]
  split <;> rfl

variable [Scalar α]

theorem queryBoth {near far : Hit α → Bool × Hit α} (hnear : IgnoresStats k near)
    (hfar : IgnoresStats k far) (tNear tFar : α) :
    IgnoresStats k (Hierarchy.queryBoth near far tNear tFar) :=
  (ite (p := fun hit => tNear < hit.t) (fun _ => Iff.rfl) hnear skip).seq
    (ite (p := fun hit => tFar < hit.t) (fun _ => Iff.rfl) hfar skip)

theorem query (indices : Array Nat) (ray : Ray α) (invDirection : Vec3 α) (t : Hierarchy.Tree α)
    (hq : ∀ i, IgnoresStats k (q i)) : IgnoresStats k (t.query indices ray invDirection q) := by
  induction t with
  | leaf box first count =>
    intro hit
    rw [Hierarchy.Tree.query, Hit.countNode_addStats]
    exact queryAll _ hq hit.countNode
  | branch box l r ihl ihr =>
    intro hit
    simp only [Hierarchy.Tree.query, Hit.countNode_addStats]
    split
    · exact queryBoth ihl ihr _ _ hit.countNode
    · exact queryBoth ihr ihl _ _ hit.countNode

theorem intersect (hierarchy : Hierarchy α) (ray : Ray α) (hq : ∀ i, IgnoresStats k (q i)) :
    IgnoresStats k (hierarchy.intersect ray q) := by
  unfold Hierarchy.intersect
  split
  · exact skip
  next tree _ =>
    exact ite (p := fun hit => hit.t ≤ tree.box.rayEntry ray ray.direction.recip)
      (fun _ => Iff.rfl) skip (query _ ray _ tree hq)

/-- An instance hands the counters through. -/
theorem placed (b : Binding α) {inner : Ray α → Hit α → Bool × Hit α} (ray : Ray α)
    (hinner : ∀ ray, IgnoresStats k (inner ray)) : IgnoresStats k (b.intersect inner ray) := by
  intro hit
  cases hb : b.transform with
  | none =>
    rw [Binding.intersect_of_none inner ray _ hb, Binding.intersect_of_none inner ray _ hb]
    have h : inner ray { hit.addStats k with binding := none } = _ :=
      hinner ray { hit with binding := none }
    dsimp only
    rw [h]
    generalize inner ray { hit with binding := none } = r
    obtain ⟨found, after⟩ := r
    cases found <;> simp [Hit.addStats, Binding.claim_eq]
  | some t =>
    rw [Binding.intersect_of_some inner ray _ hb, Binding.intersect_of_some inner ray _ hb]
    have h : inner (t.localRay ray)
        { hit.addStats k with binding := none, t := (hit.addStats k).t * t.rayScale ray } = _ :=
      hinner (t.localRay ray) { hit with binding := none, t := hit.t * t.rayScale ray }
    dsimp only
    rw [h]
    generalize inner (t.localRay ray) { hit with binding := none, t := hit.t * t.rayScale ray } = r
    obtain ⟨found, after⟩ := r
    cases found <;> simp [Hit.addStats, Binding.claim_eq]

end IgnoresStats

theorem Encounter.ignoresStats_answer [Scalar α] (k : TraversalStats) (e : Option (Encounter α)) :
    IgnoresStats k (answer e) := by
  intro hit
  unfold answer
  cases e with
  | none => rfl
  | some d =>
    change (if hit.t ≤ d.t then _ else _) = _
    dsimp only
    split <;> rfl

/-- No query of a shape looks at the counters of the record. -/
theorem Shape.ignoresStats_intersect [Scalar α] (k : TraversalStats) (s : Shape α) (ray : Ray α) :
    IgnoresStats k (s.intersect ray) := by
  intro hit
  fun_induction Shape.intersect s ray hit with
  | case1 ray hit =>
    rw [Shape.intersect, Sphere.intersect_eq, Sphere.intersect_eq]
    exact Encounter.ignoresStats_answer k _ hit
  | case2 ray hit =>
    rw [Shape.intersect, Rectangle.intersect_eq, Rectangle.intersect_eq]
    exact Encounter.ignoresStats_answer k _ hit
  | case3 ray hit m =>
    rw [Shape.intersect]
    refine IgnoresStats.intersect _ ray (fun i hit => ?_) hit
    rw [TriangleMesh.queryTriangle_eq, TriangleMesh.queryTriangle_eq]
    exact Encounter.ignoresStats_answer k _ hit
  | case4 ray hit children hierarchy query ih =>
    rw [Shape.intersect]
    refine IgnoresStats.intersect _ ray (fun i hit => ?_) hit
    by_cases hi : i < children.size
    · simpa only [dif_pos hi] using ih i hit hi
    · simp only [dif_neg hi]
  | case5 ray hit inner b ih =>
    rw [Shape.intersect]
    exact IgnoresStats.placed b ray ih hit

/-! ## Groups of one shape -/

open Exact

variable {z : ZeroSign}

theorem Box.union_singleton {b : Box (Exact z)} {p : Vec3 (Exact z)} (h : b.HasPoint p) :
    union [b] = b := by
  have haxis {i : Interval (Exact z)} {x : Exact z} (hi : i.contains x = true) :
      Interval.empty.surrounding i = i := by
    obtain ⟨hmin, hmax⟩ := Interval.contains_iff.1 hi
    have hmin := isNaN_eq_false_iff.1 (Scalar.IsOrdered.le_iff.1 hmin).1
    have hmax := isNaN_eq_false_iff.1 (Scalar.IsOrdered.le_iff.1 hmax).2.1
    exact Interval.ext (infinity_min hmin) (negInfinity_max hmax)
  exact Box.ext (haxis h.x) (haxis h.y) (haxis h.z)

namespace Shape

/-- A group of one shape asks it, unless the box is too far away, and counts two more steps. -/
theorem intersect_singleton [Scalar α] (method : SplitMethod) (s : Shape α) (ray : Ray α)
    (hit : Hit α) :
    (ofChildren method #[s]).intersect ray hit =
      if hit.t ≤ (ofChildren method #[s]).boundingBox.rayEntry ray ray.direction.recip then
        (false, hit)
      else ((s.intersect ray hit).1, (s.intersect ray hit).2.addStats ⟨1, 1⟩) := by
  rw [intersect_ofChildren_of_size_le method ray (by simp) (by simp [Hierarchy.leafSize]),
    ← s.ignoresStats_intersect ⟨1, 1⟩ ray hit]
  simp [List.range_succ, Hierarchy.queryAll, Hit.countNode, Hit.countPrimitive, Hit.addStats]

theorem boundingBox_singleton (method : SplitMethod) {s : Shape (Exact z)} {p : Vec3 (Exact z)}
    (h : s.boundingBox.HasPoint p) : (ofChildren method #[s]).boundingBox = s.boundingBox := by
  rw [ofChildren, boundingBox, Hierarchy.build_of_pos method (by simp)]
  change (Hierarchy.built _ method).1.box = _
  rw [Hierarchy.built, Hierarchy.box_subdivide]
  simpa [Hierarchy.rangeBox, Hierarchy.boundsOf, Hierarchy.range, Hierarchy.item, item] using
    Box.union_singleton h

/-! ## What a group finds -/

variable {s : Shape (Exact z)} {ray : Ray (Exact z)}

/-- The test of boxes lets the ray through to a shape. -/
def IsSeen (s : Shape (Exact z)) (ray : Ray (Exact z)) : Prop :=
  s.boundingBox.rayEntry ray ray.direction.recip < Scalar.infinity

/-- A sound shape can be asked about rays with a unit direction.  An instance with a transform can
be asked about all others too, since it hands on a unit direction itself. -/
def Suits (s : Shape (Exact z)) (ray : Ray (Exact z)) : Prop :=
  s.IsSound ∧ (ray.IsUnit ∨ ∃ inner b t, s = placed inner b ∧ b.transform = some t)

namespace Suits

theorem exists_settles (h : s.Suits ray) (hray : ray.IsProper) :
    ∃ d, (∀ e ∈ d, ∃ τ : ℝ, e.t = number τ) ∧ Settles .mixed d (s.intersect ray) := by
  obtain ⟨hs, hunit | ⟨inner, b, t, rfl, ht⟩⟩ := h
  · exact hs.exists_settles .mixed hunit
  · cases hs with
    | placed hb hinner =>
      obtain ⟨d, hreal, hd⟩ := exists_settles_placed hb (fun _ => hinner.exists_settles .mixed) hray
        (by simp [ht])
      exact ⟨d, hreal, hd.mixed⟩

theorem reports_liesOn (h : s.Suits ray) (hray : ray.IsProper) (hit : Hit (Exact z)) :
    Reports (LiesOn ray s.boundingBox) hit (s.intersect ray hit) := by
  obtain ⟨hs, hunit | ⟨inner, b, t, rfl, ht⟩⟩ := h
  · exact hs.reports_liesOn hunit hit
  · cases hs with
    | placed hb hinner =>
      exact reports_liesOn_placed hb (fun _ => hinner.reports_liesOn) hray (by simp [ht]) hit

/-- A hit of the shape is a point of the ray in its box. -/
theorem exists_point (h : s.Suits ray) (hray : ray.IsProper) {hit : Hit (Exact z)}
    (hfound : (s.intersect ray hit).1 = true) :
    ∃ τ : ℝ, (s.intersect ray hit).2.t = number τ ∧
      s.boundingBox.HasPoint (ray.pointAt (number τ)) := by
  obtain ⟨⟨τ, hτ⟩, hposition, hbox⟩ := (h.reports_liesOn hray hit).found hfound
  exact ⟨τ, hτ, by rwa [hposition, hτ] at hbox⟩

/-- A shape is seen if it is hit no nearer than `Scalar.epsilon`. -/
theorem isSeen (h : s.Suits ray) (hray : ray.IsOblique) {hit : Hit (Exact z)}
    (hfound : (s.intersect ray hit).1 = true)
    (hfar : Scalar.epsilon ≤ (s.intersect ray hit).2.t) : s.IsSeen ray := by
  obtain ⟨τ, hτ, hpoint⟩ := h.exists_point hray.isProper hfound
  rw [hτ] at hfar
  exact Scalar.lt_of_le_of_lt (Box.rayEntry_le hray hpoint hpoint hfar) (lt_infinity τ)

end Suits

theorem exists_sees_of_suits (method : SplitMethod) {children : Array (Shape (Exact z))}
    (hray : ray.IsOblique) (hchildren : ∀ c ∈ children.toList, c.Suits ray) :
    ∃ (sights : Sights z) (d : Option (Sight (Exact z))),
      (∀ i (hi : i < children.size), (∀ e ∈ sights i, ∃ τ : ℝ, e.t = number τ) ∧
        Settles .mixed (sights i) (children[i].intersect ray)) ∧
      Hierarchy.Sees .mixed sights (fun i => ∃ hi : i < children.size, children[i].IsSeen ray)
        (List.range children.size) ((ofChildren method children).intersect ray) d :=
  exists_sees_ofChildren method _ hray.isProper
    (fun i hi => (hchildren _ (by simp)).exists_settles hray.isProper)
    (fun i hi => (hchildren _ (by simp)).reports_liesOn hray.isProper)
    fun i hi ⟨_, hseen⟩ τ hpoint box hbox => Box.rayEntry_le_of_seen hray hpoint hseen hbox

section

variable {children : Array (Shape (Exact z))} {wo : Vec3 (Exact z)}

/-- A hit of a group is the hit of a child. -/
theorem exists_child_of_found {method : SplitMethod} (hray : ray.IsOblique)
    (hchildren : ∀ c ∈ children.toList, c.Suits ray)
    (hfound : ((ofChildren method children).intersect ray (.unbounded wo)).1 = true) :
    ∃ c ∈ children.toList, (c.intersect ray (.unbounded wo)).1 = true ∧
      ((ofChildren method children).intersect ray (.unbounded wo)).2.t =
        (c.intersect ray (.unbounded wo)).2.t := by
  obtain ⟨sights, d, hsights, hd⟩ := exists_sees_of_suits method hray hchildren
  have hreal := hd.exists_number fun i hi => (hsights i (List.mem_range.1 hi)).1
  have hgroup := hd.settles.unlimited hreal (.unbounded wo) rfl
  cases d with
  | none => simp [hgroup.1] at hfound
  | some e =>
    obtain ⟨i, hi, hsight⟩ := hd.attained e rfl
    have hi := List.mem_range.1 hi
    have hchild := (hsights i hi).2.unlimited (hsights i hi).1 (.unbounded wo) rfl
    rw [hsight] at hchild
    exact ⟨children[i], by simp, hchild.1, hgroup.2.1.trans hchild.2.1.symm⟩

/-- A child that is seen and hit makes the group find a hit, no farther away. -/
theorem found_of_isSeen (method : SplitMethod) (hray : ray.IsOblique)
    (hchildren : ∀ c ∈ children.toList, c.Suits ray) {c : Shape (Exact z)}
    (hc : c ∈ children.toList) (hfound : (c.intersect ray (.unbounded wo)).1 = true)
    (hseen : c.IsSeen ray) :
    ((ofChildren method children).intersect ray (.unbounded wo)).1 = true ∧
      ((ofChildren method children).intersect ray (.unbounded wo)).2.t ≤
        (c.intersect ray (.unbounded wo)).2.t := by
  obtain ⟨i, hi, rfl⟩ := List.getElem_of_mem hc
  rw [Array.length_toList] at hi
  rw [Array.getElem_toList] at hfound hseen ⊢
  obtain ⟨sights, d, hsights, hd⟩ := exists_sees_of_suits method hray hchildren
  have hchild := (hsights i hi).2.unlimited (hsights i hi).1 (.unbounded wo) rfl
  cases hsight : sights i with
  | none =>
    rw [hsight] at hchild
    simp [hchild.1] at hfound
  | some a =>
    rw [hsight] at hchild
    obtain ⟨b, rfl, hle⟩ := hd.covers i (List.mem_range.2 hi) ⟨hi, hseen⟩ a hsight
    have hreal := hd.exists_number fun j hj => (hsights j (List.mem_range.1 hj)).1
    have hgroup := hd.settles.unlimited hreal (.unbounded wo) rfl
    exact ⟨hgroup.1, by rw [hgroup.2.1, hchild.2.1]; exact hle⟩

/-- A group of one shape finds what the shape finds, if the shape is seen. -/
theorem found_singleton_iff (wo : Vec3 (Exact z)) (method : SplitMethod) (hray : ray.IsOblique)
    (hs : s.Suits ray) :
    ((ofChildren method #[s]).intersect ray (.unbounded wo)).1 = true ↔
      (s.intersect ray (.unbounded wo)).1 = true ∧ s.IsSeen ray := by
  have hchildren : ∀ c ∈ (#[s] : Array (Shape (Exact z))).toList, c.Suits ray := by simpa using hs
  constructor
  · intro hfound
    obtain ⟨c, hc, hown, -⟩ := exists_child_of_found hray hchildren hfound
    obtain rfl : c = s := by simpa using hc
    refine ⟨hown, ?_⟩
    obtain ⟨τ, -, hpoint⟩ := hs.exists_point hray.isProper hown
    rw [intersect_singleton, boundingBox_singleton method hpoint] at hfound
    split at hfound
    · simp at hfound
    next hreached =>
      exact Scalar.lt_of_not_le (Box.isNaN_rayEntry hray hpoint) (by simp [Scalar.infinity])
        hreached
  · rintro ⟨hown, hseen⟩
    exact (found_of_isSeen method hray hchildren (by simp) hown hseen).1

/-- Such a group then shows the same record, but for the work counted. -/
theorem intersect_singleton_of_isSeen (method : SplitMethod) (hray : ray.IsOblique)
    (hs : s.Suits ray) (hseen : (s.intersect ray (.unbounded wo)).1 = true → s.IsSeen ray) :
    ∃ stats, (ofChildren method #[s]).intersect ray (.unbounded wo) =
      ((s.intersect ray (.unbounded wo)).1,
        { (s.intersect ray (.unbounded wo)).2 with stats := stats }) := by
  have hfound := found_singleton_iff wo method hray hs
  rw [intersect_singleton] at hfound ⊢
  split at hfound
  next hskipped =>
    have hmiss : (s.intersect ray (.unbounded wo)).1 = false := by
      rw [← Bool.not_eq_true]
      intro hown
      exact absurd (hfound.2 ⟨hown, hseen hown⟩) (by simp)
    rw [if_pos hskipped, (s.kept_intersect ray _).miss hmiss, hmiss]
    exact ⟨_, rfl⟩
  next hreached =>
    rw [if_neg hreached]
    exact ⟨_, rfl⟩

end

/-- What a group finds on a fresh record is the hit of one of its children, and no child that is
seen and hit is in front of it; a child is seen if it is hit no nearer than `Scalar.epsilon`.  So if
all children that are hit are seen, a group finds a hit exactly if one of them does, at the smallest
of their distances.  A group of one shape finds what the shape finds exactly if it is seen, and a
scene with the shape as its root then shows the same record as one with the group. -/
theorem group_finds_nearest (method : SplitMethod) (children : Array (Shape (Exact z)))
    (ray : Ray (Exact z)) (wo : Vec3 (Exact z)) (hray : ray.IsOblique)
    (hchildren : ∀ c ∈ children.toList, c.Suits ray) :
    let own := fun c : Shape (Exact z) => c.intersect ray (.unbounded wo)
    let group := (ofChildren method children).intersect ray (.unbounded wo)
    (group.1 = true → ∃ c ∈ children.toList, (own c).1 = true ∧ group.2.t = (own c).2.t) ∧
    (∀ c ∈ children.toList, (own c).1 = true → c.IsSeen ray →
      group.1 = true ∧ group.2.t ≤ (own c).2.t) ∧
    (∀ c ∈ children.toList, (own c).1 = true → Scalar.epsilon ≤ (own c).2.t → c.IsSeen ray) ∧
    ((∀ c ∈ children.toList, (own c).1 = true → c.IsSeen ray) →
      (group.1 = true ↔ ∃ c ∈ children.toList, (own c).1 = true) ∧
        ∀ c ∈ children.toList, (own c).1 = true → group.2.t ≤ (own c).2.t) ∧
    ∀ s, children = #[s] →
      let root := (Scene.rootOf children).intersect ray (.unbounded wo)
      (group.1 = true ↔ root.1 = true ∧ s.IsSeen ray) ∧
        ((root.1 = true → s.IsSeen ray) →
          group = (root.1, { root.2 with stats := group.2.stats })) := by
  intro own group
  have hchild : group.1 = true →
      ∃ c ∈ children.toList, (own c).1 = true ∧ group.2.t = (own c).2.t :=
    exists_child_of_found hray hchildren
  have hnearest (c : Shape (Exact z)) (hc : c ∈ children.toList) (hown : (own c).1 = true)
      (hseen : c.IsSeen ray) : group.1 = true ∧ group.2.t ≤ (own c).2.t :=
    found_of_isSeen method hray hchildren hc hown hseen
  refine ⟨hchild, hnearest, fun c hc => (hchildren c hc).isSeen hray,
    fun hseen => ⟨⟨?_, ?_⟩, ?_⟩, ?_⟩
  · intro hfound
    obtain ⟨c, hc, hown, -⟩ := hchild hfound
    exact ⟨c, hc, hown⟩
  · rintro ⟨c, hc, hown⟩
    exact (hnearest c hc hown (hseen c hc hown)).1
  · exact fun c hc hown => (hnearest c hc hown (hseen c hc hown)).2
  · rintro s rfl
    have hs : s.Suits ray := hchildren s (by simp)
    refine ⟨found_singleton_iff wo method hray hs, fun hseen => ?_⟩
    obtain ⟨stats, hsame⟩ := intersect_singleton_of_isSeen method hray hs hseen
    change (ofChildren method #[s]).intersect ray (.unbounded wo) = _
    simp only [group, hsame]
    rfl

/-! ### Nested spheres and a small one -/

/-- A sphere of a radius around the origin. -/
noncomputable def ball (r : ℝ) : Shape (Exact z) :=
  placed .sphere { transform := some (.stretch r) }

theorem isSound_ball {r : ℝ} (hr : r ≠ 0) : (ball r : Shape (Exact z)).IsSound :=
  .placed (by rintro t ⟨⟩; exact Transform.isAffine_stretch hr) .sphere

theorem intersect_ball {r a : ℝ} {d : Vec3 ℝ} (hr : 0 < r) (ha : 1 + 3e-4 < a / r)
    (hd : d.x * d.x + d.y * d.y + d.z * d.z = 1) (wo : Vec3 (Exact z)) :
    ((ball r).intersect (.towardsOrigin d a) (.unbounded wo)).1 = true ∧
      ((ball r).intersect (.towardsOrigin d a) (.unbounded wo)).2.t = number (a - r) :=
  intersect_stretched_sphere rfl hr ha hd (lt_infinity _)

/-- Of two spheres around one center a group finds the larger one. -/
theorem group_finds_nearest_nested :
    let ray : Ray (Exact .plus) := .towardsOrigin ⟨1 / 3, 2 / 3, 2 / 3⟩ 4
    let group := (ofChildren .sah #[ball 1, ball 2]).intersect ray (.unbounded .zero)
    group.1 = true ∧ group.2.t = number (4 - 2) := by
  intro ray group
  have hd : (1 / 3 : ℝ) * (1 / 3) + 2 / 3 * (2 / 3) + 2 / 3 * (2 / 3) = 1 := by norm_num
  have hunit : ray.IsUnit := Ray.isUnit_towardsOrigin hd 4
  have hoblique : ray.IsOblique :=
    Ray.isOblique_towardsOrigin (by norm_num) (by norm_num) (by norm_num) 4
  have hchildren : ∀ c ∈ (#[ball 1, ball 2] : Array (Shape (Exact .plus))).toList, c.Suits ray := by
    intro c hc
    obtain rfl | rfl : c = ball 1 ∨ c = ball 2 := by simpa using hc
    · exact ⟨isSound_ball one_ne_zero, .inl hunit⟩
    · exact ⟨isSound_ball two_ne_zero, .inl hunit⟩
  have hmeets {r : ℝ} (hr : 0 < r) (ha : 1 + 3e-4 < 4 / r) :=
    intersect_ball (z := .plus) (d := ⟨1 / 3, 2 / 3, 2 / 3⟩) hr ha hd .zero
  obtain ⟨hone, honet⟩ := hmeets one_pos (by norm_num)
  obtain ⟨htwo, htwot⟩ := hmeets two_pos (by norm_num)
  obtain ⟨hchild, hnearest, hseen, -⟩ :=
    group_finds_nearest .sah #[ball 1, ball 2] ray .zero hoblique hchildren
  obtain ⟨hfound, hle⟩ := hnearest (ball 2) (by simp) htwo
    (hseen (ball 2) (by simp) htwo (by rw [htwot]; norm_num))
  refine ⟨hfound, ?_⟩
  obtain ⟨c, hc, -, ht⟩ := hchild hfound
  obtain rfl | rfl : c = ball 1 ∨ c = ball 2 := by simpa using hc
  · rw [ht, honet, htwot] at hle
    norm_num at hle
  · exact ht.trans htwot

/-- The box of a sphere ends at its radius. -/
theorem max_boundingBox_ball {r : ℝ} (hr : 0 < r) :
    (ball r : Shape (Exact z)).boundingBox.y.max ≤ number r := by
  have hlt : (-1 : ℝ) < 1 := by norm_num
  have hends : (Sphere.boundingBox : Box (Exact z)) = .ofEnds ⟨-1, -1, -1⟩ ⟨1, 1, 1⟩ := by
    simp [Sphere.boundingBox, Box.ofPoints, Box.ofEnds, Vec3.min, Vec3.max, Vec3.one, Vec3.splat,
      Scalar.min, Scalar.max, hlt, hlt.not_gt]
  have hbounded : (Sphere.boundingBox : Box (Exact z)).isUnbounded = false := by
    simp [hends, Box.isUnbounded, Box.ofEnds, Interval.isUnbounded_eq_false_iff]
  have hsolid : (Sphere.boundingBox : Box (Exact z)).isEmpty = false := by
    simp [hends, Box.isEmpty, Box.ofEnds, Interval.isEmpty, hlt.not_ge]
  change ((Transform.stretch r).applyBox (Sphere.boundingBox : Box (Exact z))).y.max ≤ _
  rw [Transform.applyBox, hbounded, hsolid]
  simp only [Bool.false_eq_true, false_and, if_false]
  refine Box.max_hull_le (Scalar.le_of_lt (negInfinity_lt r)) fun p hp => ?_
  obtain ⟨i, -, rfl⟩ := List.mem_map.1 hp
  obtain ⟨q, hq, hle⟩ : ∃ q : Vec3 ℝ, (Sphere.boundingBox : Box (Exact z)).corner i = .ofReal q ∧
      q.y ≤ 1 := by
    refine ⟨⟨if i.testBit 0 then 1 else -1, if i.testBit 1 then 1 else -1,
      if i.testBit 2 then 1 else -1⟩, ?_, ?_⟩
    · simp only [hends, Box.corner, Box.ofEnds, Vec3.ofReal]
      split_ifs <;> rfl
    · dsimp only
      split <;> norm_num
  rw [hq, Transform.applyPoint_stretch]
  simpa [Vec3.ofReal] using mul_le_of_le_one_left hr.le hle

/-- The ray leaves the sphere behind before `Scalar.epsilon`. -/
theorem not_isSeen_ball {r a : ℝ} {d : Vec3 ℝ} (hr : 0 < r) (hy : 0 < d.y) {p : Vec3 (Exact z)}
    (hp : (ball r : Shape (Exact z)).boundingBox.HasPoint p) (hfar : a + r / d.y < 3e-4) :
    ¬(ball r : Shape (Exact z)).IsSeen (.towardsOrigin d a) := by
  have hmax := max_boundingBox_ball (z := z) hr
  have hmin : (ball r : Shape (Exact z)).boundingBox.y.min ≤ number r := by
    obtain ⟨hle, hge⟩ := Interval.contains_iff.1 hp.y
    exact Scalar.le_trans (Scalar.le_trans hle hge) hmax
  have hexit : (ball r : Shape (Exact z)).boundingBox.far (.towardsOrigin d a) ≤
      number (a + r / d.y) := by
    refine Scalar.min_le_of_right (Scalar.min_le_of_left ?_)
    have hend : -a * d.y + (a + r / d.y) * d.y = r := by
      field_simp
      ring
    exact Scalar.max_le ((sub_mul_recip_of_pos hy).1.2 (by rwa [hend]))
      ((sub_mul_recip_of_pos hy).1.2 (by rwa [hend]))
  rw [IsSeen, Box.rayEntry_recip, if_pos (.inr (Scalar.lt_of_le_of_lt hexit (by simpa using hfar)))]
  exact Scalar.lt_irrefl _

/-- A sphere that the ray leaves behind before `Scalar.epsilon` is hit alone, and as the root of a
scene, but not in a group. -/
theorem group_misses_small_child :
    let s : Shape (Exact .plus) := placed .sphere { transform := some (.stretch 6e-5) }
    let ray : Ray (Exact .plus) := .towardsOrigin ⟨1 / 3, 2 / 3, 2 / 3⟩ 9e-5
    s.IsSound ∧ ray.IsUnit ∧ ray.IsOblique ∧
      ((Scene.rootOf #[s]).intersect ray (.unbounded .zero)).1 = true ∧
      ((Scene.rootOf #[s]).intersect ray (.unbounded .zero)).2.t = number 3e-5 ∧
      ((ofChildren .midpoint #[s]).intersect ray (.unbounded .zero)).1 = false := by
  intro s ray
  have hd : (1 / 3 : ℝ) * (1 / 3) + 2 / 3 * (2 / 3) + 2 / 3 * (2 / 3) = 1 := by norm_num
  have hunit : ray.IsUnit := Ray.isUnit_towardsOrigin hd 9e-5
  have hoblique : ray.IsOblique :=
    Ray.isOblique_towardsOrigin (by norm_num) (by norm_num) (by norm_num) 9e-5
  have hsound : s.IsSound := isSound_ball (by norm_num)
  have hsuits : s.Suits ray := ⟨hsound, .inl hunit⟩
  obtain ⟨hown, ht⟩ := intersect_ball (z := .plus) (r := 6e-5) (a := 9e-5)
    (d := ⟨1 / 3, 2 / 3, 2 / 3⟩) (by norm_num) (by norm_num) hd .zero
  obtain ⟨τ, -, hpoint⟩ := hsuits.exists_point hoblique.isProper hown
  refine ⟨hsound, hunit, hoblique, hown, ?_, ?_⟩
  · refine Eq.trans ht ?_
    norm_num
  · rw [← Bool.not_eq_true, found_singleton_iff .zero .midpoint hoblique hsuits]
    exact fun h => not_isSeen_ball (by norm_num) (by norm_num) hpoint (by norm_num) h.2

end Shape

end Radiance
