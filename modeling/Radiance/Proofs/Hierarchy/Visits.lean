import Radiance.Proofs.Hierarchy.Build

/-!
# The visits of a query

A query of a hierarchy is a sequence of queries of items, each with the record that the one before
left.  `visits` is this sequence.  Whatever each query of an item writes down, the query of the
hierarchy has written down what its visits did, in their order.

## Main definitions

* `visits`: the items that a query asks, in order, with the records it asks them with.
* `SequentialLog`: the relations between a record, an answer and a log that no hierarchy can break.

## Main statements

* `SequentialLog.query`, `SequentialLog.intersect`: such a relation passes from the items to the
  tree.
* `SequentialLog.intersect_build`: of a built hierarchy, only the items that it was built from
  matter.
-/

namespace Radiance.Hierarchy

variable {α β : Type}

/-- The items of a leaf are visited in turn. -/
def visitAll (q : Query α) : List Nat → Hit α → List (Nat × Hit α)
  | [], _ => []
  | i :: rest, hit => (i, hit.countPrimitive) :: visitAll q rest (q i hit.countPrimitive).2

theorem queryAll_cons (q : Query α) (i : Nat) (rest : List Nat) (hit : Hit α) :
    queryAll q (i :: rest) hit =
      ((q i hit.countPrimitive).1 || (queryAll q rest (q i hit.countPrimitive).2).1,
        (queryAll q rest (q i hit.countPrimitive).2).2) := by
  -- What has been found before only joins the answer of the rest.
  have hloop : ∀ (rest : List Nat) (found : Bool) (hit : Hit α),
      rest.foldl (fun r i =>
        (r.1 || (q i r.2.countPrimitive).1, (q i r.2.countPrimitive).2)) (found, hit) =
        (found || (queryAll q rest hit).1, (queryAll q rest hit).2) := by
    intro rest
    induction rest with
    | nil => simp [queryAll]
    | cons j rest ih =>
      intro found hit
      have hall : queryAll q (j :: rest) hit =
          (false || (q j hit.countPrimitive).1 || (queryAll q rest (q j hit.countPrimitive).2).1,
            (queryAll q rest (q j hit.countPrimitive).2).2) := ih _ _
      rw [List.foldl_cons, hall]
      exact (ih _ _).trans (by simp [Bool.or_assoc])
  exact (hloop rest _ _).trans (by simp)

/-- A relation between a record, the answer of a query and what the query wrote down.  A query that
follows another one continues its log. -/
structure SequentialLog (R : Hit α → Bool × Hit α → List β → Prop) : Prop where
  skip : ∀ hit, R hit (false, hit) []
  countNode : ∀ hit r log, R hit.countNode r log → R hit r log
  countPrimitive : ∀ hit r log, R hit.countPrimitive r log → R hit r log
  seq : ∀ hit r s log more, R hit r log → R r.2 s more → R hit (r.1 || s.1, s.2) (log ++ more)

namespace SequentialLog

variable {R : Hit α → Bool × Hit α → List β → Prop} {q : Query α} {log : Nat × Hit α → List β}

theorem queryAll (h : SequentialLog R) {members : List Nat}
    (hq : ∀ i ∈ members, ∀ hit, R hit (q i hit) (log (i, hit))) (hit : Hit α) :
    R hit (queryAll q members hit) ((visitAll q members hit).flatMap log) := by
  induction members generalizing hit with
  | nil => exact h.skip hit
  | cons i rest ih =>
    have hone := h.countPrimitive _ _ _ (hq i (by simp) hit.countPrimitive)
    rw [queryAll_cons]
    exact h.seq _ _ _ _ _ hone (ih (fun j hj => hq j (by simp [hj])) _)

end SequentialLog

variable [Scalar α]

/-- Two children are visited in turn, each only if its box is entered before the nearest hit. -/
def visitBoth (near : Hit α → Bool × Hit α) (nearVisits farVisits : Hit α → List (Nat × Hit α))
    (tNear tFar : α) (hit : Hit α) : List (Nat × Hit α) :=
  let between := (if tNear < hit.t then near hit else (false, hit)).2
  (if tNear < hit.t then nearVisits hit else []) ++
    if tFar < between.t then farVisits between else []

def Tree.visits (indices : Array Nat) (ray : Ray α) (invDirection : Vec3 α) (q : Query α) :
    Tree α → Hit α → List (Nat × Hit α)
  | leaf _ first count, hit => visitAll q (range indices first count) hit.countNode
  | branch _ l r, hit =>
    let tLeft := l.box.rayEntry ray invDirection
    let tRight := r.box.rayEntry ray invDirection
    let left := l.visits indices ray invDirection q
    let right := r.visits indices ray invDirection q
    if tLeft ≤ tRight then
      visitBoth (l.query indices ray invDirection q) left right tLeft tRight hit.countNode
    else visitBoth (r.query indices ray invDirection q) right left tRight tLeft hit.countNode

/-- The items that a query asks, in order, each with the record that it is asked with. -/
def visits (h : Hierarchy α) (ray : Ray α) (q : Query α) (hit : Hit α) : List (Nat × Hit α) :=
  match h.root with
  | none => []
  | some tree =>
    let invDirection := ray.direction.recip
    if hit.t ≤ tree.box.rayEntry ray invDirection then []
    else tree.visits h.indices ray invDirection q hit

namespace SequentialLog

variable {R : Hit α → Bool × Hit α → List β → Prop} {q : Query α} {log : Nat × Hit α → List β}

theorem gate (h : SequentialLog R) {query : Hit α → Bool × Hit α}
    {queryVisits : Hit α → List (Nat × Hit α)}
    (hquery : ∀ hit, R hit (query hit) ((queryVisits hit).flatMap log)) (entry : α) (hit : Hit α) :
    R hit (if entry < hit.t then query hit else (false, hit))
      ((if entry < hit.t then queryVisits hit else []).flatMap log) := by
  split
  · exact hquery hit
  · exact h.skip hit

theorem queryBoth (h : SequentialLog R) {near far : Hit α → Bool × Hit α}
    {nearVisits farVisits : Hit α → List (Nat × Hit α)}
    (hnear : ∀ hit, R hit (near hit) ((nearVisits hit).flatMap log))
    (hfar : ∀ hit, R hit (far hit) ((farVisits hit).flatMap log)) (tNear tFar : α) (hit : Hit α) :
    R hit (queryBoth near far tNear tFar hit)
      ((visitBoth near nearVisits farVisits tNear tFar hit).flatMap log) := by
  rw [visitBoth, List.flatMap_append]
  exact h.seq _ _ _ _ _ (h.gate hnear tNear hit) (h.gate hfar tFar _)

theorem query (h : SequentialLog R) (indices : Array Nat) (ray : Ray α) (invDirection : Vec3 α)
    (t : Tree α) (hq : ∀ i ∈ t.members indices, ∀ hit, R hit (q i hit) (log (i, hit)))
    (hit : Hit α) :
    R hit (t.query indices ray invDirection q hit)
      ((t.visits indices ray invDirection q hit).flatMap log) := by
  induction t generalizing hit with
  | leaf box first count => exact h.countNode _ _ _ (h.queryAll hq _)
  | branch box l r ihl ihr =>
    have hleft := ihl fun i hi => hq i (List.mem_append_left _ hi)
    have hright := ihr fun i hi => hq i (List.mem_append_right _ hi)
    apply h.countNode
    simp only [Tree.query, Tree.visits]
    split
    · exact h.queryBoth hleft hright _ _ _
    · exact h.queryBoth hright hleft _ _ _

/-- Only the items that the leaves name matter. -/
theorem intersect_members (h : SequentialLog R) (log : Nat × Hit α → List β)
    (hierarchy : Hierarchy α) (ray : Ray α)
    (hq : ∀ tree ∈ hierarchy.root, ∀ i ∈ tree.members hierarchy.indices, ∀ hit,
      R hit (q i hit) (log (i, hit))) (hit : Hit α) :
    R hit (hierarchy.intersect ray q hit) ((hierarchy.visits ray q hit).flatMap log) := by
  obtain ⟨root, indices⟩ := hierarchy
  cases root with
  | none => exact h.skip hit
  | some tree =>
    simp only [Hierarchy.intersect, visits]
    split
    · exact h.skip hit
    · exact h.query _ ray _ _ (hq tree rfl) hit

/-- Any hierarchy over items that all obey the relation obeys it. -/
theorem intersect (h : SequentialLog R) (log : Nat × Hit α → List β) (hierarchy : Hierarchy α)
    (ray : Ray α) (hq : ∀ i hit, R hit (q i hit) (log (i, hit))) (hit : Hit α) :
    R hit (hierarchy.intersect ray q hit) ((hierarchy.visits ray q hit).flatMap log) :=
  h.intersect_members log hierarchy ray (fun _ _ i _ => hq i) hit

/-- Of a built hierarchy, only the items that it was built from matter. -/
theorem intersect_build (h : SequentialLog R) (log : Nat × Hit α → List β) (method : SplitMethod)
    (items : Array (Item α)) (ray : Ray α)
    (hq : ∀ i < items.size, ∀ hit, R hit (q i hit) (log (i, hit))) (hit : Hit α) :
    R hit ((build method items).intersect ray q hit)
      (((build method items).visits ray q hit).flatMap log) := by
  obtain hzero | hpos := Nat.eq_zero_or_pos items.size
  · obtain rfl : items = #[] := Array.eq_empty_of_size_eq_zero hzero
    exact h.skip hit
  · rw [build_of_pos method hpos]
    refine h.intersect_members log _ ray ?_ hit
    rintro tree ⟨⟩ i hi
    exact hq i ((mem_members_built hpos i).1 hi)

end SequentialLog

end Radiance.Hierarchy
