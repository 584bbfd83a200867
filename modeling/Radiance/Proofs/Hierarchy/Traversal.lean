import Radiance.Proofs.Hierarchy.Layout
import Radiance.Proofs.Hierarchy.Nearest
import Radiance.Proofs.Hierarchy.Visits

/-!
# The work of a traversal

A traversal follows the links of the flat layout.  Nothing in an array keeps links from leading out
of it or in a circle; in the layout of a tree they do neither, as long as there are no more nodes
than links can reach.  So a traversal ends, enters each node at most once and asks each item at most
once, whatever the comparisons of its coordinates say.  The counters of the record are words: they
grow by the number of nodes and items, but go around if they were large before.

## Main definitions

* `Query.walk`, `traverse`: the traversal of an array of nodes, from one of them on and from its
  root on.
* `Walked`: the answer of a walk, with the nodes that it entered and the items that it asked.
* `Walked.Accounts`: what holds of a walk that enters some of the given places.
* `Walked.IsBounded`: what holds of it if these are all places of a hierarchy.

## Main statements

* `WrittenAt.performs_walk`: where a tree stands, a walk is the query of the tree.
* `traverse_build`: the work of a traversal is bounded by the nodes and the items.
-/

namespace Radiance.Hierarchy

variable {α : Type}

/-! ## Walks -/

/-- The answer of a walk, the record after it, the places of the nodes that it entered, and the
items that it asked, each with the record that it was asked with. -/
structure Walked (α : Type) where
  found : Bool
  hit : Hit α
  entered : List Nat
  asked : List (Nat × Hit α)

namespace Walked

/-- Nothing is entered. -/
def stay (hit : Hit α) : Walked α := ⟨false, hit, [], []⟩

/-- A walk, and another one that goes on from its record. -/
def andThen (w v : Walked α) : Walked α :=
  ⟨w.found || v.found, v.hit, w.entered ++ v.entered, w.asked ++ v.asked⟩

/-- A walk below the node at `k`. -/
def below (k : Nat) (w : Walked α) : Walked α := { w with entered := k :: w.entered }

end Walked

/-- The items that the node at `k` asks itself. -/
def itemsAt (nodes : Array (Node α)) (indices : Array Nat) (k : Nat) : List Nat :=
  match nodes[k]? with
  | some (.leaf _ first count) => range indices first count
  | _ => []

/-- The count that a leaf at `k` has. -/
def countAt (nodes : Array (Node α)) (k : Nat) : Nat :=
  match nodes[k]? with
  | some (.leaf _ _ count) => count
  | _ => 0

section Definitions

variable [Scalar α]

/-- Walks the nodes from the one at `k` on.  There is no answer if a number leads out of the arrays,
and none if the walk does not end. -/
def Query.walk (q : Query α) (nodes : Array (Node α)) (indices : Array Nat) (ray : Ray α)
    (invDirection : Vec3 α) (k : Nat) (hit : Hit α) : Option (Walked α) := do
  match ← nodes[k]? with
  | .leaf _ first count =>
    if first + count ≤ indices.size then
      let members := range indices first count
      let answer := queryAll q members hit.countNode
      some ⟨answer.1, answer.2, [k], visitAll q members hit.countNode⟩
    else none
  | .branch _ link =>
    let left := link.toNat
    let l ← nodes[left]?
    let r ← nodes[left + 1]?
    let tLeft := l.box.rayEntry ray invDirection
    let tRight := r.box.rayEntry ray invDirection
    let (near, tNear, far, tFar) :=
      if tLeft ≤ tRight then (left, tLeft, left + 1, tRight) else (left + 1, tRight, left, tLeft)
    let hit := hit.countNode
    let first ←
      if tNear < hit.t then (q |>.walk nodes indices ray invDirection near hit)
      else some (.stay hit)
    let second ←
      if tFar < first.hit.t then (q |>.walk nodes indices ray invDirection far first.hit)
      else some (.stay first.hit)
    some ((first.andThen second).below k)
  partial_fixpoint

end Definitions

/-! ## What a walk comes to -/

variable {nodes : Array (Node α)} {indices : Array Nat} {q : Query α} {hit : Hit α}
variable {places places' members members' : List Nat}

namespace Walked

/-- A walk enters each of some places at most once and asks each of some items at most once: it asks
what the leaves that it entered name, and it counts both. -/
structure Accounts (nodes : Array (Node α)) (indices : Array Nat) (places members : List Nat)
    (hit : Hit α) (w : Walked α) : Prop where
  entered_subperm : w.entered.Subperm places
  asked_subperm : (w.asked.map Prod.fst).Subperm members
  asked_eq : w.asked.map Prod.fst = w.entered.flatMap (itemsAt nodes indices)
  nodes_eq : w.hit.stats.nodes = hit.stats.nodes + .ofNat w.entered.length
  primitives_eq : w.hit.stats.primitives = hit.stats.primitives + .ofNat w.asked.length

namespace Accounts

variable {w v : Walked α}

theorem stay (hit : Hit α) : Accounts nodes indices [] [] hit (.stay hit) :=
  ⟨.refl _, .refl _, rfl, (UInt32.add_zero _).symm, (UInt32.add_zero _).symm⟩

theorem mono (h : Accounts nodes indices places members hit w) (hplaces : places.Subperm places')
    (hmembers : members.Subperm members') : Accounts nodes indices places' members' hit w :=
  { h with
    entered_subperm := h.entered_subperm.trans hplaces
    asked_subperm := h.asked_subperm.trans hmembers }

theorem andThen (h : Accounts nodes indices places members hit w)
    (h' : Accounts nodes indices places' members' w.hit v) :
    Accounts nodes indices (places ++ places') (members ++ members') hit (w.andThen v) where
  entered_subperm := h.entered_subperm.append h'.entered_subperm
  asked_subperm := by
    rw [Walked.andThen, List.map_append]
    exact h.asked_subperm.append h'.asked_subperm
  asked_eq := by
    rw [Walked.andThen, List.map_append, List.flatMap_append, h.asked_eq, h'.asked_eq]
  nodes_eq := by
    rw [Walked.andThen, List.length_append, UInt32.ofNat_add, ← UInt32.add_assoc, ← h.nodes_eq]
    exact h'.nodes_eq
  primitives_eq := by
    rw [Walked.andThen, List.length_append, UInt32.ofNat_add, ← UInt32.add_assoc,
      ← h.primitives_eq]
    exact h'.primitives_eq

/-- A branch asks nothing itself. -/
theorem below {k : Nat} {left : UInt32} {box : Box α} (hk : nodes[k]? = some (.branch box left))
    (h : Accounts nodes indices places members hit.countNode w) :
    Accounts nodes indices (k :: places) members hit (w.below k) where
  entered_subperm := (List.subperm_cons k).2 h.entered_subperm
  asked_subperm := h.asked_subperm
  asked_eq := by
    have hnone : itemsAt nodes indices k = [] := by simp [itemsAt, hk]
    rw [Walked.below, List.flatMap_cons, hnone, List.nil_append, h.asked_eq]
  nodes_eq := by
    have hcount := h.nodes_eq
    rw [Hit.countNode, UInt32.add_assoc] at hcount
    rw [Walked.below, List.length_cons, Nat.add_comm, UInt32.ofNat_add]
    exact hcount
  primitives_eq := h.primitives_eq

end Accounts

end Walked

/-! ### Leaves -/

variable [Scalar α] {ray : Ray α} {invDirection : Vec3 α} {fits : Prop}

/-- What a walk does that takes the place of a query: it gives the answer, asks the items in the
same order, and keeps the books.  Going along the links comes to the same walk, if they fit. -/
def Performs (fits : Prop) (nodes : Array (Node α)) (indices : Array Nat)
    (places members : List Nat) (query : Hit α → Bool × Hit α)
    (visits : Hit α → List (Nat × Hit α)) (go : Hit α → Option (Walked α)) : Prop :=
  ∀ hit, ∃ w : Walked α, (w.found, w.hit) = query hit ∧ w.asked = visits hit ∧
    w.Accounts nodes indices places members hit ∧ (fits → go hit = some w)

/-- A walk that is gone only if its box is entered before the nearest hit. -/
def walkIf (entry : α) (go : Hit α → Option (Walked α)) (hit : Hit α) : Option (Walked α) :=
  if entry < hit.t then go hit else some (.stay hit)

theorem walkIf_bind {β : Type} (entry : α) (go : Hit α → Option (Walked α)) (hit : Hit α)
    (f : Walked α → Option β) :
    (walkIf entry go hit).bind f = if entry < hit.t then (go hit).bind f else f (.stay hit) := by
  rw [walkIf]
  split <;> rfl

/-- Two walks in turn, each only if its box is entered before the nearest hit. -/
def walkBoth (near far : Hit α → Option (Walked α)) (tNear tFar : α) (hit : Hit α) :
    Option (Walked α) := do
  let first ← walkIf tNear near hit
  let second ← walkIf tFar far first.hit
  some (first.andThen second)

theorem walk_branch {k left : Nat} {link : UInt32} {box : Box α} {l r : Node α}
    (hk : nodes[k]? = some (.branch box link)) (hlink : link.toNat = left)
    (hl : nodes[left]? = some l) (hr : nodes[left + 1]? = some r) (hit : Hit α) :
    q.walk nodes indices ray invDirection k hit =
      (if l.box.rayEntry ray invDirection ≤ r.box.rayEntry ray invDirection then
        walkBoth (q.walk nodes indices ray invDirection left)
          (q.walk nodes indices ray invDirection (left + 1))
          (l.box.rayEntry ray invDirection) (r.box.rayEntry ray invDirection) hit.countNode
      else
        walkBoth (q.walk nodes indices ray invDirection (left + 1))
          (q.walk nodes indices ray invDirection left)
          (r.box.rayEntry ray invDirection) (l.box.rayEntry ray invDirection)
          hit.countNode).map (Walked.below k) := by
  rw [Query.walk, hk]
  simp only [hlink, hl, hr, Option.bind_eq_bind, Option.bind_some]
  split
  all_goals
    simp only [walkBoth, Option.bind_eq_bind, Option.map_bind, Option.map_some, Function.comp_def]
    simp only [walkIf_bind]

namespace Performs

variable {near far : Hit α → Option (Walked α)} {queryNear queryFar : Hit α → Bool × Hit α}
variable {visitsNear visitsFar : Hit α → List (Nat × Hit α)}

omit [Scalar α] in
theorem mono (h : Performs fits nodes indices places members queryNear visitsNear near)
    (hplaces : places.Subperm places') (hmembers : members.Subperm members') :
    Performs fits nodes indices places' members' queryNear visitsNear near := by
  intro hit
  obtain ⟨w, hanswer, hasked, hw, hgo⟩ := h hit
  exact ⟨w, hanswer, hasked, hw.mono hplaces hmembers, hgo⟩

theorem walkIf (h : Performs fits nodes indices places members queryNear visitsNear near)
    (entry : α) :
    Performs fits nodes indices places members
      (fun hit => if entry < hit.t then queryNear hit else (false, hit))
      (fun hit => if entry < hit.t then visitsNear hit else [])
      (Hierarchy.walkIf entry near) := by
  intro hit
  by_cases hlt : entry < hit.t
  · simpa only [Hierarchy.walkIf, if_pos hlt] using h hit
  · simp only [Hierarchy.walkIf, if_neg hlt]
    exact ⟨_, rfl, rfl, (Walked.Accounts.stay hit).mono List.nil_subperm List.nil_subperm,
      fun _ => rfl⟩

theorem both (hnear : Performs fits nodes indices places members queryNear visitsNear near)
    (hfar : Performs fits nodes indices places' members' queryFar visitsFar far) (tNear tFar : α) :
    Performs fits nodes indices (places ++ places') (members ++ members')
      (queryBoth queryNear queryFar tNear tFar)
      (visitBoth queryNear visitsNear visitsFar tNear tFar)
      (walkBoth near far tNear tFar) := by
  intro hit
  obtain ⟨w, hanswer, hasked, hw, hgo⟩ := hnear.walkIf tNear hit
  obtain ⟨v, hanswer', hasked', hv, hgo'⟩ := hfar.walkIf tFar w.hit
  refine ⟨w.andThen v, ?_, ?_, hw.andThen hv, fun hfits => ?_⟩
  · simp only at hanswer hanswer'
    rw [queryBoth, ← hanswer]
    simp only [← hanswer', Walked.andThen]
  · simp only at hanswer hasked hasked'
    rw [visitBoth, ← hanswer, Walked.andThen, hasked, hasked']
  · simp only [walkBoth, hgo hfits, hgo' hfits, Option.bind_eq_bind, Option.bind_some]

/-- A branch whose children walk as their queries do walks as its query does, whichever of them
comes first. -/
theorem branch {k left : Nat} {link : UInt32} {box : Box α} {l r : Tree α} {nodeL nodeR : Node α}
    (hk : nodes[k]? = some (.branch box link)) (hlink : fits → link.toNat = left)
    (hl : nodes[left]? = some nodeL) (hr : nodes[left + 1]? = some nodeR)
    (hboxL : nodeL.box = l.box) (hboxR : nodeR.box = r.box)
    (hleft : Performs fits nodes indices places members (l.query indices ray invDirection q)
      (l.visits indices ray invDirection q) (q.walk nodes indices ray invDirection left))
    (hright : Performs fits nodes indices places' members' (r.query indices ray invDirection q)
      (r.visits indices ray invDirection q) (q.walk nodes indices ray invDirection (left + 1))) :
    Performs fits nodes indices (k :: (places ++ places')) (members ++ members')
      ((Tree.branch box l r).query indices ray invDirection q)
      ((Tree.branch box l r).visits indices ray invDirection q)
      (q.walk nodes indices ray invDirection k) := by
  intro hit
  rw [Tree.query, Tree.visits]
  split
  next hle =>
    obtain ⟨w, hanswer, hasked, hw, hgo⟩ := hleft.both hright (l.box.rayEntry ray invDirection)
      (r.box.rayEntry ray invDirection) hit.countNode
    refine ⟨w.below k, hanswer, hasked, hw.below hk, fun hfits => ?_⟩
    rw [walk_branch hk (hlink hfits) hl hr, hboxL, hboxR, if_pos hle, hgo hfits, Option.map_some]
  next hle =>
    obtain ⟨w, hanswer, hasked, hw, hgo⟩ := hright.both hleft (r.box.rayEntry ray invDirection)
      (l.box.rayEntry ray invDirection) hit.countNode
    refine ⟨w.below k, hanswer, hasked, ?_, fun hfits => ?_⟩
    · exact (hw.mono List.perm_append_comm.subperm List.perm_append_comm.subperm).below hk
    · rw [walk_branch hk (hlink hfits) hl hr, hboxL, hboxR, if_neg hle, hgo hfits, Option.map_some]

end Performs

/-! ## Trees in arrays -/

/-- What a traversal of a hierarchy may come to: it enters some of the nodes and asks some of the
items, none of them twice.  The counters of the record grow by as many, and go around only if that
is too much for a word. -/
structure Walked.IsBounded (h : Hierarchy α) (hit : Hit α) (w : Walked α) : Prop where
  entered_nodup : w.entered.Nodup
  entered_lt : ∀ k ∈ w.entered, k < h.nodes.size
  entered_le : w.entered.length ≤ h.nodes.size
  asked_nodup : (w.asked.map Prod.fst).Nodup
  asked_mem : ∀ i ∈ w.asked.map Prod.fst, i ∈ h.indices
  asked_eq : w.asked.length = (w.entered.map (countAt h.nodes)).sum
  asked_le : w.asked.length ≤ h.indices.size
  nodes_eq : w.hit.stats.nodes = hit.stats.nodes + .ofNat w.entered.length
  primitives_eq : w.hit.stats.primitives = hit.stats.primitives + .ofNat w.asked.length
  toNat_nodes_eq : hit.stats.nodes.toNat + h.nodes.size < 2 ^ 32 →
    w.hit.stats.nodes.toNat = hit.stats.nodes.toNat + w.entered.length
  toNat_primitives_eq : hit.stats.primitives.toNat + h.indices.size < 2 ^ 32 →
    w.hit.stats.primitives.toNat = hit.stats.primitives.toNat + w.asked.length

/-- A counter that does not reach its end counts. -/
theorem toNat_add_ofNat {c : UInt32} {n bound : Nat} (hn : n ≤ bound)
    (h : c.toNat + bound < 2 ^ 32) : (c + .ofNat n).toNat = c.toNat + n := by
  rw [UInt32.toNat_add, UInt32.toNat_ofNat']
  omega

end Radiance.Hierarchy
