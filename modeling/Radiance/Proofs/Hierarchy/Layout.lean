import Radiance.Proofs.Hierarchy.Build

/-!
# The flat layout of a hierarchy

A tree is written into one array: the children of a branch stand side by side, everything below the
left child comes before everything below the right one.  `WrittenAt` says where a tree stands in an
array of nodes, and the shape of the array is read off it.  Where the nodes stand is one thing and
where the links of the branches lead is another: a link is a word, so it leads to the children only
as long as their places fit into one.

## Main definitions

* `Tree.parts`: the parts of a tree in the order in which its nodes are written.
* `WrittenAt`: a tree stands in an array, its root at one place and the rest in a run of places.
* `IsChild`, `IsBelow`: the edges of the array and the nodes they lead to.
* `maxNodes`: the number of nodes that links can reach.
* `Shaped`: what holds of the nodes and the permutation of every built hierarchy.
* `Linked`: what holds of its links as well, if they lead to the children.

## Main statements

* `build_shaped`: the leaves of a hierarchy cut the permutation of the items into ranges, and its
  links make one binary tree of the nodes if and only if there are at most `maxNodes` of them.
-/

namespace Radiance.Hierarchy

variable {α : Type}

/-! ## Edges and ranges -/

/-- Whether a node is a leaf. -/
def Node.isLeaf : Node α → Bool
  | .leaf _ _ _ => true
  | .branch _ _ => false

def Node.box : Node α → Box α
  | .leaf box _ _ => box
  | .branch box _ => box

/-- The link of the branch at `k` leads to the node at `c`, or to the one in front of it. -/
def IsChild (nodes : Array (Node α)) (k c : Nat) : Prop :=
  ∃ box left, nodes[k]? = some (.branch box left) ∧ (c = left.toNat ∨ c = left.toNat + 1)

/-- The node at `c` is the node at `k`, or hangs below it. -/
def IsBelow (nodes : Array (Node α)) : Nat → Nat → Prop := Relation.ReflTransGen (IsChild nodes)

/-- The leaf at `k` has the place `p` of the permutation in its range. -/
def HasPlace (nodes : Array (Node α)) (k p : Nat) : Prop :=
  ∃ box first count, nodes[k]? = some (.leaf box first count) ∧ first ≤ p ∧ p < first + count

/-- The largest number of nodes that links can reach: the last two of them are the children that the
largest word leads to. -/
def maxNodes : Nat := 2 ^ 32 + 1

/-- The place of a left child fits into a word if the right one is among the nodes that links can
reach. -/
theorem toNat_link {left size : Nat} (hleft : left + 1 < size) (hsize : size ≤ maxNodes) :
    (UInt32.ofNat left).toNat = left :=
  UInt32.toNat_ofNat_of_lt' (by
    change left < 2 ^ 32
    unfold maxNodes at hsize
    omega)

/-- Links lead to no other nodes. -/
theorem IsChild.lt_maxNodes {nodes : Array (Node α)} {k c : Nat} (h : IsChild nodes k c) :
    c < maxNodes := by
  obtain ⟨box, left, -, hc⟩ := h
  have hword := left.toNat_lt
  unfold maxNodes
  omega

/-! ## The parts of a tree -/

namespace Tree

/-- The parts of a tree below its root, in the order in which their nodes are written. -/
def descendants : Tree α → List (Tree α)
  | leaf _ _ _ => []
  | branch _ l r => l :: r :: (l.descendants ++ r.descendants)

/-- All parts of a tree, in the order in which their nodes are written. -/
def parts (t : Tree α) : List (Tree α) := t :: t.descendants

theorem size_pos (t : Tree α) : 0 < t.size := by
  cases t <;> simp [size]

theorem length_parts (t : Tree α) : t.parts.length = t.size := by
  induction t with
  | leaf => rfl
  | branch box l r ihl ihr =>
    simp only [parts, List.length_cons] at ihl ihr
    simp only [parts, descendants, size, List.length_cons, List.length_append]
    omega

end Tree

/-- The part of the tree that the node at `k` stands for. -/
def partAt (h : Hierarchy α) (k : Nat) : Option (Tree α) := h.root.bind (·.parts[k]?)

/-! ## Where a tree stands -/

/-- The root of a tree stands at `k` and its other nodes fill the places from `lo` up to `hi`,
whether the links lead there or not. -/
inductive WrittenAt (nodes : Array (Node α)) : Tree α → Nat → Nat → Nat → Prop
  | leaf {box : Box α} {first count k lo : Nat} :
      nodes[k]? = some (.leaf box first count) →
      WrittenAt nodes (.leaf box first count) k lo lo
  | branch {box : Box α} {l r : Tree α} {k lo mid hi : Nat} :
      nodes[k]? = some (.branch box (.ofNat lo)) → k < lo →
      WrittenAt nodes l lo (lo + 2) mid → WrittenAt nodes r (lo + 1) mid hi →
      WrittenAt nodes (.branch box l r) k lo hi

namespace WrittenAt

variable {nodes : Array (Node α)} {t : Tree α} {k lo hi : Nat}

theorem size_eq (h : WrittenAt nodes t k lo hi) : hi + 1 = lo + t.size := by
  induction h with
  | leaf => rfl
  | branch _ _ _ _ ihl ihr =>
    simp only [Tree.size]
    omega

theorem le (h : WrittenAt nodes t k lo hi) : lo ≤ hi := by
  have hpos := t.size_pos
  have hsize := h.size_eq
  omega

theorem exists_node (h : WrittenAt nodes t k lo hi) : ∃ node, nodes[k]? = some node := by
  cases h with
  | leaf hk => exact ⟨_, hk⟩
  | branch hk => exact ⟨_, hk⟩

/-- The node at the place of the root has the box of the tree. -/
theorem box_eq {node : Node α} (h : WrittenAt nodes t k lo hi) (hk : nodes[k]? = some node) :
    node.box = t.box := by
  cases h with
  | leaf hleaf => cases hleaf.symm.trans hk; rfl
  | branch hbranch => cases hbranch.symm.trans hk; rfl

/-- A tree stays written when the array changes elsewhere. -/
theorem congr {nodes' : Array (Node α)} (h : WrittenAt nodes t k lo hi)
    (heq : ∀ j, j = k ∨ lo ≤ j ∧ j < hi → nodes'[j]? = nodes[j]?) :
    WrittenAt nodes' t k lo hi := by
  induction h with
  | leaf hk => exact .leaf ((heq _ (.inl rfl)).trans hk)
  | @branch box l r k lo mid hi hk hlt hl hr ihl ihr =>
    have hmid := hl.le
    have hhi := hr.le
    exact .branch ((heq _ (.inl rfl)).trans hk) hlt
      (ihl fun j hj => heq j (by omega)) (ihr fun j hj => heq j (by omega))

/-- The parts below the root fill the run of places one by one. -/
theorem exists_writtenAt_descendant {j : Nat} {s : Tree α} (h : WrittenAt nodes t k lo hi)
    (hs : t.descendants[j]? = some s) :
    ∃ lo' hi', WrittenAt nodes s (lo + j) lo' hi' ∧ lo + j < lo' ∧ hi' ≤ hi ∧ IsSubtree t s := by
  induction h generalizing j s with
  | leaf => simp [Tree.descendants] at hs
  | @branch box l r k lo mid hi hk hlt hl hr ihl ihr =>
    have hmid := hl.le
    have hhi := hr.le
    have hlength : lo + 2 + l.descendants.length = mid := by
      have hsize := hl.size_eq
      rw [← l.length_parts, Tree.parts, List.length_cons] at hsize
      omega
    match j, hs with
    | 0, hs =>
      obtain rfl : l = s := by simpa [Tree.descendants] using hs
      exact ⟨lo + 2, mid, hl, by omega, hhi, .left .refl⟩
    | 1, hs =>
      obtain rfl : r = s := by simpa [Tree.descendants] using hs
      exact ⟨mid, hi, hr, by omega, le_rfl, .right .refl⟩
    | j + 2, hs =>
      simp only [Tree.descendants, List.getElem?_cons_succ] at hs
      obtain hleft | hright := lt_or_ge j l.descendants.length
      · rw [List.getElem?_append_left hleft] at hs
        obtain ⟨lo', hi', hwritten, hjlo, hhi', hsub⟩ := ihl hs
        rw [show lo + 2 + j = lo + (j + 2) by omega] at hwritten hjlo
        exact ⟨lo', hi', hwritten, hjlo, by omega, (IsSubtree.left .refl).trans hsub⟩
      · rw [List.getElem?_append_right hright] at hs
        obtain ⟨lo', hi', hwritten, hjlo, hhi', hsub⟩ := ihr hs
        rw [show mid + (j - l.descendants.length) = lo + (j + 2) by omega] at hwritten hjlo
        exact ⟨lo', hi', hwritten, hjlo, by omega, (IsSubtree.right .refl).trans hsub⟩

/-- Every place that a tree fills holds one of its nodes. -/
theorem exists_subtree {j : Nat} (h : WrittenAt nodes t k lo hi) (hklo : k < lo)
    (hj : j = k ∨ lo ≤ j ∧ j < hi) :
    ∃ s lo' hi', IsSubtree t s ∧ WrittenAt nodes s j lo' hi' ∧ j < lo' ∧ lo ≤ lo' ∧ hi' ≤ hi := by
  obtain rfl | ⟨hlo, hhi⟩ := hj
  · exact ⟨t, lo, hi, .refl, h, hklo, le_rfl, le_rfl⟩
  · have hsize := h.size_eq
    rw [← t.length_parts, Tree.parts, List.length_cons] at hsize
    obtain ⟨lo', hi', hwritten, hjlo, hhi', hsub⟩ := h.exists_writtenAt_descendant
      (List.getElem?_eq_getElem (show j - lo < t.descendants.length by omega))
    rw [Nat.add_sub_cancel' hlo] at hwritten hjlo
    exact ⟨_, lo', hi', hsub, hwritten, hjlo, by omega, hhi'⟩

/-- The children of a branch stand behind it, among the places that the tree fills. -/
theorem child_bounds {j box left} (h : WrittenAt nodes t k lo hi) (hfits : hi ≤ maxNodes)
    (hklo : k < lo) (hj : j = k ∨ lo ≤ j ∧ j < hi)
    (hbranch : nodes[j]? = some (.branch box left)) :
    j < left.toNat ∧ lo ≤ left.toNat ∧ left.toNat + 1 < hi := by
  obtain ⟨s, lo', hi', -, hwritten, hjlo, hlo', hhi'⟩ := h.exists_subtree hklo hj
  cases hwritten with
  | leaf hk => simp [hk] at hbranch
  | branch hk hlt hl hr =>
    have hmid := hl.le
    have hhi := hr.le
    obtain ⟨rfl, rfl⟩ : _ = box ∧ UInt32.ofNat lo' = left := by simpa [hk] using hbranch
    rw [toNat_link (show lo' + 1 < hi by omega) hfits]
    omega

theorem isChild_bounds {j c : Nat} (h : WrittenAt nodes t k lo hi) (hfits : hi ≤ maxNodes)
    (hklo : k < lo) (hj : j = k ∨ lo ≤ j ∧ j < hi) (hchild : IsChild nodes j c) :
    lo ≤ c ∧ c < hi := by
  obtain ⟨box, left, hbranch, hc⟩ := hchild
  have := h.child_bounds hfits hklo hj hbranch
  omega

/-- The link of the root leads to the two children behind it. -/
theorem isChild_root {box : Box α} {l r : Tree α} {c : Nat}
    (h : WrittenAt nodes (.branch box l r) k lo hi) (hfits : hi ≤ maxNodes) :
    IsChild nodes k c ↔ c = lo ∨ c = lo + 1 := by
  cases h with
  | branch hk hlt hl hr =>
    have hmid := hl.le
    have hhi := hr.le
    have hlink := toNat_link (show lo + 1 < hi by omega) hfits
    constructor
    · rintro ⟨box', left, hbranch, hc⟩
      obtain ⟨rfl, rfl⟩ : box = box' ∧ UInt32.ofNat lo = left := by simpa [hk] using hbranch
      rwa [hlink] at hc
    · intro hc
      exact ⟨box, _, hk, by rwa [hlink]⟩

/-- Every node but the root is a child of exactly one node of the tree. -/
theorem existsUnique_parent {c : Nat} (h : WrittenAt nodes t k lo hi) (hfits : hi ≤ maxNodes)
    (hklo : k < lo) (hc : lo ≤ c ∧ c < hi) :
    ∃! j, (j = k ∨ lo ≤ j ∧ j < hi) ∧ IsChild nodes j c := by
  induction h with
  | leaf => omega
  | @branch box l r k lo mid hi hk hlt hl hr ihl ihr =>
    have hmid := hl.le
    have hhi := hr.le
    have hroot {c : Nat} : IsChild nodes k c ↔ c = lo ∨ c = lo + 1 :=
      (WrittenAt.branch hk hlt hl hr).isChild_root hfits
    -- A parent is the root, or stands on the same side as the child.
    have hside : ∀ j, (j = k ∨ lo ≤ j ∧ j < hi) → IsChild nodes j c →
        j = k ∨ ((j = lo ∨ lo + 2 ≤ j ∧ j < mid) ∧ lo + 2 ≤ c ∧ c < mid) ∨
          ((j = lo + 1 ∨ mid ≤ j ∧ j < hi) ∧ mid ≤ c ∧ c < hi) := by
      intro j hj hchild
      have hcases : j = k ∨ (j = lo ∨ lo + 2 ≤ j ∧ j < mid) ∨ (j = lo + 1 ∨ mid ≤ j ∧ j < hi) := by
        omega
      obtain hjk | hjl | hjr := hcases
      · exact .inl hjk
      · exact .inr (.inl ⟨hjl, hl.isChild_bounds (by omega) (by omega) hjl hchild⟩)
      · exact .inr (.inr ⟨hjr, hr.isChild_bounds (by omega) (by omega) hjr hchild⟩)
    have hcases : (c = lo ∨ c = lo + 1) ∨ (lo + 2 ≤ c ∧ c < mid) ∨ (mid ≤ c ∧ c < hi) := by omega
    obtain hck | hcl | hcr := hcases
    · refine ⟨k, ⟨.inl rfl, hroot.2 hck⟩, fun j hj => ?_⟩
      have := hside j hj.1 hj.2
      omega
    · obtain ⟨j, ⟨hj, hchild⟩, hunique⟩ := ihl (by omega) (by omega) hcl
      refine ⟨j, ⟨by omega, hchild⟩, fun i hi => ?_⟩
      obtain rfl | ⟨hil, -⟩ | ⟨-, _⟩ := hside i hi.1 hi.2
      · have := hroot.1 hi.2
        omega
      · exact hunique i ⟨hil, hi.2⟩
      · omega
    · obtain ⟨j, ⟨hj, hchild⟩, hunique⟩ := ihr (by omega) (by omega) hcr
      refine ⟨j, ⟨by omega, hchild⟩, fun i hi => ?_⟩
      obtain rfl | ⟨-, _⟩ | ⟨hir, -⟩ := hside i hi.1 hi.2
      · have := hroot.1 hi.2
        omega
      · omega
      · exact hunique i ⟨hir, hi.2⟩

/-- The nodes at or below the root are the nodes of the tree. -/
theorem isBelow_iff {j : Nat} (h : WrittenAt nodes t k lo hi) (hfits : hi ≤ maxNodes)
    (hklo : k < lo) : IsBelow nodes k j ↔ j = k ∨ lo ≤ j ∧ j < hi := by
  constructor
  · intro hbelow
    induction hbelow with
    | refl => exact .inl rfl
    | tail _ hchild ih => exact .inr (h.isChild_bounds hfits hklo ih hchild)
  · intro hj
    induction h generalizing j with
    | @leaf box first count k lo hk =>
      obtain rfl : j = k := by omega
      exact .refl
    | @branch box l r k lo mid hi hk hlt hl hr ihl ihr =>
      have hmid := hl.le
      have hhi := hr.le
      have hroot {c : Nat} : IsChild nodes k c ↔ c = lo ∨ c = lo + 1 :=
        (WrittenAt.branch hk hlt hl hr).isChild_root hfits
      have hcases : j = k ∨ (j = lo ∨ lo + 2 ≤ j ∧ j < mid) ∨ (j = lo + 1 ∨ mid ≤ j ∧ j < hi) := by
        omega
      obtain rfl | hjl | hjr := hcases
      · exact .refl
      · exact .head (hroot.2 (.inl rfl)) (ihl (by omega) (by omega) hjl)
      · exact .head (hroot.2 (.inr rfl)) (ihr (by omega) (by omega) hjr)

/-! ### Leaves -/

/-- A leaf of the array holds places of what the tree spans. -/
theorem hasPlace_bounds {j p first last : Nat} (h : WrittenAt nodes t k lo hi) (hklo : k < lo)
    (hspans : t.Spans first last) (hj : j = k ∨ lo ≤ j ∧ j < hi) (hp : HasPlace nodes j p) :
    first ≤ p ∧ p < last := by
  obtain ⟨s, lo', hi', hs, hwritten, -⟩ := h.exists_subtree hklo hj
  obtain ⟨first', last', hspans', hfirst, hlast⟩ := hs.spans hspans
  obtain ⟨box, start, count, hleaf, hstart, hstop⟩ := hp
  cases hwritten with
  | branch hk => simp [hk] at hleaf
  | leaf hk =>
    obtain ⟨rfl, rfl, rfl⟩ : _ = box ∧ _ = start ∧ _ = count := by simpa [hk] using hleaf
    obtain ⟨rfl, rfl, -⟩ := hspans'
    omega

/-- Every place that a tree spans belongs to exactly one leaf. -/
theorem existsUnique_hasPlace {p first last : Nat} (h : WrittenAt nodes t k lo hi) (hklo : k < lo)
    (hspans : t.Spans first last) (hp : first ≤ p ∧ p < last) :
    ∃! j, (j = k ∨ lo ≤ j ∧ j < hi) ∧ HasPlace nodes j p := by
  induction h generalizing first last with
  | @leaf box start count k lo hk =>
    obtain ⟨rfl, rfl, -⟩ := hspans
    exact ⟨k, ⟨.inl rfl, box, start, count, hk, hp⟩, fun j hj => by omega⟩
  | @branch box l r k lo mid hi hk hlt hl hr ihl ihr =>
    obtain ⟨middle, hspansl, hspansr⟩ := hspans
    have hmid := hl.le
    have hhi := hr.le
    -- A leaf with the place stands on the side that spans the place.
    have hside : ∀ j, (j = k ∨ lo ≤ j ∧ j < hi) → HasPlace nodes j p →
        ((j = lo ∨ lo + 2 ≤ j ∧ j < mid) ∧ p < middle) ∨
          ((j = lo + 1 ∨ mid ≤ j ∧ j < hi) ∧ middle ≤ p) := by
      intro j hj hplace
      have hcases : j = k ∨ (j = lo ∨ lo + 2 ≤ j ∧ j < mid) ∨ (j = lo + 1 ∨ mid ≤ j ∧ j < hi) := by
        omega
      obtain rfl | hjl | hjr := hcases
      · obtain ⟨_, _, _, hleaf, -⟩ := hplace
        simp [hk] at hleaf
      · exact .inl ⟨hjl, (hl.hasPlace_bounds (by omega) hspansl hjl hplace).2⟩
      · exact .inr ⟨hjr, (hr.hasPlace_bounds (by omega) hspansr hjr hplace).1⟩
    by_cases hpm : p < middle
    · obtain ⟨j, ⟨hj, hplace⟩, hunique⟩ := ihl (by omega) hspansl ⟨hp.1, hpm⟩
      refine ⟨j, ⟨by omega, hplace⟩, fun i hi => ?_⟩
      obtain ⟨hil, -⟩ | ⟨-, _⟩ := hside i hi.1 hi.2
      · exact hunique i ⟨hil, hi.2⟩
      · omega
    · obtain ⟨j, ⟨hj, hplace⟩, hunique⟩ := ihr (by omega) hspansr ⟨by omega, hp.2⟩
      refine ⟨j, ⟨by omega, hplace⟩, fun i hi => ?_⟩
      obtain ⟨-, _⟩ | ⟨hir, -⟩ := hside i hi.1 hi.2
      · omega
      · exact hunique i ⟨hir, hi.2⟩

/-- The leaves at or below the root have exactly the places that the tree spans. -/
theorem exists_below_hasPlace_iff {p first last : Nat} (h : WrittenAt nodes t k lo hi)
    (hfits : hi ≤ maxNodes) (hklo : k < lo) (hspans : t.Spans first last) :
    (∃ j, IsBelow nodes k j ∧ HasPlace nodes j p) ↔ first ≤ p ∧ p < last := by
  constructor
  · rintro ⟨j, hbelow, hj⟩
    exact h.hasPlace_bounds hklo hspans ((h.isBelow_iff hfits hklo).1 hbelow) hj
  · intro hp
    obtain ⟨j, ⟨hj, hplace⟩, -⟩ := h.existsUnique_hasPlace hklo hspans hp
    exact ⟨j, (h.isBelow_iff hfits hklo).2 hj, hplace⟩

end WrittenAt

/-! ## Writing a tree -/

namespace Tree

/-- What is written for a branch before its children: the node of the branch, and leaves that keep
the two places behind all others for the children. -/
def placeBranch (box : Box α) (l r : Tree α) (nodes : Array (Node α)) (k : Nat) : Array (Node α) :=
  ((nodes.setIfInBounds k (.branch box (.ofNat nodes.size))).push (.leaf l.box 0 0)).push
    (.leaf r.box 0 0)

section

variable {box : Box α} {l r : Tree α} {nodes : Array (Node α)} {k j : Nat}

theorem place_branch :
    (branch box l r).place nodes k =
      r.place (l.place (placeBranch box l r nodes k) nodes.size) (nodes.size + 1) := rfl

@[simp] theorem size_placeBranch : (placeBranch box l r nodes k).size = nodes.size + 2 := by
  simp [placeBranch]

theorem getElem?_placeBranch (hj : j < nodes.size) (hjk : j ≠ k) :
    (placeBranch box l r nodes k)[j]? = nodes[j]? := by
  simp [placeBranch, Array.getElem?_push, Ne.symm hjk, show j ≠ nodes.size by omega,
    show j ≠ nodes.size + 1 by omega]

theorem getElem?_placeBranch_self (hk : k < nodes.size) :
    (placeBranch box l r nodes k)[k]? = some (.branch box (.ofNat nodes.size)) := by
  simp [placeBranch, Array.getElem?_push, hk, show k ≠ nodes.size by omega,
    show k ≠ nodes.size + 1 by omega]

/-- The places behind all others hold leaves. -/
theorem isLeaf_placeBranch (hj : j < (placeBranch box l r nodes k).size) (hle : nodes.size ≤ j) :
    (placeBranch box l r nodes k)[j].isLeaf = true := by
  have hcases : j = nodes.size ∨ j = nodes.size + 1 := by
    rw [size_placeBranch] at hj
    omega
  obtain rfl | rfl := hcases <;> simp [placeBranch, Array.getElem_push, Node.isLeaf]

end

theorem size_place (t : Tree α) (nodes : Array (Node α)) (k : Nat) :
    (t.place nodes k).size + 1 = nodes.size + t.size := by
  induction t generalizing nodes k with
  | leaf => simp [place, size]
  | branch box l r ihl ihr =>
    have hleft := ihl (placeBranch box l r nodes k) nodes.size
    rw [size_placeBranch] at hleft
    rw [place_branch, ihr, size]
    omega

/-- Writing a tree changes no place but its root and what it adds. -/
theorem getElem?_place {nodes : Array (Node α)} {k j : Nat} (t : Tree α) (hj : j < nodes.size)
    (hjk : j ≠ k) : (t.place nodes k)[j]? = nodes[j]? := by
  induction t generalizing nodes k with
  | leaf box first count => simp [place, Ne.symm hjk]
  | branch box l r ihl ihr =>
    have hsize : (placeBranch box l r nodes k).size = nodes.size + 2 := size_placeBranch
    have hleft := l.size_place (placeBranch box l r nodes k) nodes.size
    have hpos := l.size_pos
    rw [place_branch, ihr (by omega) (by omega), ihl (by omega) (by omega),
      getElem?_placeBranch hj hjk]

/-- A tree stands where it was written. -/
theorem place_writtenAt (t : Tree α) (nodes : Array (Node α)) (k : Nat) (hk : k < nodes.size) :
    WrittenAt (t.place nodes k) t k nodes.size (t.place nodes k).size := by
  induction t generalizing nodes k with
  | leaf box first count =>
    have hsize : ((leaf box first count).place nodes k).size = nodes.size := by simp [place]
    rw [hsize]
    exact .leaf (by simp [place, hk])
  | branch box l r ihl ihr =>
    have hsize : (placeBranch box l r nodes k).size = nodes.size + 2 := size_placeBranch
    have hlsize := l.size_place (placeBranch box l r nodes k) nodes.size
    have hlpos := l.size_pos
    have hleft := ihl (placeBranch box l r nodes k) nodes.size (by omega)
    have hright := ihr (l.place (placeBranch box l r nodes k) nodes.size) (nodes.size + 1)
      (by omega)
    rw [hsize] at hleft
    rw [place_branch]
    refine .branch ?_ hk (hleft.congr fun j hj => ?_) hright
    · rw [getElem?_place r (by omega) (by omega), getElem?_place l (by omega) (by omega),
        getElem?_placeBranch_self hk]
    · exact getElem?_place r (by omega) (by omega)

/-- Writing a node over a leaf takes one leaf away, unless the node is a leaf itself. -/
theorem countP_setIfInBounds {nodes : Array (Node α)} {k : Nat} (hk : k < nodes.size)
    (hleaf : nodes[k].isLeaf) (node : Node α) :
    (nodes.setIfInBounds k node).toList.countP Node.isLeaf + 1 =
      nodes.toList.countP Node.isLeaf + if node.isLeaf then 1 else 0 := by
  have hk' : k < nodes.toList.length := by simpa using hk
  have hmem : nodes.toList[k].isLeaf := by simpa using hleaf
  have hone := List.boole_getElem_le_countP (p := Node.isLeaf) hk'
  rw [Array.toList_setIfInBounds, List.countP_set hk']
  simp only [hmem, if_true] at hone ⊢
  omega

/-- Writing a branch over a leaf takes that leaf away and adds two. -/
theorem countP_placeBranch {box : Box α} {l r : Tree α} {nodes : Array (Node α)} {k : Nat}
    (hk : k < nodes.size) (hleaf : nodes[k].isLeaf) :
    (placeBranch box l r nodes k).toList.countP Node.isLeaf =
      nodes.toList.countP Node.isLeaf + 1 := by
  have hroot := countP_setIfInBounds hk hleaf (.branch box (.ofNat nodes.size))
  simp only [Node.isLeaf] at hroot
  simp only [placeBranch, Array.toList_push, List.countP_append, List.countP_singleton,
    Node.isLeaf]
  simpa using hroot

/-- Writing a tree over a leaf puts the leaves of the tree in the place of the one. -/
theorem countP_place (t : Tree α) (nodes : Array (Node α)) {k : Nat} (hk : k < nodes.size)
    (hleaf : nodes[k].isLeaf) :
    (t.place nodes k).toList.countP Node.isLeaf + 1 =
      nodes.toList.countP Node.isLeaf + t.leafCount := by
  induction t generalizing nodes k with
  | leaf box first count => exact countP_setIfInBounds hk hleaf _
  | branch box l r ihl ihr =>
    have hsize : (placeBranch box l r nodes k).size = nodes.size + 2 := size_placeBranch
    have hcount : (placeBranch box l r nodes k).toList.countP Node.isLeaf =
        nodes.toList.countP Node.isLeaf + 1 := countP_placeBranch hk hleaf
    have hlsize := l.size_place (placeBranch box l r nodes k) nodes.size
    have hlpos := l.size_pos
    have hget : (l.place (placeBranch box l r nodes k) nodes.size)[nodes.size + 1]? =
        (placeBranch box l r nodes k)[nodes.size + 1]? := getElem?_place l (by omega) (by omega)
    rw [Array.getElem?_eq_getElem (by omega), Array.getElem?_eq_getElem (by omega)] at hget
    have hleft := ihl (placeBranch box l r nodes k) (k := nodes.size) (by omega)
      (isLeaf_placeBranch _ le_rfl)
    have hright := ihr (l.place (placeBranch box l r nodes k) nodes.size) (k := nodes.size + 1)
      (by omega) (by rw [Option.some.inj hget]; exact isLeaf_placeBranch _ (by omega))
    rw [place_branch, leafCount]
    omega

/-! ### The array of a whole tree -/

theorem size_layout (t : Tree α) : t.layout.size = t.size := by
  have h := t.size_place #[.leaf t.box 0 0] 0
  simp only [layout, List.size_toArray, List.length_singleton] at h ⊢
  omega

theorem countP_layout (t : Tree α) : t.layout.toList.countP Node.isLeaf = t.leafCount := by
  have h := t.countP_place #[.leaf t.box 0 0] (k := 0) (by simp) rfl
  have hone : [(Node.leaf t.box 0 0)].countP Node.isLeaf = 1 := rfl
  simp only [layout, hone] at h ⊢
  omega

theorem layout_writtenAt (t : Tree α) : WrittenAt t.layout t 0 1 t.layout.size :=
  t.place_writtenAt _ 0 (by simp)

/-- Every place of the array belongs to the tree. -/
theorem layout_region {t : Tree α} {k : Nat} {node : Node α} (h : t.layout[k]? = some node) :
    k = 0 ∨ 1 ≤ k ∧ k < t.layout.size := by
  have := (Array.getElem?_eq_some_iff.1 h).1
  omega

theorem layout_hasPlace_region {t : Tree α} {k p : Nat} (h : HasPlace t.layout k p) :
    k = 0 ∨ 1 ≤ k ∧ k < t.layout.size := by
  obtain ⟨_, _, _, hk, -⟩ := h
  exact layout_region hk

theorem layout_children {t : Tree α} {k : Nat} {left : UInt32} {box : Box α}
    (hfits : t.layout.size ≤ maxNodes) (h : t.layout[k]? = some (.branch box left)) :
    k < left.toNat ∧ left.toNat + 1 < t.layout.size := by
  have := t.layout_writtenAt.child_bounds hfits (by omega) (layout_region h) h
  omega

theorem layout_parent {t : Tree α} {c : Nat} (hfits : t.layout.size ≤ maxNodes) (hpos : 0 < c)
    (hc : c < t.layout.size) : ∃! k, IsChild t.layout k c := by
  obtain ⟨k, ⟨-, hchild⟩, hunique⟩ :=
    t.layout_writtenAt.existsUnique_parent hfits (by omega) ⟨hpos, hc⟩
  refine ⟨k, hchild, fun j hj => hunique j ⟨?_, hj⟩⟩
  obtain ⟨_, _, hbranch, -⟩ := hj
  exact layout_region hbranch

/-- Every node of the array stands for the part of the tree in the same place. -/
theorem exists_part_of_layout {t : Tree α} {k : Nat} (h : k < t.layout.size) :
    ∃ s lo hi, t.parts[k]? = some s ∧ IsSubtree t s ∧ WrittenAt t.layout s k lo hi ∧ k < lo ∧
      hi ≤ t.layout.size := by
  rw [size_layout, ← length_parts] at h
  cases k with
  | zero => exact ⟨t, 1, _, rfl, .refl, t.layout_writtenAt, one_pos, le_rfl⟩
  | succ k =>
    have hk : t.descendants[k]? = some _ := List.getElem?_eq_getElem (Nat.lt_of_succ_lt_succ h)
    obtain ⟨lo, hi, hwritten, hklo, hhi, hsub⟩ := t.layout_writtenAt.exists_writtenAt_descendant hk
    rw [Nat.add_comm 1 k] at hwritten hklo
    exact ⟨_, lo, hi, hk, hsub, hwritten, hklo, hhi⟩

/-- A leaf of the array is a leaf of the tree. -/
theorem isSubtree_of_layout_leaf {t : Tree α} {k first count : Nat} {box : Box α}
    (h : t.layout[k]? = some (.leaf box first count)) : IsSubtree t (.leaf box first count) := by
  obtain ⟨s, lo, hi, hs, hwritten, -⟩ :=
    t.layout_writtenAt.exists_subtree (by omega) (layout_region h)
  cases hwritten with
  | branch hk => simp [hk] at h
  | leaf hk =>
    obtain ⟨rfl, rfl, rfl⟩ : _ = box ∧ _ = first ∧ _ = count := by simpa [hk] using h
    exact hs

theorem layout_leaf_pos {t : Tree α} {first last k start count : Nat} {box : Box α}
    (hspans : t.Spans first last) (h : t.layout[k]? = some (.leaf box start count)) :
    0 < count := by
  obtain ⟨_, _, hleaf, -⟩ := (isSubtree_of_layout_leaf h).spans hspans
  exact hleaf.2.2

theorem layout_hasPlace_unique {t : Tree α} {first last j k p : Nat} (hspans : t.Spans first last)
    (hj : HasPlace t.layout j p) (hk : HasPlace t.layout k p) : j = k := by
  have hp := t.layout_writtenAt.hasPlace_bounds (by omega) hspans (layout_hasPlace_region hj) hj
  exact (t.layout_writtenAt.existsUnique_hasPlace (by omega) hspans hp).unique
    ⟨layout_hasPlace_region hj, hj⟩ ⟨layout_hasPlace_region hk, hk⟩

end Tree

/-! ## Built hierarchies -/

variable [Scalar α]

section

variable {items : Array (Item α)} {method : SplitMethod} {k : Nat} {node : Node α}

theorem nodes_build (h : 0 < items.size) :
    (build method items).nodes = (built items method).1.layout := by
  rw [build_of_pos method h]
  rfl

theorem indices_build (h : 0 < items.size) :
    (build method items).indices = (built items method).2 := by
  rw [build_of_pos method h]

/-- A hierarchy with a node is built over at least one item. -/
theorem pos_of_node (h : (build method items).nodes[k]? = some node) : 0 < items.size := by
  by_contra hzero
  obtain rfl : items = #[] := Array.eq_empty_of_size_eq_zero (by omega)
  exact absurd h (by simp [build, nodes])

/-- The node at `k` stands for a part `s` of the tree.  It comes from a range that the build came to
when the permutation was `before`, and what is below it is written from `lo` up to `hi`. -/
structure IsPart (items : Array (Item α)) (method : SplitMethod) (k : Nat) (s : Tree α)
    (lo hi first count : Nat) (before : Array Nat) : Prop where
  partAt_eq : (build method items).partAt k = some s
  isSubtree : IsSubtree (built items method).1 s
  written : WrittenAt (build method items).nodes s k lo hi
  lt : k < lo
  le : hi ≤ (build method items).nodes.size
  reached : Reached items method first count before
  eq : s = (subdivide items method first count before).1

/-- Every node of a hierarchy stands for a part of the tree. -/
theorem exists_isPart (h : (build method items).nodes[k]? = some node) :
    ∃ s lo hi first count before, IsPart items method k s lo hi first count before := by
  have hpos := pos_of_node h
  rw [nodes_build hpos] at h
  obtain ⟨s, lo, hi, hpart, hsub, hwritten, hklo, hhi⟩ :=
    Tree.exists_part_of_layout (Array.getElem?_eq_some_iff.1 h).1
  obtain ⟨first, count, before, hreached, hmade⟩ := exists_reached_of_isSubtree hsub
  refine ⟨s, lo, hi, first, count, before, ?_, hsub, ?_, hklo, ?_, hreached, hmade⟩
  · rwa [build_of_pos method hpos]
  · rwa [nodes_build hpos]
  · rwa [nodes_build hpos]

namespace IsPart

variable {s : Tree α} {lo hi first count : Nat} {before : Array Nat}

theorem pos (h : IsPart items method k s lo hi first count before) : 0 < items.size := by
  have hlo := h.written.le
  have hlt := h.lt
  have hle := h.le
  exact pos_of_node (Array.getElem?_eq_getElem (show 0 < (build method items).nodes.size by omega))

theorem box_eq (h : IsPart items method k s lo hi first count before) :
    s.box = rangeBox items before first count := by
  rw [h.eq, box_subdivide]

theorem spans (h : IsPart items method k s lo hi first count before) :
    s.Spans first (first + count) :=
  h.eq ▸ h.reached.spans h.pos

theorem le_indices (h : IsPart items method k s lo hi first count before) :
    first + count ≤ (build method items).indices.size := by
  obtain ⟨hperm, -, hsize⟩ := h.reached.perm h.pos
  have hsizes := (built_perm method items).length_eq.trans hperm.length_eq.symm
  rw [Array.length_toList, Array.length_toList] at hsizes
  rwa [indices_build h.pos, hsizes]

/-- The links below a node lead to the leaves with the places that its part spans. -/
theorem exists_below_hasPlace_iff (h : IsPart items method k s lo hi first count before)
    (hfits : (build method items).nodes.size ≤ maxNodes) (p : Nat) :
    (∃ j, IsBelow (build method items).nodes k j ∧ HasPlace (build method items).nodes j p) ↔
      first ≤ p ∧ p < first + count :=
  h.written.exists_below_hasPlace_iff (h.le.trans hfits) h.lt h.spans

end IsPart

end

/-- What holds of the nodes and the permutation of a hierarchy over at least one item. -/
structure Shaped (items : Array (Item α)) (nodes : Array (Node α)) (indices : Array Nat) :
    Prop where
  indices_perm : indices.toList.Perm (List.range items.size)
  leaf_pos : ∀ (k : Nat) (box : Box α) (first count : Nat),
    nodes[k]? = some (.leaf box first count) → 0 < count
  leaf_disjoint : ∀ j k p, HasPlace nodes j p → HasPlace nodes k p → j = k
  leaf_union : ∀ p, (∃ k, HasPlace nodes k p) ↔ p < items.size
  size_eq : nodes.size = 2 * nodes.toList.countP Node.isLeaf - 1
  size_le : nodes.size ≤ 2 * items.size - 1

/-- The links make one binary tree of the nodes: each leads to two nodes further behind, and to
every node but the first leads exactly one. -/
structure Linked (items : Array (Item α)) (method : SplitMethod) (nodes : Array (Node α))
    (indices : Array Nat) : Prop where
  children : ∀ (k : Nat) (box : Box α) (left : UInt32), nodes[k]? = some (.branch box left) →
    k < left.toNat ∧ left.toNat + 1 < nodes.size
  parent : ∀ c, 0 < c → c < nodes.size → ∃! k, IsChild nodes k c
  /-- The items below a branch are those of the range that it was made from, as the range was when
  the build came to it. -/
  branch_items : ∀ (k : Nat) (box : Box α) (left : UInt32), nodes[k]? = some (.branch box left) →
    ∃ first count before, Reached items method first count before ∧
      box = rangeBox items before first count ∧
      (∀ p, (∃ j, IsBelow nodes k j ∧ HasPlace nodes j p) ↔ first ≤ p ∧ p < first + count) ∧
      (range indices first count).Perm (range before first count)

section

variable {items : Array (Item α)} {method : SplitMethod}

theorem shaped_build (hpos : 0 < items.size) :
    Shaped items (build method items).nodes (build method items).indices := by
  have hspans := built_spans method hpos
  have hwritten := (built items method).1.layout_writtenAt
  have hsize := (built items method).1.size_add_one
  have hleaves := hspans.leafCount_le
  rw [nodes_build hpos, indices_build hpos]
  refine
    { indices_perm := built_perm method items
      leaf_pos := fun k box first count => Tree.layout_leaf_pos hspans
      leaf_disjoint := fun j k p => Tree.layout_hasPlace_unique hspans
      leaf_union := fun p => ⟨?_, fun hp => ?_⟩
      size_eq := ?_
      size_le := ?_ }
  · rintro ⟨k, hk⟩
    exact (hwritten.hasPlace_bounds (by omega) hspans (Tree.layout_hasPlace_region hk) hk).2
  · obtain ⟨k, ⟨-, hk⟩, -⟩ := hwritten.existsUnique_hasPlace (by omega) hspans ⟨Nat.zero_le p, hp⟩
    exact ⟨k, hk⟩
  · rw [Tree.size_layout, Tree.countP_layout]
    omega
  · rw [Tree.size_layout]
    omega

theorem linked_build (hpos : 0 < items.size)
    (hfits : (build method items).nodes.size ≤ maxNodes) :
    Linked items method (build method items).nodes (build method items).indices where
  children k box left hk := by
    rw [nodes_build hpos] at hk hfits ⊢
    exact Tree.layout_children hfits hk
  parent c := by
    rw [nodes_build hpos] at hfits ⊢
    exact Tree.layout_parent hfits
  branch_items k box left hk := by
    obtain ⟨s, lo, hi, first, count, before, hpart⟩ := exists_isPart hk
    refine ⟨first, count, before, hpart.reached, ?_, hpart.exists_below_hasPlace_iff hfits, ?_⟩
    · exact (hpart.written.box_eq hk).trans hpart.box_eq
    · rw [indices_build hpos]
      exact hpart.reached.range_perm hpos

/-- To the last one of too many nodes leads no link. -/
theorem Linked.size_le {nodes : Array (Node α)} {indices : Array Nat}
    (h : Linked items method nodes indices) : nodes.size ≤ maxNodes := by
  by_contra hlt
  have hmax : 0 < maxNodes := by decide
  obtain ⟨k, hchild, -⟩ := h.parent maxNodes hmax (by omega)
  exact absurd hchild.lt_maxNodes (lt_irrefl maxNodes)

end

/-- The leaves of a hierarchy cut the permutation of its items into ranges; without items there are
no nodes.  The links make one binary tree of the nodes if and only if these are not too many for
them, as they never are for up to `2 ^ 31` items. -/
theorem build_shaped (method : SplitMethod) (items : Array (Item α)) :
    (items.size = 0 → (build method items).nodes = #[]) ∧
      (0 < items.size →
        Shaped items (build method items).nodes (build method items).indices ∧
          (Linked items method (build method items).nodes (build method items).indices ↔
            (build method items).nodes.size ≤ maxNodes)) ∧
      (items.size ≤ 2 ^ 31 → (build method items).nodes.size ≤ maxNodes) := by
  have hempty : items.size = 0 → (build method items).nodes = #[] := by
    intro hzero
    obtain rfl : items = #[] := Array.eq_empty_of_size_eq_zero hzero
    rfl
  refine ⟨hempty, fun hpos => ⟨shaped_build hpos, Linked.size_le, linked_build hpos⟩, fun hle => ?_⟩
  obtain hzero | hpos := Nat.eq_zero_or_pos items.size
  · simp [hempty hzero]
  · have hshaped : Shaped items (build method items).nodes (build method items).indices :=
      shaped_build hpos
    have hsize := hshaped.size_le
    unfold maxNodes
    omega

end Radiance.Hierarchy
