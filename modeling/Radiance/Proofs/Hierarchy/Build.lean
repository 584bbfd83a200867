import Radiance.Proofs.Hierarchy.Rearrange

/-!
# How a hierarchy is built

One step of the builder looks at a range of the permutation and either leaves it to a leaf or cuts
it in two.  `divide` is that step; everything said about a built tree follows from what it can do.

## Main definitions

* `divide`: the permutation after one step, and the place of the cut if there is one.
* `Tree.Spans`: the leaves of a tree cover a range of places, in order and without gaps.
* `IsSubtree`: the nodes of a tree, each with what hangs below it.
* `Reached`: the ranges that a build comes to, each with the permutation at that moment.

## Main statements

* `subdivide_spans`, `subdivide_rearranges`: what a whole subdivision does.
* `exists_reached_of_isSubtree`: every node of a built tree comes from a range that the build came
  to, and still holds the items that the range held then.
-/

namespace Radiance.Hierarchy

variable {α : Type}

/-! ## The places below a node -/

namespace Tree

/-- The leaves below a node cover the places from `first` up to `last`, from left to right, each at
least one of them. -/
def Spans : Tree α → Nat → Nat → Prop
  | leaf _ start count, first, last => start = first ∧ start + count = last ∧ 0 < count
  | branch _ l r, first, last => ∃ middle, l.Spans first middle ∧ r.Spans middle last

theorem Spans.lt {t : Tree α} {first last : Nat} (h : t.Spans first last) : first < last := by
  induction t generalizing first last with
  | leaf box start count =>
    obtain ⟨rfl, rfl, hpos⟩ := h
    omega
  | branch box l r ihl ihr =>
    obtain ⟨middle, hl, hr⟩ := h
    exact Nat.lt_trans (ihl hl) (ihr hr)

/-- The items below a node. -/
def members (indices : Array Nat) : Tree α → List Nat
  | leaf _ first count => range indices first count
  | branch _ l r => l.members indices ++ r.members indices

theorem Spans.members_eq {t : Tree α} {first last : Nat} (h : t.Spans first last)
    (indices : Array Nat) : t.members indices = range indices first (last - first) := by
  induction t generalizing first last with
  | leaf box start count =>
    obtain ⟨rfl, rfl, hpos⟩ := h
    simp [members]
  | branch box l r ihl ihr =>
    obtain ⟨middle, hl, hr⟩ := h
    have hlo := hl.lt
    have hhi := hr.lt
    rw [members, ihl hl, ihr hr, range_append indices (show first ≤ middle by omega)
      (show middle ≤ first + (last - first) by omega)]
    congr 2
    omega

/-- The number of leaves. -/
def leafCount : Tree α → Nat
  | leaf _ _ _ => 1
  | branch _ l r => l.leafCount + r.leafCount

theorem size_add_one (t : Tree α) : t.size + 1 = 2 * t.leafCount := by
  induction t with
  | leaf => rfl
  | branch box l r ihl ihr =>
    simp only [size, leafCount]
    omega

theorem leafCount_pos (t : Tree α) : 0 < t.leafCount := by
  have := t.size_add_one
  omega

theorem Spans.leafCount_le {t : Tree α} {first last : Nat} (h : t.Spans first last) :
    first + t.leafCount ≤ last := by
  induction t generalizing first last with
  | leaf box start count =>
    obtain ⟨rfl, rfl, hpos⟩ := h
    simp only [leafCount]
    omega
  | branch box l r ihl ihr =>
    obtain ⟨middle, hl, hr⟩ := h
    have hleft := ihl hl
    have hright := ihr hr
    simp only [leafCount]
    omega

end Tree

/-- A node of a tree, with what hangs below it. -/
inductive IsSubtree (t : Tree α) : Tree α → Prop
  | refl : IsSubtree t t
  | left {box : Box α} {l r : Tree α} : IsSubtree t (.branch box l r) → IsSubtree t l
  | right {box : Box α} {l r : Tree α} : IsSubtree t (.branch box l r) → IsSubtree t r

namespace IsSubtree

theorem trans {s t u : Tree α} (htu : IsSubtree t u) (hus : IsSubtree u s) : IsSubtree t s := by
  induction hus with
  | refl => exact htu
  | left _ ih => exact .left ih
  | right _ ih => exact .right ih

/-- What a node spans lies in what the tree spans. -/
theorem spans {s t : Tree α} {first last : Nat} (h : IsSubtree t s) (ht : t.Spans first last) :
    ∃ lo hi, s.Spans lo hi ∧ first ≤ lo ∧ hi ≤ last := by
  induction h with
  | refl => exact ⟨first, last, ht, Nat.le_refl _, Nat.le_refl _⟩
  | left _ ih =>
    obtain ⟨lo, hi, ⟨middle, hl, hr⟩, hlo, hhi⟩ := ih
    have := hr.lt
    exact ⟨lo, middle, hl, hlo, by omega⟩
  | right _ ih =>
    obtain ⟨lo, hi, ⟨middle, hl, hr⟩, hlo, hhi⟩ := ih
    have := hl.lt
    exact ⟨middle, hi, hr, by omega, hhi⟩

end IsSubtree

variable [Scalar α]

/-! ## One step -/

/-- Whether the centroid of an item lies in front of a plane. -/
def isBelow (items : Array (Item α)) (axis : Axis) (plane : α) (i : Nat) : Bool :=
  decide ((item items i).centroid.component axis < plane)

/-- The box around a range of the permutation. -/
def rangeBox (items : Array (Item α)) (indices : Array Nat) (first count : Nat) : Box α :=
  boundsOf items (range indices first count)

/-- The plane that a range is cut at, if it is large enough and has one. -/
def cutPlane (items : Array (Item α)) (method : SplitMethod) (first count : Nat)
    (indices : Array Nat) : Option α :=
  if count ≤ leafSize then none
  else splitPlane items method (rangeBox items indices first count) (range indices first count)

/-- The permutation after a range has been looked at, and the place of the cut if both of its sides
hold items. -/
def divide (items : Array (Item α)) (method : SplitMethod) (first count : Nat)
    (indices : Array Nat) : Array Nat × Option Nat :=
  match cutPlane items method first count indices with
  | none => (indices, none)
  | some plane =>
    let axis := (rangeBox items indices first count).longestAxis
    let (after, middle) :=
      partition (isBelow items axis plane) indices first (first + count)
    (after, if first < middle ∧ middle < first + count then some middle else none)

/-- A subdivision is one step, followed by the subdivision of both sides of the cut. -/
theorem subdivide_eq (items : Array (Item α)) (method : SplitMethod) (first count : Nat)
    (indices : Array Nat) :
    subdivide items method first count indices =
      match divide items method first count indices with
      | (after, none) => (.leaf (rangeBox items indices first count) first count, after)
      | (after, some middle) =>
        let left := subdivide items method first (middle - first) after
        let right := subdivide items method middle (first + count - middle) left.2
        (.branch (rangeBox items indices first count) left.1 right.1, right.2) := by
  rw [subdivide, divide, cutPlane]
  by_cases hsmall : count ≤ leafSize
  · simp only [hsmall, if_true]
    rfl
  simp only [hsmall, if_false]
  change (match splitPlane items method (rangeBox items indices first count)
    (range indices first count) with | none => _ | some plane => _) = _
  cases splitPlane items method (rangeBox items indices first count)
      (range indices first count) with
  | none => rfl
  | some plane =>
    obtain ⟨after, middle, hparts⟩ : ∃ after middle,
        partition (isBelow items (rangeBox items indices first count).longestAxis plane) indices
          first (first + count) = (after, middle) := ⟨_, _, rfl⟩
    have hparts' : partition (fun i => decide ((item items i).centroid.component
        (boundsOf items (range indices first count)).longestAxis < plane)) indices first
          (first + count) = (after, middle) := hparts
    simp only [hparts, hparts']
    by_cases hcut : first < middle ∧ middle < first + count
    · have hside : 0 < middle - first ∧ middle - first < count := by omega
      have hrest : count - (middle - first) = first + count - middle := by omega
      simp only [hcut, hside, hrest, and_self, if_true, dif_pos]
      rfl
    · have hside : ¬(0 < middle - first ∧ middle - first < count) := by omega
      simp only [hcut, hside, if_false, dif_neg, not_false_eq_true]
      rfl

theorem box_subdivide {items : Array (Item α)} {method : SplitMethod} (first count : Nat)
    (indices : Array Nat) :
    (subdivide items method first count indices).1.box = rangeBox items indices first count := by
  rw [subdivide_eq]
  split <;> rfl

/-- A branch comes from a range that was cut. -/
theorem exists_divide_of_branch {items : Array (Item α)} {method : SplitMethod} {first count : Nat}
    {before : Array Nat} {box : Box α} {l r : Tree α}
    (h : (subdivide items method first count before).1 = .branch box l r) :
    ∃ after middle, divide items method first count before = (after, some middle) ∧
      box = rangeBox items before first count ∧
      l = (subdivide items method first (middle - first) after).1 ∧
      r = (subdivide items method middle (first + count - middle)
        (subdivide items method first (middle - first) after).2).1 := by
  rw [subdivide_eq] at h
  cases hdivide : divide items method first count before with
  | mk after cut =>
    cases cut with
    | none => simp [hdivide] at h
    | some middle =>
      simp only [hdivide, Tree.branch.injEq] at h
      exact ⟨after, middle, rfl, h.1.symm, h.2.1.symm, h.2.2.symm⟩

/-- A leaf comes from a range that was not cut. -/
theorem exists_divide_of_leaf {items : Array (Item α)} {method : SplitMethod}
    {first count start size : Nat} {before : Array Nat} {box : Box α}
    (h : (subdivide items method first count before).1 = .leaf box start size) :
    ∃ after, divide items method first count before = (after, none) ∧
      box = rangeBox items before first count ∧ start = first ∧ size = count := by
  rw [subdivide_eq] at h
  cases hdivide : divide items method first count before with
  | mk after cut =>
    cases cut with
    | some middle => simp [hdivide] at h
    | none =>
      simp only [hdivide, Tree.leaf.injEq] at h
      exact ⟨after, rfl, h.1.symm, h.2.1.symm, h.2.2.symm⟩

/-- Every step rearranges its range, and a cut falls strictly inside. -/
theorem divide_spec {items : Array (Item α)} {method : SplitMethod} {first count : Nat}
    {before after : Array Nat} {cut : Option Nat} (hsize : first + count ≤ before.size)
    (h : divide items method first count before = (after, cut)) :
    Rearranges first (first + count) before after ∧
      ∀ middle ∈ cut, first < middle ∧ middle < first + count := by
  unfold divide at h
  split at h
  · cases h
    exact ⟨.refl _ _ _, by simp⟩
  next plane _ =>
    have hparts := partition_spec
      (isBelow items (rangeBox items before first count).longestAxis plane) before first
      (first + count) (by omega) hsize
    cases h
    refine ⟨hparts.rearranges, fun middle hmiddle => ?_⟩
    split at hmiddle
    next hcut =>
      cases hmiddle
      exact hcut
    next => cases hmiddle

/-! ## The whole subdivision -/

/-- A subdivision moves items inside its range alone. -/
theorem subdivide_rearranges (items : Array (Item α)) (method : SplitMethod) (first count : Nat)
    (before : Array Nat) (hsize : first + count ≤ before.size) :
    Rearranges first (first + count) before
      (subdivide items method first count before).2 := by
  induction count using Nat.strongRecOn generalizing first before with
  | _ count ih =>
    rw [subdivide_eq]
    cases h : divide items method first count before with
    | mk after cut =>
      obtain ⟨hafter, hcut⟩ := divide_spec hsize h
      cases cut with
      | none => exact hafter
      | some middle =>
        obtain ⟨hlo, hhi⟩ := hcut middle rfl
        have hleft := ih (middle - first) (by omega) first after
          (by rw [hafter.size_eq]; omega)
        have hright := ih (first + count - middle) (by omega) middle
          (subdivide items method first (middle - first) after).2
          (by rw [hleft.size_eq, hafter.size_eq]; omega)
        exact (hafter.trans (hleft.mono (by omega) (by omega))).trans
          (hright.mono (by omega) (by omega))

/-- Induction along a subdivision: a range that is not cut, or one that is cut into two ranges of
which the second is subdivided after the first. -/
theorem subdivide_induction (items : Array (Item α)) (method : SplitMethod)
    {motive : Nat → Nat → Array Nat → Tree α → Prop}
    (leaf : ∀ first count before after, first + count ≤ before.size → 0 < count →
      divide items method first count before = (after, none) →
      motive first count before (.leaf (rangeBox items before first count) first count))
    (branch : ∀ first count before after middle, first + count ≤ before.size →
      divide items method first count before = (after, some middle) →
      first < middle → middle < first + count →
      let left := subdivide items method first (middle - first) after
      let right := subdivide items method middle (first + count - middle) left.2
      motive first (middle - first) after left.1 →
      motive middle (first + count - middle) left.2 right.1 →
      motive first count before (.branch (rangeBox items before first count) left.1 right.1))
    (first count : Nat) (before : Array Nat) (hsize : first + count ≤ before.size)
    (hcount : 0 < count) :
    motive first count before (subdivide items method first count before).1 := by
  induction count using Nat.strongRecOn generalizing first before with
  | _ count ih =>
    rw [subdivide_eq]
    cases h : divide items method first count before with
    | mk after cut =>
      obtain ⟨hafter, hcut⟩ := divide_spec hsize h
      cases cut with
      | none => exact leaf first count before after hsize hcount h
      | some middle =>
        obtain ⟨hlo, hhi⟩ := hcut middle rfl
        have hafterSize := hafter.size_eq
        have hleftSize := (subdivide_rearranges items method first (middle - first) after
          (by omega)).size_eq
        exact branch first count before after middle hsize h hlo hhi
          (ih (middle - first) (by omega) first after (by omega) (by omega))
          (ih (first + count - middle) (by omega) middle _ (by omega) (by omega))

/-- The leaves of a subdivision cover its range. -/
theorem subdivide_spans (items : Array (Item α)) (method : SplitMethod) (first count : Nat)
    (before : Array Nat) (hsize : first + count ≤ before.size) (hcount : 0 < count) :
    (subdivide items method first count before).1.Spans first (first + count) := by
  refine subdivide_induction (motive := fun first count _ t => t.Spans first (first + count))
    items method ?_ ?_ first count before hsize hcount
  · intro first count before after _ hcount _
    exact ⟨rfl, rfl, hcount⟩
  · intro first count before after middle _ _ hlo hhi left right hleft hright
    refine ⟨middle, ?_, ?_⟩
    · rwa [Nat.add_sub_cancel' (by omega)] at hleft
    · rwa [Nat.add_sub_cancel' (by omega)] at hright

/-! ## The ranges a build comes to -/

/-- The tree over all items and the permutation after it is built. -/
def built (items : Array (Item α)) (method : SplitMethod) : Tree α × Array Nat :=
  subdivide items method 0 items.size (Array.range items.size)

theorem build_of_pos (method : SplitMethod) {items : Array (Item α)} (h : 0 < items.size) :
    build method items = ⟨some (built items method).1, (built items method).2⟩ := by
  have hne : items.isEmpty = false := by
    rw [Array.isEmpty_eq_false_iff]
    rintro rfl
    simp at h
  simp only [build, hne, Bool.false_eq_true, if_false]
  rfl

theorem built_spans (method : SplitMethod) {items : Array (Item α)} (h : 0 < items.size) :
    (built items method).1.Spans 0 items.size := by
  simpa [built] using subdivide_spans items method 0 items.size (Array.range items.size) (by simp) h

theorem built_perm (method : SplitMethod) (items : Array (Item α)) :
    (built items method).2.toList.Perm (List.range items.size) := by
  simpa [built] using
    (subdivide_rearranges items method 0 items.size (Array.range items.size) (by simp)).perm

/-- All items hang below the root. -/
theorem mem_members_built {items : Array (Item α)} {method : SplitMethod} (h : 0 < items.size)
    (i : Nat) : i ∈ (built items method).1.members (built items method).2 ↔ i < items.size := by
  have hperm := built_perm method items
  have hsize : (built items method).2.size = items.size := by simpa using hperm.length_eq
  rw [(built_spans method h).members_eq, Nat.sub_zero, ← hsize, range_all, hperm.mem_iff,
    List.mem_range, hsize]

/-- The build of a hierarchy comes to the range of `count` places from `first` on when the
permutation is `before`. -/
inductive Reached (items : Array (Item α)) (method : SplitMethod) : Nat → Nat → Array Nat → Prop
  | root : Reached items method 0 items.size (Array.range items.size)
  | left {first count middle : Nat} {before after : Array Nat} :
      Reached items method first count before →
      divide items method first count before = (after, some middle) →
      Reached items method first (middle - first) after
  | right {first count middle : Nat} {before after : Array Nat} :
      Reached items method first count before →
      divide items method first count before = (after, some middle) →
      Reached items method middle (first + count - middle)
        (subdivide items method first (middle - first) after).2

namespace Reached

variable {items : Array (Item α)} {method : SplitMethod} {first count : Nat} {before : Array Nat}

/-- The permutation holds every item once whenever the build comes to a range, and the range is not
empty. -/
theorem perm (h : Reached items method first count before) (hitems : 0 < items.size) :
    before.toList.Perm (List.range items.size) ∧ 0 < count ∧ first + count ≤ before.size := by
  induction h with
  | root => simpa using hitems
  | @left first count middle before after _ hdivide ih =>
    obtain ⟨hperm, hcount, hsize⟩ := ih
    obtain ⟨hafter, hcut⟩ := divide_spec hsize hdivide
    obtain ⟨hlo, hhi⟩ := hcut middle rfl
    have hafterSize := hafter.size_eq
    exact ⟨hafter.perm.trans hperm, by omega, by omega⟩
  | @right first count middle before after _ hdivide ih =>
    obtain ⟨hperm, hcount, hsize⟩ := ih
    obtain ⟨hafter, hcut⟩ := divide_spec hsize hdivide
    obtain ⟨hlo, hhi⟩ := hcut middle rfl
    have hafterSize := hafter.size_eq
    have hleft := subdivide_rearranges items method first (middle - first) after (by omega)
    have hleftSize := hleft.size_eq
    exact ⟨(hleft.perm.trans hafter.perm).trans hperm, by omega, by omega⟩

/-- A range that the build comes to is covered by the leaves that it is subdivided into. -/
theorem spans (h : Reached items method first count before) (hitems : 0 < items.size) :
    (subdivide items method first count before).1.Spans first (first + count) := by
  obtain ⟨-, hcount, hsize⟩ := h.perm hitems
  exact subdivide_spans items method first count before hsize hcount

/-- What the subdivision of a range leaves in its places stays there until the build ends. -/
theorem agrees (h : Reached items method first count before) (hitems : 0 < items.size) (p : Nat)
    (hfirst : first ≤ p) (hlast : p < first + count) :
    (built items method).2[p]? = (subdivide items method first count before).2[p]? := by
  induction h with
  | root => rfl
  | @left first count middle before after hreached hdivide ih =>
    obtain ⟨-, -, hsize⟩ := hreached.perm hitems
    obtain ⟨hafter, hcut⟩ := divide_spec hsize hdivide
    obtain ⟨hlo, hhi⟩ := hcut middle rfl
    have hafterSize := hafter.size_eq
    have hleftSize := (subdivide_rearranges items method first (middle - first) after
      (by omega)).size_eq
    have hright := subdivide_rearranges items method middle (first + count - middle)
      (subdivide items method first (middle - first) after).2 (by omega)
    rw [ih hfirst (by omega), subdivide_eq items method first count before, hdivide]
    exact hright.frame p (.inl (by omega))
  | @right first count middle before after hreached hdivide ih =>
    obtain ⟨-, -, hsize⟩ := hreached.perm hitems
    obtain ⟨-, hcut⟩ := divide_spec hsize hdivide
    obtain ⟨hlo, hhi⟩ := hcut middle rfl
    rw [ih (by omega) (by omega), subdivide_eq items method first count before, hdivide]

/-- At the end of the build a range still holds the items that it held when the build came to
it. -/
theorem range_perm (h : Reached items method first count before) (hitems : 0 < items.size) :
    (range (built items method).2 first count).Perm (range before first count) := by
  obtain ⟨-, -, hsize⟩ := h.perm hitems
  rw [range_congr (h.agrees hitems)]
  exact (subdivide_rearranges items method first count before hsize).range_perm hsize

end Reached

/-- Every node of a built tree is what a range that the build came to was subdivided into. -/
theorem exists_reached_of_isSubtree {items : Array (Item α)} {method : SplitMethod} {s : Tree α}
    (h : IsSubtree (built items method).1 s) :
    ∃ first count before, Reached items method first count before ∧
      s = (subdivide items method first count before).1 := by
  induction h with
  | refl => exact ⟨_, _, _, .root, rfl⟩
  | left _ ih =>
    obtain ⟨first, count, before, hreached, heq⟩ := ih
    obtain ⟨after, middle, hdivide, -, hl, -⟩ := exists_divide_of_branch heq.symm
    exact ⟨_, _, _, .left hreached hdivide, hl⟩
  | right _ ih =>
    obtain ⟨first, count, before, hreached, heq⟩ := ih
    obtain ⟨after, middle, hdivide, -, -, hr⟩ := exists_divide_of_branch heq.symm
    exact ⟨_, _, _, .right hreached hdivide, hr⟩

end Radiance.Hierarchy
