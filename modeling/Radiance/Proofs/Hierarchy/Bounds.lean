import Radiance.Proofs.Geometry.Entry
import Radiance.Proofs.Hierarchy.Layout
import Radiance.Proofs.Scalar.Extremes

/-!
# The boxes of a hierarchy

The box of a node is computed when the build comes to its range, before the range is rearranged.  It
is the tight box of the items that hang below the node at the end, on each axis and whatever is
undefined among their bounds, so it depends neither on the order of the items nor on the way nodes
are divided.  What hangs below a node is what the part of the tree holds that the node stands for;
the links of the array lead there too, unless there are too many nodes for them.

## Main definitions

* `Box.IsTight`: a box is the smallest around a set of boxes, undefined ends left aside.
* `Hierarchy.itemsOf`: the items that a part of the tree holds.
* `Hierarchy.itemsBelow`: the items in the leaves to which the links below a node lead.

## Main statements

* `Box.isTight_union`: the union of boxes is tight.
* `Hierarchy.isTight_of_isSubtree`: so is the box of every part of the tree around its items.
* `Hierarchy.IsPart.itemsBelow_eq`: the links below a node lead to the items of its part.
* `Hierarchy.build_tight`: what follows for the boxes of a hierarchy.
-/

namespace Radiance

/-! ## Tight boxes -/

namespace Box

/-- On each axis the box starts at the least start and ends at the greatest end of a set of boxes,
undefined ones left aside. -/
structure IsTight (b : Box Float32) (parts : Set (Box Float32)) : Prop where
  min : ∀ axis, Scalar.IsLeastDefined ((·.min.component axis) '' parts) (b.min.component axis)
  max : ∀ axis, Scalar.IsGreatestDefined ((·.max.component axis) '' parts) (b.max.component axis)

/-- No end is undefined. -/
def IsDefined (b : Box Float32) : Prop :=
  ∀ axis, Scalar.isNaN (b.min.component axis) = false ∧ Scalar.isNaN (b.max.component axis) = false

/-- The ends of two boxes differ at most in the signs of zeros. -/
def EqUpToZeroSign (b c : Box Float32) : Prop :=
  ∀ axis, Scalar.EqUpToZeroSign (b.min.component axis) (c.min.component axis) ∧
    Scalar.EqUpToZeroSign (b.max.component axis) (c.max.component axis)

variable {b c : Box Float32} {s t : Set (Box Float32)}

theorem isTight_union (boxes : List (Box Float32)) : (union boxes).IsTight {b | b ∈ boxes} where
  min axis := Binary32.selects_min.isFirst_foldl_of_hom
    (fun b : Box Float32 => b.min.component axis) _ (by cases axis <;> rfl)
    (fun b c => by cases axis <;> rfl) boxes
  max axis := Binary32.selects_max.isFirst_foldl_of_hom
    (fun b : Box Float32 => b.max.component axis) _ (by cases axis <;> rfl)
    (fun b c => by cases axis <;> rfl) boxes

namespace IsTight

theorem isDefined (h : b.IsTight s) : b.IsDefined :=
  fun axis => ⟨(h.min axis).defined, (h.max axis).defined⟩

theorem contains_of_mem (h : b.IsTight s) (hc : c ∈ s) (hdefined : c.IsDefined) :
    b.contains c = true :=
  contains_iff_axis.2 fun axis =>
    ⟨(h.min axis).first _ ⟨c, hc, rfl⟩ (hdefined axis).1,
      (h.max axis).first _ ⟨c, hc, rfl⟩ (hdefined axis).2⟩

/-- The tight box of more boxes is larger. -/
theorem contains_of_subset (ht : b.IsTight t) (hs : c.IsTight s) (hst : s ⊆ t) :
    b.contains c = true :=
  contains_iff_axis.2 fun axis =>
    ⟨(ht.min axis).rel Binary32.selects_min (hs.min axis) (Set.image_mono hst),
      (ht.max axis).rel Binary32.selects_max (hs.max axis) (Set.image_mono hst)⟩

/-- Boxes have one tight box, up to the signs of zeros. -/
theorem eqUpToZeroSign (hb : b.IsTight s) (hc : c.IsTight s) : b.EqUpToZeroSign c := by
  intro axis
  obtain ⟨hmin, hmax⟩ := contains_iff_axis.1 (hb.contains_of_subset hc subset_rfl) axis
  obtain ⟨hmin', hmax'⟩ := contains_iff_axis.1 (hc.contains_of_subset hb subset_rfl) axis
  exact ⟨Binary32.eqUpToZeroSign_of_le hmin hmin', Binary32.eqUpToZeroSign_of_le hmax' hmax⟩

end IsTight

end Box

/-! ## The boxes of nodes -/

namespace Hierarchy

section

variable {α : Type}

/-- The items that a part of the tree holds. -/
def itemsOf (h : Hierarchy α) (s : Tree α) : Set Nat := {i | i ∈ s.members h.indices}

/-- The items in the leaves to which the links below a node lead. -/
def itemsBelow (h : Hierarchy α) (k : Nat) : Set Nat :=
  {i | ∃ j p, IsBelow h.nodes k j ∧ HasPlace h.nodes j p ∧ h.indices[p]? = some i}

/-- Where a part of the tree stands, links lead to the items of the part. -/
theorem WrittenAt.itemsBelow_eq {h : Hierarchy α} {s : Tree α} {k lo hi first last : Nat}
    (hwritten : WrittenAt h.nodes s k lo hi) (hfits : hi ≤ maxNodes) (hklo : k < lo)
    (hspans : s.Spans first last) (hlast : last ≤ h.indices.size) :
    h.itemsBelow k = h.itemsOf s := by
  have hplaces (p : Nat) :
      (∃ j, IsBelow h.nodes k j ∧ HasPlace h.nodes j p) ↔ first ≤ p ∧ p < last :=
    hwritten.exists_below_hasPlace_iff hfits hklo hspans
  have hlt := hspans.lt
  ext i
  rw [itemsBelow, itemsOf, Set.mem_ofPred_eq, Set.mem_ofPred_eq, hspans.members_eq, mem_range]
  constructor
  · rintro ⟨j, p, hbelow, hplace, hi⟩
    obtain ⟨hfirst, hlast⟩ := (hplaces p).1 ⟨j, hbelow, hplace⟩
    exact ⟨p, hfirst, by omega, by simp [Array.getD_eq_getD_getElem?, hi]⟩
  · rintro ⟨p, hfirst, hp, hi⟩
    obtain ⟨j, hbelow, hplace⟩ := (hplaces p).2 ⟨hfirst, by omega⟩
    refine ⟨j, p, hbelow, hplace, ?_⟩
    have hp : p < h.indices.size := by omega
    simpa [Array.getD, hp] using hi

variable [Scalar α] {method : SplitMethod} {items : Array (Item α)}

/-- What a range is subdivided into holds the items that the range held when the build came to
it. -/
theorem Reached.itemsOf_eq {first count : Nat} {before : Array Nat}
    (h : Reached items method first count before) (hpos : 0 < items.size) :
    (build method items).itemsOf (subdivide items method first count before).1 =
      {i | i ∈ range before first count} := by
  ext i
  rw [itemsOf, Set.mem_ofPred_eq, (h.spans hpos).members_eq, Nat.add_sub_cancel_left,
    indices_build hpos, (h.range_perm hpos).mem_iff]
  rfl

/-- The links below a node lead to the items of its part. -/
theorem IsPart.itemsBelow_eq {s : Tree α} {k lo hi first count : Nat} {before : Array Nat}
    (h : IsPart items method k s lo hi first count before)
    (hfits : (build method items).nodes.size ≤ maxNodes) :
    (build method items).itemsBelow k = (build method items).itemsOf s :=
  h.written.itemsBelow_eq (h.le.trans hfits) h.lt h.spans h.le_indices

end

/-- The bounds of a set of items. -/
def boundsIn (items : Array (Item Float32)) (members : Set Nat) : Set (Box Float32) :=
  (fun i => (item items i).bounds) '' members

variable {method : SplitMethod} {items : Array (Item Float32)}

theorem isTight_rangeBox (indices : Array Nat) (first count : Nat) :
    (rangeBox items indices first count).IsTight
      (boundsIn items {i | i ∈ range indices first count}) := by
  simpa [boundsIn, Set.image, rangeBox, boundsOf] using
    Box.isTight_union ((range indices first count).map fun i => (item items i).bounds)

/-- The box of a part of the tree is tight around the items of the part. -/
theorem isTight_of_isSubtree {s : Tree Float32} (hpos : 0 < items.size)
    (h : IsSubtree (built items method).1 s) :
    s.box.IsTight (boundsIn items ((build method items).itemsOf s)) := by
  obtain ⟨first, count, before, hreached, rfl⟩ := exists_reached_of_isSubtree h
  rw [box_subdivide, hreached.itemsOf_eq hpos]
  exact isTight_rangeBox before first count

/-- A branch holds the items of its two children, so its box contains theirs. -/
theorem contains_of_isSubtree {box : Box Float32} {l r : Tree Float32} (hpos : 0 < items.size)
    (h : IsSubtree (built items method).1 (.branch box l r)) :
    box.contains l.box = true ∧ box.contains r.box = true := by
  have hbox := isTight_of_isSubtree hpos h
  constructor
  · refine hbox.contains_of_subset (isTight_of_isSubtree hpos h.left)
      (Set.image_mono fun i hi => ?_)
    exact List.mem_append_left _ hi
  · refine hbox.contains_of_subset (isTight_of_isSubtree hpos h.right)
      (Set.image_mono fun i hi => ?_)
    exact List.mem_append_right _ hi

/-- The box of a whole hierarchy is tight around all items. -/
theorem isTight_boundingBox (method : SplitMethod) (items : Array (Item Float32)) :
    (build method items).boundingBox.IsTight {b | b ∈ items.toList.map (·.bounds)} := by
  obtain hzero | hpos := Nat.eq_zero_or_pos items.size
  · obtain rfl : items = #[] := Array.eq_empty_of_size_eq_zero hzero
    exact Box.isTight_union []
  · have hall : items.toList.map (·.bounds) =
        (range (Array.range items.size) 0 items.size).map fun i => (item items i).bounds := by
      apply List.ext_getElem
      · simp [range]
      · intro i hi _
        have hi : i < items.size := by simpa using hi
        simp [range, item, Array.getD, hi]
    rw [build_of_pos method hpos, hall]
    change (subdivide items method 0 items.size (Array.range items.size)).1.box.IsTight _
    rw [box_subdivide]
    exact Box.isTight_union _

/-- The first node carries the box of the hierarchy. -/
theorem box_root {root : Node Float32} (h : (build method items).nodes[0]? = some root) :
    root.box = (build method items).boundingBox := by
  have hpos := pos_of_node h
  rw [nodes_build hpos] at h
  rw [build_of_pos method hpos]
  exact (Tree.layout_writtenAt _).box_eq h

/-- The links of a branch lead to nodes with smaller boxes. -/
theorem contains_of_isChild {k c : Nat} {node : Node Float32}
    (hfits : (build method items).nodes.size ≤ maxNodes)
    (h : (build method items).nodes[k]? = some node)
    (hchild : IsChild (build method items).nodes k c) :
    ∃ child, (build method items).nodes[c]? = some child ∧ node.box.contains child.box = true := by
  obtain ⟨s, lo, hi, first, count, before, hpart⟩ := exists_isPart h
  cases hwritten : hpart.written with
  | leaf hk =>
    obtain ⟨box, left, hbranch, -⟩ := hchild
    cases hk.symm.trans hbranch
  | branch hk hlt hl hr =>
    have hcontains := contains_of_isSubtree hpart.pos hpart.isSubtree
    obtain ⟨nodeL, hnodeL⟩ := hl.exists_node
    obtain ⟨nodeR, hnodeR⟩ := hr.exists_node
    rw [hpart.written.box_eq h]
    obtain rfl | rfl := (hpart.written.isChild_root (hpart.le.trans hfits)).1 hchild
    · exact ⟨nodeL, hnodeL, by rw [hl.box_eq hnodeL]; exact hcontains.1⟩
    · exact ⟨nodeR, hnodeR, by rw [hr.box_eq hnodeR]; exact hcontains.2⟩

/-- The boxes of a hierarchy, with whatever undefined or infinite ends in the bounds of its items:
every node has the tight box of the items that its part of the tree holds, to which its links lead
as well if they can reach all nodes; so the root contains the boxes of all items that have no
undefined ends, a branch contains the boxes of its children, and the box of the hierarchy depends
neither on the order of the items nor on the way nodes are divided. -/
theorem build_tight (method : SplitMethod) (items : Array (Item Float32)) :
    (∀ (k : Nat) (node : Node Float32), (build method items).nodes[k]? = some node →
        ∃ s, (build method items).partAt k = some s ∧ node.box = s.box ∧ node.box.IsDefined ∧
          node.box.IsTight (boundsIn items ((build method items).itemsOf s)) ∧
          (∀ box l r, s = .branch box l r →
            box.contains l.box = true ∧ box.contains r.box = true) ∧
          ((build method items).nodes.size ≤ maxNodes →
            (build method items).itemsBelow k = (build method items).itemsOf s ∧
              ∀ c, IsChild (build method items).nodes k c → ∃ child,
                (build method items).nodes[c]? = some child ∧
                  node.box.contains child.box = true)) ∧
      (∀ root : Node Float32, (build method items).nodes[0]? = some root →
        root.box = (build method items).boundingBox) ∧
      (∀ x ∈ items, x.bounds.IsDefined →
        (build method items).boundingBox.contains x.bounds = true) ∧
      ∀ (method' : SplitMethod) (items' : Array (Item Float32)),
        items'.toList.Perm items.toList →
        (build method' items').boundingBox.EqUpToZeroSign (build method items).boundingBox := by
  refine ⟨fun k node hk => ?_, fun root => box_root, fun x hx hdefined => ?_,
    fun method' items' hperm => ?_⟩
  · obtain ⟨s, lo, hi, first, count, before, hpart⟩ := exists_isPart hk
    have htight := isTight_of_isSubtree hpart.pos hpart.isSubtree
    rw [hpart.written.box_eq hk]
    refine ⟨s, hpart.partAt_eq, rfl, htight.isDefined, htight, ?_, fun hfits => ?_⟩
    · rintro box l r rfl
      exact contains_of_isSubtree hpart.pos hpart.isSubtree
    · refine ⟨hpart.itemsBelow_eq hfits, fun c hchild => ?_⟩
      rw [← hpart.written.box_eq hk]
      exact contains_of_isChild hfits hk hchild
  · apply (isTight_boundingBox method items).contains_of_mem _ hdefined
    exact List.mem_map.2 ⟨x, hx.val, rfl⟩
  · have hsame : {b | b ∈ items'.toList.map (·.bounds)} = {b | b ∈ items.toList.map (·.bounds)} :=
      Set.ext fun b => (hperm.map (·.bounds)).mem_iff
    exact (hsame ▸ isTight_boundingBox method' items').eqUpToZeroSign
      (isTight_boundingBox method items)

end Hierarchy

end Radiance
