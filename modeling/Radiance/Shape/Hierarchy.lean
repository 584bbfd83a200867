import Radiance.Shape.Hit

/-!
# Bounding hierarchies

A binary tree of boxes over indexed items, so that a ray meets few of them.  Leaves name ranges of a
permutation of the items; the items themselves stay where they are.

## Main definitions

* `Hierarchy.Tree`: the tree; `Hierarchy.Tree.layout` is its nodes in one flat array.
* `Hierarchy.partition`: the two-pointer partition of a range of the permutation.
* `Hierarchy.build`: the tree of a list of items, by midpoints or by the surface area heuristic.
* `Hierarchy.intersect`: the nearest hit of a ray, nearer children first.
-/

namespace Radiance

/-- How the plane that divides a node is chosen. -/
inductive SplitMethod
  /-- The middle of the box along its longest axis. -/
  | midpoint
  /-- The cheapest of evenly spaced planes, by surface area. -/
  | sah
  deriving Repr, DecidableEq, Inhabited

/-- What the hierarchy knows about an item. -/
structure Item (α : Type) where
  bounds : Box α
  centroid : Vec3 α
  deriving Repr, DecidableEq, Inhabited

namespace Hierarchy

/-- A leaf with a range of the permutation, or a branch with two children. -/
inductive Tree (α : Type)
  | leaf (box : Box α) (first count : Nat)
  | branch (box : Box α) (left right : Tree α)
  deriving Repr, DecidableEq, Inhabited

/-- A node of the flat layout: a branch names its left child in one word, and the right child
follows it.  Of a place that does not fit into a word only the low digits are kept. -/
inductive Node (α : Type)
  | branch (box : Box α) (left : UInt32)
  | leaf (box : Box α) (first count : Nat)
  deriving Repr, DecidableEq, Inhabited

namespace Tree

variable {α : Type}

def box : Tree α → Box α
  | leaf box _ _ => box
  | branch box _ _ => box

/-- The number of nodes. -/
def size : Tree α → Nat
  | leaf _ _ _ => 1
  | branch _ l r => l.size + r.size + 1

/-- Writes a tree into an array, its root at a given place, the children of each branch side by
side at the end of what has been written before. -/
def place : Tree α → Array (Node α) → Nat → Array (Node α)
  | leaf box first count, nodes, k => nodes.setIfInBounds k (.leaf box first count)
  | branch box l r, nodes, k =>
    let left := nodes.size
    let nodes := (nodes.setIfInBounds k (.branch box (.ofNat left))).push (.leaf l.box 0 0)
    let nodes := nodes.push (.leaf r.box 0 0)
    r.place (l.place nodes left) (left + 1)

/-- The nodes in one array, the root first. -/
def layout (t : Tree α) : Array (Node α) := t.place #[.leaf t.box 0 0] 0

end Tree

/-- Nodes with this many items or fewer are not divided. -/
def leafSize : Nat := 2

/-- The number of slabs that the surface area heuristic counts items in. -/
def binCount : Nat := 16

end Hierarchy

/-- A tree over items and the order in which its leaves name them. -/
structure Hierarchy (α : Type) where
  root : Option (Hierarchy.Tree α)
  indices : Array Nat
  deriving Repr, DecidableEq, Inhabited

namespace Hierarchy

variable {α : Type} [Scalar α]

def nodes (h : Hierarchy α) : Array (Node α) :=
  match h.root with
  | none => #[]
  | some tree => tree.layout

def boundingBox (h : Hierarchy α) : Box α :=
  match h.root with
  | none => .empty
  | some tree => tree.box

def centroid (h : Hierarchy α) : Vec3 α := h.boundingBox.center

/-! ## Building -/

/-- An item by its number; numbers in use are always in range. -/
def item (items : Array (Item α)) (i : Nat) : Item α := items.getD i ⟨.empty, .zero⟩

/-- The items in a range of the permutation. -/
def range (indices : Array Nat) (first count : Nat) : List Nat :=
  (List.range count).map fun k => indices.getD (first + k) 0

/-- The box around a list of items. -/
def boundsOf (items : Array (Item α)) (members : List Nat) : Box α :=
  .union (members.map fun i => (item items i).bounds)

/-- Moves the items of the places from `i` up to `j` that belong to the left in front of the others,
and gives the place where the others start.  An item that belongs to the right changes places with
the last item not yet looked at. -/
def partition (goesLeft : Nat → Bool) (indices : Array Nat) (i j : Nat) : Array Nat × Nat :=
  if i < j then
    if goesLeft (indices.getD i 0) then partition goesLeft indices (i + 1) j
    else partition goesLeft (indices.swapIfInBounds i (j - 1)) i (j - 1)
  else (indices, i)
  termination_by j - i

/-- The count and the box of the items in one slab. -/
structure Bin (α : Type) where
  count : Nat
  box : Box α

/-- The slab of a coordinate when `[lo, lo + extent]` is cut into `binCount` slabs. -/
def binOf (lo extent c : α) : Nat :=
  Nat.min (Scalar.toNat ((c - lo) / extent * Scalar.ofNat binCount)) (binCount - 1)

/-- The items of each slab, counted and boxed. -/
def bins (items : Array (Item α)) (members : List Nat) (axis : Axis) (lo extent : α) :
    List (Bin α) :=
  (List.range binCount).map fun b =>
    let mine := members.filter fun i => binOf lo extent ((item items i).centroid.component axis) = b
    ⟨mine.length, boundsOf items mine⟩

/-- All slabs of a list together. -/
def Bin.merge (bs : List (Bin α)) : Bin α :=
  ⟨bs.foldl (fun n b => n + b.count) 0, .union (bs.map (·.box))⟩

/-- The cost of dividing in front of slab `split`, unless a side stays empty. -/
def splitCost? (bs : List (Bin α)) (split : Nat) : Option α :=
  let left := Bin.merge (bs.take split)
  let right := Bin.merge (bs.drop split)
  if left.count = 0 ∨ right.count = 0 then none
  else
    some (Scalar.ofNat left.count * left.box.surfaceArea +
      Scalar.ofNat right.count * right.box.surfaceArea)

/-- The split and cost that remain when one more split is looked at: a later split has to be
cheaper. -/
def cheaper (bs : List (Bin α)) (best : Option Nat × α) (split : Nat) : Option Nat × α :=
  match splitCost? bs split with
  | none => best
  | some cost => if cost < best.2 then (some split, cost) else best

/-- The plane of the surface area heuristic, none if the centroids do not spread. -/
def sahSplit (items : Array (Item α)) (members : List Nat) (axis : Axis) : Option α :=
  let spread := members.foldl
    (fun s i => Interval.extend s ((item items i).centroid.component axis)) Interval.empty
  let extent := spread.max - spread.min
  if 0 < extent ∧ Scalar.isFinite extent then
    let bs := bins items members axis spread.min extent
    let splits := (List.range (binCount - 1)).map (· + 1)
    (splits.foldl (cheaper bs) (none, Scalar.infinity)).1.map fun split =>
      spread.min + extent * Scalar.ofNat split / Scalar.ofNat binCount
  else none

/-- The plane that divides a node. -/
def splitPlane (items : Array (Item α)) (method : SplitMethod) (box : Box α) (members : List Nat) :
    Option α :=
  match method with
  | .midpoint => some (box.center.component box.longestAxis)
  | .sah => sahSplit items members box.longestAxis

/-- The tree over a range of the permutation, and the permutation after its nodes have been
divided. -/
def subdivide (items : Array (Item α)) (method : SplitMethod) (first count : Nat)
    (indices : Array Nat) : Tree α × Array Nat :=
  let members := range indices first count
  let box := boundsOf items members
  if count ≤ leafSize then (.leaf box first count, indices)
  else
    match splitPlane items method box members with
    | none => (.leaf box first count, indices)
    | some plane =>
      let goesLeft i := decide ((item items i).centroid.component box.longestAxis < plane)
      let (indices, middle) := partition goesLeft indices first (first + count)
      let leftCount := middle - first
      if _h : 0 < leftCount ∧ leftCount < count then
        let (left, indices) := subdivide items method first leftCount indices
        let (right, indices) := subdivide items method middle (count - leftCount) indices
        (.branch box left right, indices)
      else (.leaf box first count, indices)
  termination_by count
  decreasing_by all_goals omega

/-- The hierarchy of a list of items. -/
def build (method : SplitMethod) (items : Array (Item α)) : Hierarchy α :=
  let indices := Array.range items.size
  if items.isEmpty then ⟨none, indices⟩
  else
    let (tree, indices) := subdivide items method 0 items.size indices
    ⟨some tree, indices⟩

/-! ## Queries -/

/-- The query of one item: whether it has a nearer hit, and the record after it. -/
abbrev Query (α : Type) := Nat → Hit α → Bool × Hit α

/-- Queries the items of a leaf in turn. -/
def queryAll (query : Query α) (members : List Nat) (hit : Hit α) : Bool × Hit α :=
  members.foldl
    (fun (found, hit) i =>
      let (here, hit) := query i hit.countPrimitive
      (found || here, hit))
    (false, hit)

/-- Queries two children in turn, each only if its box is entered before the nearest hit. -/
def queryBoth (near far : Hit α → Bool × Hit α) (tNear tFar : α) (hit : Hit α) : Bool × Hit α :=
  let (found, hit) := if tNear < hit.t then near hit else (false, hit)
  let (more, hit) := if tFar < hit.t then far hit else (false, hit)
  (found || more, hit)

/-- Queries a tree, the child whose box is entered first before the other. -/
def Tree.query (indices : Array Nat) (ray : Ray α) (invDirection : Vec3 α) (q : Query α) :
    Tree α → Hit α → Bool × Hit α
  | leaf _ first count, hit => queryAll q (range indices first count) hit.countNode
  | branch _ l r, hit =>
    let tLeft := l.box.rayEntry ray invDirection
    let tRight := r.box.rayEntry ray invDirection
    let left := l.query indices ray invDirection q
    let right := r.query indices ray invDirection q
    if tLeft ≤ tRight then queryBoth left right tLeft tRight hit.countNode
    else queryBoth right left tRight tLeft hit.countNode

/-- Whether some item has a hit nearer than the record, and the record after the query. -/
def intersect (h : Hierarchy α) (ray : Ray α) (q : Query α) (hit : Hit α) : Bool × Hit α :=
  match h.root with
  | none => (false, hit)
  | some tree =>
    let invDirection := ray.direction.recip
    if hit.t ≤ tree.box.rayEntry ray invDirection then (false, hit)
    else tree.query h.indices ray invDirection q hit

end Hierarchy

end Radiance
