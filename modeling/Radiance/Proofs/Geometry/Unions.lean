import Radiance.Geometry.Box
import Radiance.Proofs.Scalar.Exact

/-!
# Unions of boxes

Over exact scalars the box around two boxes depends neither on their order nor on how they are
grouped, so the union of a list of boxes is that of any other arrangement of them.

## Main statements

* `Box.union_append`, `Box.union_flatten`: the union of unions.
* `Box.union_perm`: the union of the same boxes in another order.
-/

namespace Radiance

open Exact

variable {z : ZeroSign}

/-! ## The smaller and the larger of two -/

section

variable {a : Exact z}

theorem Exact.min_infinity (h : a ≠ undefined) : Scalar.min a infinity = a := by
  cases a <;> simp_all [Scalar.min, lt_def, lt]

theorem Exact.max_negInfinity (h : a ≠ undefined) : Scalar.max a negInfinity = a := by
  cases a <;> simp_all [Scalar.max, lt_def, lt]

theorem Exact.smaller_comm (a b : Exact z) : Scalar.min a b = Scalar.min b a := by
  cases a <;> cases b <;> simp [min_number, min_comm, infinity_min, min_infinity]

theorem Exact.larger_comm (a b : Exact z) : Scalar.max a b = Scalar.max b a := by
  cases a <;> cases b <;> simp [max_number, max_comm, negInfinity_max, max_negInfinity]

theorem Exact.smaller_assoc (a b c : Exact z) :
    Scalar.min (Scalar.min a b) c = Scalar.min a (Scalar.min b c) := by
  cases a <;> cases b <;> cases c <;>
    simp [min_number, min_assoc, infinity_min, min_infinity]

theorem Exact.larger_assoc (a b c : Exact z) :
    Scalar.max (Scalar.max a b) c = Scalar.max a (Scalar.max b c) := by
  cases a <;> cases b <;> cases c <;>
    simp [max_number, max_assoc, negInfinity_max, max_negInfinity]

end

/-! ## Intervals and boxes -/

theorem Interval.surrounding_comm (i j : Interval (Exact z)) : i.surrounding j = j.surrounding i :=
  Interval.ext (smaller_comm ..) (larger_comm ..)

theorem Interval.surrounding_assoc (i j k : Interval (Exact z)) :
    (i.surrounding j).surrounding k = i.surrounding (j.surrounding k) :=
  Interval.ext (smaller_assoc ..) (larger_assoc ..)

namespace Box

theorem surrounding_comm (b c : Box (Exact z)) : b.surrounding c = c.surrounding b := by
  rw [surrounding, Interval.surrounding_comm b.x, Interval.surrounding_comm b.y,
    Interval.surrounding_comm b.z, ← surrounding]

theorem surrounding_assoc (b c d : Box (Exact z)) :
    (b.surrounding c).surrounding d = b.surrounding (c.surrounding d) := by
  simp only [surrounding, Interval.surrounding_assoc]

instance : Std.Commutative (surrounding : Box (Exact z) → _) := ⟨surrounding_comm⟩

instance : Std.Associative (surrounding : Box (Exact z) → _) := ⟨surrounding_assoc⟩

/-- The order of the boxes does not matter. -/
theorem union_perm {boxes boxes' : List (Box (Exact z))} (h : boxes.Perm boxes') :
    union boxes = union boxes' := h.foldl_eq _

theorem union_surrounding_empty (boxes : List (Box (Exact z))) :
    (union boxes).surrounding empty = union boxes := by
  have hinterval : (Interval.empty : Interval (Exact z)).surrounding .empty = .empty :=
    Interval.ext (infinity_min nofun) (negInfinity_max nofun)
  have hempty : (empty : Box (Exact z)).surrounding empty = empty := by
    rw [surrounding, empty, hinterval]
  calc (union boxes).surrounding empty = empty.surrounding (union boxes) := surrounding_comm ..
    _ = boxes.foldl surrounding (empty.surrounding empty) := List.foldl_assoc.symm
    _ = union boxes := by rw [hempty, union]

theorem union_append (boxes boxes' : List (Box (Exact z))) :
    union (boxes ++ boxes') = (union boxes).surrounding (union boxes') :=
  calc union (boxes ++ boxes') = boxes'.foldl surrounding (union boxes) := List.foldl_append
    _ = boxes'.foldl surrounding ((union boxes).surrounding empty) := by
      rw [union_surrounding_empty]
    _ = (union boxes).surrounding (union boxes') := List.foldl_assoc

theorem union_cons (b : Box (Exact z)) (boxes : List (Box (Exact z))) :
    union (b :: boxes) = (union [b]).surrounding (union boxes) := union_append [b] boxes

/-- The union of unions is the union of all their boxes. -/
theorem union_flatten (parts : List (List (Box (Exact z)))) :
    union (parts.map union) = union parts.flatten := by
  induction parts with
  | nil => rfl
  | cons boxes parts ih =>
    have hsingle : union [union boxes] = union boxes := by
      change empty.surrounding (union boxes) = _
      rw [surrounding_comm, union_surrounding_empty]
    rw [List.map_cons, union_cons, hsingle, ih, List.flatten_cons, union_append]

end Box

end Radiance
