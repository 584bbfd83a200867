import Radiance.Proofs.Mesh.Access
import Radiance.Shape.Wavefront

/-!
# Objects merged into one mesh

The objects of a file are appended one after the other, and the vertex numbers of each are shifted
by the number of vertices in front of it.  An object that has been added is carried on from then on:
whatever is added later stands behind it.  Normals and texture coordinates are dropped as soon as
one object lacks them; as long as none does, they stand beside the vertices.

## Main definitions

* `Vec3.at?`, `Vec2.at?`: a vector by its number, read off its components.
* `ObjectModel.IsWhole`: the relations between the lengths of the parts of an object.
* `Mesh.Parts.Carries`: the corners of an object are found from a place on.
* `Mesh.Parts.IsAligned`: indices name vertices, and attributes that are kept stand beside them.

## Main statements

* `Mesh.Parts.carries_add`, `Mesh.Parts.Carries.foldl_add`: an object is carried once it has been
  added, and stays so.
* `Mesh.ofModels_keeps_triangles`: every triangle of every object is in the mesh, with its
  attributes.
-/

namespace Radiance

variable {α β : Type}

/-! ## Vectors by number -/

/-- The vector with a number among vectors whose components stand one after the other. -/
def Vec3.at? (xs : Array α) (v : Nat) : Option (Vec3 α) := do
  return ⟨← xs[3 * v]?, ← xs[3 * v + 1]?, ← xs[3 * v + 2]?⟩

/-- The pair with a number among pairs whose components stand one after the other. -/
def Vec2.at? (xs : Array α) (v : Nat) : Option (Vec2 α) := do
  return ⟨← xs[2 * v]?, ← xs[2 * v + 1]?⟩

theorem Vec3.size_triples (xs : Array α) : (triples xs).size = xs.size / 3 := by
  simp [triples]

theorem Vec2.size_pairs (xs : Array α) : (pairs xs).size = xs.size / 2 := by
  simp [pairs]

theorem Vec3.getElem?_triples (xs : Array α) (v : Nat) : (triples xs)[v]? = at? xs v := by
  by_cases hv : v < xs.size / 3
  · simp [triples, at?, hv, show 3 * v < xs.size by omega, show 3 * v + 1 < xs.size by omega,
      show 3 * v + 2 < xs.size by omega]
  · simp [triples, at?, hv, show xs.size ≤ 3 * v + 2 by omega]

theorem Vec2.getElem?_pairs (xs : Array α) (v : Nat) : (pairs xs)[v]? = at? xs v := by
  by_cases hv : v < xs.size / 2
  · simp [pairs, at?, hv, show 2 * v < xs.size by omega, show 2 * v + 1 < xs.size by omega]
  · simp [pairs, at?, hv, show xs.size ≤ 2 * v + 1 by omega]

/-! ## Objects -/

namespace ObjectModel

variable {o : ObjectModel α}

def triangleCount (o : ObjectModel α) : Nat := o.indices.size / 3

/-- What is known of the vertex that an index of the object names. -/
def corner? (o : ObjectModel α) (known : Nat → Option β) (k : Nat) : Option β := do
  known (← o.indices[k]?).toNat

/-- What is known of the three corners of a triangle of the object. -/
def perCorner? (o : ObjectModel α) (known : Nat → Option β) (j : Nat) : Option (β × β × β) := do
  return (← o.corner? known (3 * j), ← o.corner? known (3 * j + 1), ← o.corner? known (3 * j + 2))

/-- The positions are whole vectors, the indices are whole triangles, and all of them name
vertices of the object. -/
structure IsWhole (o : ObjectModel α) : Prop where
  size_positions : o.positions.size = 3 * o.vertexCount
  size_indices : o.indices.size = 3 * o.triangleCount
  index_lt : ∀ i ∈ o.indices, i.toNat < o.vertexCount

/-- There is a normal for each vertex. -/
def HasNormals (o : ObjectModel α) : Prop := o.normals.size = 3 * o.vertexCount

/-- There are texture coordinates for each vertex. -/
def HasUvs (o : ObjectModel α) : Prop := o.texcoords.size = 2 * o.vertexCount

theorem HasNormals.size_triples (h : o.HasNormals) :
    (Vec3.triples o.normals).size = o.vertexCount := by
  rw [Vec3.size_triples, h, Nat.mul_div_cancel_left _ (by omega)]

theorem HasUvs.size_pairs (h : o.HasUvs) : (Vec2.pairs o.texcoords).size = o.vertexCount := by
  rw [Vec2.size_pairs, h, Nat.mul_div_cancel_left _ (by omega)]

end ObjectModel

/-! ## Adding objects -/

namespace Mesh.Parts

variable {m : Parts α} {o : ObjectModel α} {known : Nat → Option β} {indices : Array Nat}
  {xs : Array β} {base : Nat}

/-- A word counts on from a number as long as it does not run over. -/
theorem toNat_add_ofNat {i : UInt32} {n count : Nat} (hi : i.toNat < count)
    (hfits : n + count ≤ 2 ^ 32) : (i + UInt32.ofNat n).toNat = n + i.toNat := by
  rw [UInt32.toNat_add, UInt32.toNat_ofNat', Nat.add_mod_mod, Nat.mod_eq_of_lt (by omega),
    Nat.add_comm]

/-- What is known of the vertices of an object is found at its corners, which stand from a place on
in a list of indices. -/
def Finds (indices : Array Nat) (xs : Array β) (o : ObjectModel α) (known : Nat → Option β)
    (base : Nat) : Prop :=
  ∀ k < o.indices.size, ∃ x, o.corner? known k = some x ∧ namedBy? indices xs (base + k) = some x

/-- More indices and more vertices behind those that are there change nothing. -/
theorem Finds.append (h : Finds indices xs o known base) (moreIndices : Array Nat)
    (more : Array β) : Finds (indices ++ moreIndices) (xs ++ more) o known base := by
  intro k hk
  obtain ⟨x, hx, hnamed⟩ := h k hk
  obtain ⟨v, hv, hxv⟩ := Option.bind_eq_some_iff.1 hnamed
  refine ⟨x, hx, Option.bind_eq_some_iff.2 ⟨v, ?_, ?_⟩⟩
  · rw [Array.getElem?_append_left (Array.getElem?_eq_some_iff.1 hv).1, hv]
  · rw [Array.getElem?_append_left (Array.getElem?_eq_some_iff.1 hxv).1, hxv]

/-- Indices that are shifted by the number of vertices in front find what has been appended to
them, as long as the words do not run over. -/
theorem finds_appended (ho : o.IsWhole) (hfits : xs.size + o.vertexCount ≤ 2 ^ 32) {ys : Array β}
    (hsize : ys.size = o.vertexCount) (hys : ∀ v, ys[v]? = known v) :
    Finds (indices ++ o.indices.map fun i => (i + UInt32.ofNat xs.size).toNat) (xs ++ ys) o known
      indices.size := by
  intro k hk
  have hlt := ho.index_lt o.indices[k] (Array.getElem_mem hk)
  have hindex : (indices ++ o.indices.map fun i => (i + UInt32.ofNat xs.size).toNat)[
      indices.size + k]? = some (xs.size + o.indices[k].toNat) := by
    rw [Array.getElem?_append_right (by omega), Nat.add_sub_cancel_left, Array.getElem?_map,
      Array.getElem?_eq_getElem hk, Option.map_some, toNat_add_ofNat hlt hfits]
  have hfound : (xs ++ ys)[xs.size + o.indices[k].toNat]? = known o.indices[k].toNat := by
    rw [Array.getElem?_append_right (by omega), Nat.add_sub_cancel_left, hys]
  obtain ⟨x, hx⟩ : ∃ x, known o.indices[k].toNat = some x :=
    ⟨_, (hys _).symm.trans (Array.getElem?_eq_getElem (hsize ▸ hlt))⟩
  refine ⟨x, ?_, ?_⟩
  · rw [ObjectModel.corner?, Array.getElem?_eq_getElem hk]
    exact hx
  · rw [namedBy?, hindex]
    exact hfound.trans hx

/-- The corners of an object stand from a place on, with their positions and with the attributes
that are kept. -/
structure Carries (m : Parts α) (o : ObjectModel α) (base : Nat) : Prop where
  positions : Finds m.indices m.positions o (Vec3.at? o.positions) base
  normals : m.allNormals = true → Finds m.indices m.normals o (Vec3.at? o.normals) base
  uvs : m.allUvs = true → Finds m.indices m.uvs o (Vec2.at? o.texcoords) base

/-- All indices name vertices, and attributes that are kept stand beside the vertices. -/
structure IsAligned (m : Parts α) : Prop where
  index_lt : ∀ v ∈ m.indices, v < m.positions.size
  size_normals : m.allNormals = true → m.normals.size = m.positions.size
  size_uvs : m.allUvs = true → m.uvs.size = m.positions.size

theorem size_positions_add (m : Parts α) (o : ObjectModel α) :
    (m.add o).positions.size = m.positions.size + o.vertexCount := by
  simp [add, Vec3.size_triples, ObjectModel.vertexCount]

theorem allNormals_add : (m.add o).allNormals = true ↔ m.allNormals = true ∧ o.HasNormals := by
  simp [add, ObjectModel.HasNormals]

theorem allUvs_add : (m.add o).allUvs = true ↔ m.allUvs = true ∧ o.HasUvs := by
  simp [add, ObjectModel.HasUvs]

theorem normals_add (h : o.HasNormals) :
    (m.add o).normals = m.normals ++ Vec3.triples o.normals := by
  have hsize : o.normals.size = 3 * o.vertexCount := h
  simp [add, hsize]

theorem uvs_add (h : o.HasUvs) : (m.add o).uvs = m.uvs ++ Vec2.pairs o.texcoords := by
  have hsize : o.texcoords.size = 2 * o.vertexCount := h
  simp [add, hsize]

theorem normals_append (m : Parts α) (o : ObjectModel α) :
    ∃ more, (m.add o).normals = m.normals ++ more := by
  by_cases h : o.HasNormals
  · exact ⟨_, normals_add h⟩
  · have hsize : ¬o.normals.size = 3 * o.vertexCount := h
    exact ⟨#[], by simp [add, hsize]⟩

theorem uvs_append (m : Parts α) (o : ObjectModel α) :
    ∃ more, (m.add o).uvs = m.uvs ++ more := by
  by_cases h : o.HasUvs
  · exact ⟨_, uvs_add h⟩
  · have hsize : ¬o.texcoords.size = 2 * o.vertexCount := h
    exact ⟨#[], by simp [add, hsize]⟩

/-- An object that is carried stays so when another one is added. -/
theorem Carries.add (h : m.Carries o base) (later : ObjectModel α) :
    (m.add later).Carries o base where
  positions := h.positions.append _ _
  normals hall := by
    obtain ⟨more, hmore⟩ := normals_append m later
    rw [hmore]
    exact (h.normals (allNormals_add.1 hall).1).append _ _
  uvs hall := by
    obtain ⟨more, hmore⟩ := uvs_append m later
    rw [hmore]
    exact (h.uvs (allUvs_add.1 hall).1).append _ _

theorem Carries.foldl_add (h : m.Carries o base) (later : List (ObjectModel α)) :
    (later.foldl Parts.add m).Carries o base := by
  induction later generalizing m with
  | nil => exact h
  | cons next rest ih => exact ih (h.add next)

section

variable (hm : m.IsAligned) (ho : o.IsWhole) (hfits : m.positions.size + o.vertexCount ≤ 2 ^ 32)

include hm ho hfits

/-- An object is carried once it has been added. -/
theorem carries_add : (m.add o).Carries o m.indices.size where
  positions := finds_appended ho hfits (Vec3.size_triples _) (Vec3.getElem?_triples _)
  normals hall := by
    obtain ⟨hbefore, hnormals⟩ := allNormals_add.1 hall
    have hsize := hm.size_normals hbefore
    rw [normals_add hnormals]
    simp only [Parts.add, ← hsize]
    exact finds_appended ho (hsize ▸ hfits) hnormals.size_triples (Vec3.getElem?_triples _)
  uvs hall := by
    obtain ⟨hbefore, huvs⟩ := allUvs_add.1 hall
    have hsize := hm.size_uvs hbefore
    rw [uvs_add huvs]
    simp only [Parts.add, ← hsize]
    exact finds_appended ho (hsize ▸ hfits) huvs.size_pairs (Vec2.getElem?_pairs _)

theorem IsAligned.add : (m.add o).IsAligned where
  index_lt v hv := by
    rw [size_positions_add]
    obtain hv | hv := Array.mem_append.1 hv
    · exact Nat.lt_add_right _ (hm.index_lt v hv)
    · obtain ⟨i, hi, rfl⟩ := Array.mem_map.1 hv
      have hlt := ho.index_lt i hi
      rw [toNat_add_ofNat hlt hfits]
      omega
  size_normals hall := by
    obtain ⟨hbefore, hnormals⟩ := allNormals_add.1 hall
    rw [size_positions_add, normals_add hnormals, Array.size_append, hnormals.size_triples,
      hm.size_normals hbefore]
  size_uvs hall := by
    obtain ⟨hbefore, huvs⟩ := allUvs_add.1 hall
    rw [size_positions_add, uvs_add huvs, Array.size_append, huvs.size_pairs,
      hm.size_uvs hbefore]

end

/-! ## All objects -/

/-- The parts after some objects have been added to none. -/
structure Merges (m : Parts α) (models : List (ObjectModel α)) : Prop extends IsAligned m where
  size_positions : m.positions.size = (models.map (·.vertexCount)).sum
  size_indices : m.indices.size = 3 * (models.map (·.triangleCount)).sum
  allNormals_iff : m.allNormals = true ↔ ∀ o ∈ models, o.HasNormals
  allUvs_iff : m.allUvs = true ↔ ∀ o ∈ models, o.HasUvs

variable {models : List (ObjectModel α)}

theorem merges_nil : ({} : Parts α).Merges [] where
  index_lt := by simp
  size_normals := by simp
  size_uvs := by simp
  size_positions := rfl
  size_indices := rfl
  allNormals_iff := by simp
  allUvs_iff := by simp

theorem Merges.add (h : m.Merges models) (ho : o.IsWhole)
    (hfits : m.positions.size + o.vertexCount ≤ 2 ^ 32) : (m.add o).Merges (models ++ [o]) where
  toIsAligned := h.toIsAligned.add ho hfits
  size_positions := by
    simp [size_positions_add, h.size_positions]
  size_indices := by
    simp only [Parts.add, Array.size_append, Array.size_map, h.size_indices, ho.size_indices,
      List.map_append, List.sum_append, List.map_cons, List.map_nil, List.sum_cons, List.sum_nil]
    omega
  allNormals_iff := by
    rw [allNormals_add, h.allNormals_iff]
    simp [or_imp, forall_and]
  allUvs_iff := by
    rw [allUvs_add, h.allUvs_iff]
    simp [or_imp, forall_and]

/-- Whole objects are merged as long as the words can number their vertices. -/
theorem Merges.foldl_add (h : m.Merges models) {later : List (ObjectModel α)}
    (hlater : ∀ o ∈ later, o.IsWhole)
    (hfits : ((models ++ later).map (·.vertexCount)).sum ≤ 2 ^ 32) :
    (later.foldl Parts.add m).Merges (models ++ later) := by
  induction later generalizing m models with
  | nil => simpa using h
  | cons o rest ih =>
    rw [List.append_cons] at hfits ⊢
    refine ih (h.add (hlater o List.mem_cons_self) ?_)
      (fun o' ho' => hlater o' (List.mem_cons_of_mem o ho')) hfits
    rw [h.size_positions]
    simp only [List.map_append, List.sum_append, List.map_cons, List.map_nil, List.sum_cons,
      List.sum_nil] at hfits
    omega

/-- Every object is carried by the parts at the end, from behind the triangles of the objects in
front of it. -/
theorem carries_foldl_add {before after : List (ObjectModel α)}
    (hwhole : ∀ o' ∈ before ++ o :: after, o'.IsWhole)
    (hfits : ((before ++ o :: after).map (·.vertexCount)).sum ≤ 2 ^ 32) :
    ((before ++ o :: after).foldl Parts.add {}).Carries o
      (3 * (before.map (·.triangleCount)).sum) := by
  have hsum : ((before ++ o :: after).map (·.vertexCount)).sum = (before.map (·.vertexCount)).sum +
      (o.vertexCount + (after.map (·.vertexCount)).sum) := by simp
  have hbefore : (before.foldl Parts.add {}).Merges ([] ++ before) :=
    merges_nil.foldl_add (fun o' ho' => hwhole o' (List.mem_append_left _ ho'))
      (by rw [List.nil_append]; omega)
  rw [List.nil_append] at hbefore
  rw [List.foldl_append, List.foldl_cons, ← hbefore.size_indices]
  refine (carries_add hbefore.toIsAligned (hwhole o (by simp)) ?_).foldl_add after
  rw [hbefore.size_positions]
  omega

theorem Merges.isEmpty_indices_iff (h : m.Merges models) (hwhole : ∀ o ∈ models, o.IsWhole) :
    m.indices.isEmpty = true ↔ ∀ o ∈ models, o.indices = #[] := by
  rw [Array.isEmpty_iff_size_eq_zero, h.size_indices, Nat.mul_eq_zero, List.sum_eq_zero_iff]
  simp only [List.forall_mem_map, OfNat.ofNat_ne_zero, false_or]
  refine forall₂_congr fun o ho => ?_
  have hsize := (hwhole o ho).size_indices
  rw [← Array.size_eq_zero_iff]
  omega

end Mesh.Parts

namespace Mesh

open Parts

variable {o : ObjectModel α} {known : Nat → Option β}

/-- What is found at corners is found at triangles. -/
theorem perCorner?_of_finds {m : Mesh α} {xs : Array β} {b j : Nat}
    (h : Finds m.indices xs o known (3 * b)) (hj : j < o.triangleCount) :
    ∃ corners, o.perCorner? known j = some corners ∧ m.perCorner? xs (b + j) = some corners := by
  rw [ObjectModel.triangleCount] at hj
  obtain ⟨x, hx, hx'⟩ := h (3 * j) (by omega)
  obtain ⟨y, hy, hy'⟩ := h (3 * j + 1) (by omega)
  obtain ⟨t, ht, ht'⟩ := h (3 * j + 2) (by omega)
  refine ⟨(x, y, t), by simp [ObjectModel.perCorner?, hx, hy, ht], ?_⟩
  simp only [perCorner?, Nat.mul_add, Nat.add_assoc] at hx' hy' ht' ⊢
  simp [hx', hy', ht']

variable [Scalar α] {models : List (ObjectModel α)}

omit [Scalar α] in
theorem filter_kept {kept : Bool} {xs : Array β} {n : Nat} (h : kept = true → xs.size = n) :
    (if kept then some xs else none).filter (·.size = n) = if kept then some xs else none := by
  cases kept with
  | false => rfl
  | true => simp [h rfl]

/-- Aligned parts with indices are accepted as they are. -/
theorem exists_ofModels_eq_ok (path : String) (h : (models.foldl Parts.add {}).IsAligned)
    (hne : (models.foldl Parts.add {}).indices.isEmpty = false) :
    ∃ m, ofModels path models = .ok m ∧
      m.positions = (models.foldl Parts.add {}).positions ∧
      m.indices = (models.foldl Parts.add {}).indices ∧
      m.normals = (if (models.foldl Parts.add {}).allNormals then
        some (models.foldl Parts.add {}).normals else none) ∧
      m.uvs = if (models.foldl Parts.add {}).allUvs then
        some (models.foldl Parts.add {}).uvs else none := by
  simp only [ofModels, hne, Bool.false_eq_true, if_false]
  generalize models.foldl Parts.add {} = parts at h
  cases hm : ofParts parts.positions parts.indices (if parts.allNormals then some parts.normals
      else none) (if parts.allUvs then some parts.uvs else none) with
  | error e =>
    obtain ⟨v, hv, hle⟩ := exists_ofParts_eq_error_iff.1 ⟨e, hm⟩
    exact absurd (h.index_lt v hv) (Nat.not_lt.2 hle)
  | ok m =>
    obtain ⟨rfl, -⟩ := eq_of_ofParts hm
    exact ⟨_, rfl, rfl, rfl, filter_kept h.size_normals, filter_kept h.size_uvs⟩

/-- Whole objects of at most 2³² vertices make a mesh unless all of them are empty.  Normals and
texture coordinates are kept exactly if each object gives them for each of its vertices.  The mesh
has the triangles of the objects, those of one behind those of the objects in front of it, and the
corners of each have the positions and the attributes that are kept that the object gave them. -/
theorem ofModels_keeps_triangles (path : String) (models : List (ObjectModel α))
    (hwhole : ∀ o ∈ models, o.IsWhole)
    (hfits : (models.map (·.vertexCount)).sum ≤ 2 ^ 32) :
    (∀ e, ofModels path models = .error e ↔
      e = .empty path ∧ ∀ o ∈ models, o.indices = #[]) ∧
    ((∃ o ∈ models, o.indices ≠ #[]) → ∃ m, ofModels path models = .ok m ∧
      m.vertexCount = (models.map (·.vertexCount)).sum ∧
      m.triangleCount = (models.map (·.triangleCount)).sum ∧
      (m.normals.isSome ↔ ∀ o ∈ models, o.normals.size = 3 * o.vertexCount) ∧
      (m.uvs.isSome ↔ ∀ o ∈ models, o.texcoords.size = 2 * o.vertexCount) ∧
      ∀ before o after, models = before ++ o :: after → ∀ j < o.triangleCount,
        let i := (before.map (·.triangleCount)).sum + j
        (∃ corners, o.perCorner? (Vec3.at? o.positions) j = some corners ∧
          m.perCorner? m.positions i = some corners) ∧
        (∀ ns ∈ m.normals, ∃ corners, o.perCorner? (Vec3.at? o.normals) j = some corners ∧
          m.perCorner? ns i = some corners) ∧
        (∀ ts ∈ m.uvs, ∃ corners, o.perCorner? (Vec2.at? o.texcoords) j = some corners ∧
          m.perCorner? ts i = some corners)) := by
  have hmerges : (models.foldl Parts.add {}).Merges models :=
    merges_nil.foldl_add hwhole hfits
  have hempty := hmerges.isEmpty_indices_iff hwhole
  have hok := exists_ofModels_eq_ok path hmerges.toIsAligned
  refine ⟨fun e => ?_, fun ⟨o, ho, hindices⟩ => ?_⟩
  · rw [← hempty]
    by_cases hnone : (models.foldl Parts.add {}).indices.isEmpty = true
    · simp [ofModels, hnone, eq_comm]
    · obtain ⟨m, hm, -⟩ := hok (by simpa using hnone)
      simp [hm, hnone]
  · have hsome : ¬(models.foldl Parts.add {}).indices.isEmpty = true := fun hnone =>
      hindices (hempty.1 hnone o ho)
    obtain ⟨m, hm, hpositions, hindices, hnormals, huvs⟩ := hok (by simpa using hsome)
    refine ⟨m, hm, ?_, ?_, ?_, ?_, fun before o after hsplit j hj => ?_⟩
    · rw [vertexCount, hpositions, hmerges.size_positions]
    · rw [triangleCount, hindices, hmerges.size_indices, Nat.mul_div_cancel_left _ (by omega)]
    · simpa [hnormals, ObjectModel.HasNormals] using hmerges.allNormals_iff
    · simpa [huvs, ObjectModel.HasUvs] using hmerges.allUvs_iff
    · have hcarries : (models.foldl Parts.add {}).Carries o
          (3 * (before.map (·.triangleCount)).sum) := by
        subst hsplit
        exact carries_foldl_add hwhole hfits
      refine ⟨?_, fun ns hns => ?_, fun ts hts => ?_⟩
      · rw [hpositions]
        exact perCorner?_of_finds (hindices ▸ hcarries.positions) hj
      · obtain ⟨hkept, rfl⟩ : (models.foldl Parts.add {}).allNormals = true ∧
            (models.foldl Parts.add {}).normals = ns := by simpa [hnormals] using hns
        exact perCorner?_of_finds (hindices ▸ hcarries.normals hkept) hj
      · obtain ⟨hkept, rfl⟩ : (models.foldl Parts.add {}).allUvs = true ∧
            (models.foldl Parts.add {}).uvs = ts := by simpa [huvs] using hts
        exact perCorner?_of_finds (hindices ▸ hcarries.uvs hkept) hj

/-- A triangle with normals that point up. -/
def floorModel : ObjectModel Float32 where
  positions := #[0, 0, 0, 1, 0, 0, 0, 1, 0]
  normals := #[0, 0, 1, 0, 0, 1, 0, 0, 1]
  indices := #[0, 1, 2]

/-- Two triangles over four vertices, with normals and texture coordinates. -/
def panelModel : ObjectModel Float32 where
  positions := #[0, 0, 2, 1, 0, 2, 0, 1, 2, 1, 1, 2]
  normals := #[0, 1, 0, 1, 0, 0, 0, 0, 1, 1, 0, 0]
  texcoords := #[0, 0, 1, 0, 0, 1, 1, 1]
  indices := #[0, 1, 2, 1, 3, 2]

/-- The texture coordinates of the panel are dropped beside a floor without any; its second triangle
is the third of the mesh and has its normals. -/
theorem ofModels_keeps_triangles_panel :
    (∀ o ∈ [floorModel, panelModel], o.IsWhole) ∧
    ([floorModel, panelModel].map (·.vertexCount)).sum ≤ 2 ^ 32 ∧
    ∃ m ns, ofModels "room.obj" [floorModel, panelModel] = .ok m ∧ m.uvs = none ∧
      m.normals = some ns ∧
      ∃ corners, panelModel.perCorner? (Vec3.at? panelModel.normals) 1 = some corners ∧
        m.perCorner? ns 2 = some corners := by
  have hwhole : ∀ o ∈ [floorModel, panelModel], o.IsWhole :=
    List.forall_mem_cons.2 ⟨⟨rfl, rfl, by simp [floorModel, ObjectModel.vertexCount]⟩,
      List.forall_mem_cons.2
        ⟨⟨rfl, rfl, by simp [panelModel, ObjectModel.vertexCount]⟩, by simp⟩⟩
  have hfits : ([floorModel, panelModel].map (·.vertexCount)).sum ≤ 2 ^ 32 := by decide
  obtain ⟨m, hm, -, -, hnormals, huvs, htriangles⟩ :=
    (ofModels_keeps_triangles "room.obj" _ hwhole hfits).2 ⟨floorModel, by simp, by decide⟩
  obtain ⟨ns, hns⟩ := Option.isSome_iff_exists.1 (hnormals.2 (by decide))
  have hdropped : m.uvs.isSome = false := by
    rw [Bool.eq_false_iff, ne_eq, huvs]
    decide
  obtain ⟨-, hkept, -⟩ := htriangles [floorModel] panelModel [] rfl 1 (by decide)
  exact ⟨hwhole, hfits, m, ns, hm, by simpa using hdropped, hns, hkept ns hns⟩

end Mesh

end Radiance
