import Radiance.Proofs.Hierarchy.Bounds
import Radiance.Shape.Mesh

/-!
# The places that a mesh is read at

A triangle is read at three indices and at the vertices that these name.  The reads below give
nothing as soon as one place is missing.  A mesh that has been accepted names vertices that exist
and has no other attributes than one for each vertex, and new normals keep it so; then every read
of a triangle succeeds, with the value that is computed without looking at the places.

## Main definitions

* `Mesh.triangle?`, `Mesh.perCorner?`: the indices of a triangle, and what is known of its corners.
* `Mesh.triangleBounds?`, `Mesh.triangleCentroid?`, `Mesh.computeNormals?`,
  `TriangleMesh.surfaceAt?`: the functions of a mesh, as long as all their places are there.
* `Mesh.IsSound`: the relations between the lengths of the parts of a mesh.

## Main statements

* `Mesh.isSound_of_ofParts`, `Mesh.IsSound.iterate_computeNormals`: accepted meshes are sound, and
  stay so.
* `Mesh.ofParts_reads_inside`: which meshes are accepted, and that nothing is read out of range.
-/

namespace Radiance

/-! ## Boxes around points -/

namespace Box

variable {α : Type}

/-- The box of a single point. -/
def point (p : Vec3 α) : Box α := ⟨⟨p.x, p.x⟩, ⟨p.y, p.y⟩, ⟨p.z, p.z⟩⟩

theorem hull_eq_union [Scalar α] (points : List (Vec3 α)) :
    hull points = union (points.map point) := by
  rw [union, List.foldl_map]
  rfl

/-- The box around some points lies in the box around more of them, whatever is undefined. -/
theorem contains_hull_of_subset {ps qs : List (Vec3 Float32)} (h : ∀ q ∈ qs, q ∈ ps) :
    (hull ps).contains (hull qs) = true := by
  rw [hull_eq_union, hull_eq_union]
  refine (isTight_union _).contains_of_subset (isTight_union _) fun b hb => ?_
  obtain ⟨q, hq, rfl⟩ := List.mem_map.1 hb
  exact List.mem_map_of_mem (h q hq)

end Box

/-! ## Reads -/

namespace Mesh

variable {α β : Type}

/-- The vertex numbers of a triangle, if its three indices are there. -/
def triangle? (m : Mesh α) (i : Nat) : Option (Nat × Nat × Nat) := do
  return (← m.indices[3 * i]?, ← m.indices[3 * i + 1]?, ← m.indices[3 * i + 2]?)

/-- What is known of the vertex that an index names. -/
def namedBy? (indices : Array Nat) (xs : Array β) (k : Nat) : Option β := do
  xs[← indices[k]?]?

/-- What is known of the three corners of a triangle, if it is known of each of them. -/
def perCorner? (m : Mesh α) (xs : Array β) (i : Nat) : Option (β × β × β) := do
  return (← namedBy? m.indices xs (3 * i), ← namedBy? m.indices xs (3 * i + 1),
    ← namedBy? m.indices xs (3 * i + 2))

variable [Scalar α]

def triangleBounds? (m : Mesh α) (i : Nat) : Option (Box α) := do
  let (a, b, c) ← m.perCorner? m.positions i
  return .hull [a, b, c]

def triangleCentroid? (m : Mesh α) (i : Nat) : Option (Vec3 α) := do
  let (a, b, c) ← m.perCorner? m.positions i
  return (a + b + c) / (3 : α)

/-- Adds a vector to the one at a place, if there is one. -/
def addAt? (normals : Array (Vec3 α)) (v : Nat) (n : Vec3 α) : Option (Array (Vec3 α)) := do
  let old ← normals[v]?
  return normals.setIfInBounds v (old + n)

def addFaceNormal? (m : Mesh α) (normals : Array (Vec3 α)) (i : Nat) :
    Option (Array (Vec3 α)) := do
  let (a, b, c) ← m.triangle? i
  let (p, q, r) ← m.perCorner? m.positions i
  let n := (q - p).cross (r - p)
  addAt? (← addAt? (← addAt? normals a n) b n) c n

def computeNormals? (m : Mesh α) : Option (Mesh α) := do
  let sums ← (List.range m.triangleCount).foldlM m.addFaceNormal?
    (Array.replicate m.vertexCount .zero)
  return { m with normals := some (sums.map fun n => n.normalize?.getD .unitZ) }

end Mesh

/-- The surface of a triangle, if the positions of its corners and the attributes that are looked at
are there. -/
def TriangleMesh.surfaceAt? {α : Type} [Scalar α] (m : TriangleMesh α) (index : Nat)
    (position : Vec3 α) (bary : Vec2 α) : Option (Surface α) := do
  let w : Vec3 α := ⟨1 - bary.x - bary.y, bary.x, bary.y⟩
  let (p, q, r) ← m.mesh.perCorner? m.mesh.positions index
  let geometric := ((q - p).cross (r - p)).normalize
  let normal ←
    match m.mesh.normals, m.smooth with
    | some ns, true => do
      let (a, b, c) ← m.mesh.perCorner? ns index
      pure ((w.x • a + w.y • b + w.z • c).normalize?.getD geometric)
    | _, _ => pure geometric
  let uv ←
    match m.mesh.uvs with
    | some ts => do
      let (a, b, c) ← m.mesh.perCorner? ts index
      pure (w.x • a + w.y • b + w.z • c)
    | none => pure bary
  return ⟨position, uv, .ofNormal normal, 0⟩

/-! ## Sound meshes -/

namespace Mesh

variable {α β : Type} [Scalar α]

/-- All indices name vertices, there is a normal and a pair of texture coordinates for each vertex
or for none, and the bounds are those of the vertices. -/
structure IsSound (m : Mesh α) : Prop where
  index_lt : ∀ v ∈ m.indices, v < m.vertexCount
  size_normals : ∀ ns ∈ m.normals, ns.size = m.vertexCount
  size_uvs : ∀ ts ∈ m.uvs, ts.size = m.vertexCount
  bounds_eq : m.bounds = .hull m.positions.toList

theorem ofParts_eq_error_iff {positions : Array (Vec3 α)} {indices : Array Nat}
    {normals : Option (Array (Vec3 α))} {uvs : Option (Array (Vec2 α))} {e : MeshError} :
    ofParts positions indices normals uvs = .error e ↔
      ∃ (k : Nat) (hk : k < indices.size), e = .indexOutOfRange indices[k] positions.size ∧
        positions.size ≤ indices[k] ∧ ∀ j (hj : j < k), indices[j] < positions.size := by
  unfold ofParts
  cases hfind : indices.find? (positions.size ≤ ·) with
  | none =>
    rw [Array.find?_eq_none] at hfind
    simp only [reduceCtorEq, false_iff, not_exists, not_and]
    exact fun k hk _ hle => absurd (decide_eq_true hle) (hfind _ (Array.getElem_mem hk))
  | some index =>
    rw [Array.find?_eq_some_iff_getElem] at hfind
    obtain ⟨hle, k, hk, rfl, hfirst⟩ := hfind
    simp only [Except.error.injEq]
    constructor
    · rintro rfl
      exact ⟨k, hk, rfl, by simpa using hle, fun j hj => by simpa using hfirst j hj⟩
    · rintro ⟨l, hl, rfl, hle', hfirst'⟩
      -- Both places are the first one out of range.
      obtain hkl | rfl | hlk := Nat.lt_trichotomy k l
      · exact absurd (hfirst' k hkl) (Nat.not_lt.2 (by simpa using hle))
      · rfl
      · exact absurd hle' (by simpa using hfirst l hlk)

section

variable {positions : Array (Vec3 α)} {indices : Array Nat} {normals : Option (Array (Vec3 α))}
  {uvs : Option (Array (Vec2 α))} {m : Mesh α}

theorem eq_of_ofParts (h : ofParts positions indices normals uvs = .ok m) :
    m = ⟨positions, normals.filter (·.size = positions.size), uvs.filter (·.size = positions.size),
        indices, .hull positions.toList⟩ ∧
      ∀ v ∈ indices, v < positions.size := by
  unfold ofParts at h
  split at h
  next => cases h
  next hnone =>
    cases h
    exact ⟨rfl, by simpa using Array.find?_eq_none.1 hnone⟩

theorem isSound_of_ofParts (h : ofParts positions indices normals uvs = .ok m) : m.IsSound := by
  obtain ⟨rfl, hlt⟩ := eq_of_ofParts h
  refine ⟨hlt, fun ns hns => ?_, fun ts hts => ?_, rfl⟩
  · simpa [vertexCount] using (Option.mem_filter_iff.1 hns).2
  · simpa [vertexCount] using (Option.mem_filter_iff.1 hts).2

theorem exists_ofParts_eq_error_iff :
    (∃ e, ofParts positions indices normals uvs = .error e) ↔
      ∃ v ∈ indices, positions.size ≤ v := by
  constructor
  · rintro ⟨e, he⟩
    obtain ⟨k, hk, -, hle, -⟩ := ofParts_eq_error_iff.1 he
    exact ⟨_, Array.getElem_mem hk, hle⟩
  · rintro ⟨v, hv, hle⟩
    cases hm : ofParts positions indices normals uvs with
    | error e => exact ⟨e, rfl⟩
    | ok m => exact absurd ((eq_of_ofParts hm).2 v hv) (Nat.not_lt.2 hle)

end

namespace IsSound

variable {m : Mesh α}

/-! ### New normals -/

theorem size_addFaceNormal (m : Mesh α) (normals : Array (Vec3 α)) (i : Nat) :
    (m.addFaceNormal normals i).size = normals.size := by
  simp [addFaceNormal]

theorem size_foldl_addFaceNormal (m : Mesh α) (triangles : List Nat) (normals : Array (Vec3 α)) :
    (triangles.foldl m.addFaceNormal normals).size = normals.size := by
  induction triangles generalizing normals with
  | nil => rfl
  | cons i rest ih => rw [List.foldl_cons, ih, size_addFaceNormal]

theorem computeNormals (h : m.IsSound) : m.computeNormals.IsSound where
  index_lt := h.index_lt
  size_normals ns hns := by
    cases hns
    simp [size_foldl_addFaceNormal, vertexCount, Mesh.computeNormals]
  size_uvs := h.size_uvs
  bounds_eq := h.bounds_eq

/-- New normals leave the vertices and the triangles as they are, any number of times. -/
theorem iterate_computeNormals (h : m.IsSound) (n : Nat) :
    (Mesh.computeNormals^[n] m).IsSound ∧
      (Mesh.computeNormals^[n] m).positions = m.positions ∧
      (Mesh.computeNormals^[n] m).indices = m.indices := by
  induction n with
  | zero => exact ⟨h, rfl, rfl⟩
  | succ n ih =>
    rw [Function.iterate_succ_apply']
    exact ⟨ih.1.computeNormals, ih.2⟩

/-! ### Reads of a triangle -/

theorem index_lt_of_lt (h : m.IsSound) {k : Nat} (hk : k < m.indices.size) :
    m.indices.getD k 0 < m.vertexCount := by
  rw [Array.getD, dif_pos hk]
  exact h.index_lt _ (Array.getElem_mem hk)

variable {i : Nat}

omit [Scalar α] in
theorem triangle?_eq (hi : i < m.triangleCount) : m.triangle? i = some (m.triangle i) := by
  have hlast : 3 * i + 2 < m.indices.size := by
    rw [triangleCount] at hi
    omega
  simp [triangle?, triangle, show 3 * i < m.indices.size by omega,
    show 3 * i + 1 < m.indices.size by omega, hlast]

theorem triangle_lt (h : m.IsSound) (hi : i < m.triangleCount) :
    (m.triangle i).1 < m.vertexCount ∧ (m.triangle i).2.1 < m.vertexCount ∧
      (m.triangle i).2.2 < m.vertexCount := by
  rw [triangleCount] at hi
  exact ⟨h.index_lt_of_lt (by omega), h.index_lt_of_lt (by omega), h.index_lt_of_lt (by omega)⟩

/-- What is known of each vertex is known of the corners of each triangle. -/
theorem perCorner?_eq {β : Type} (h : m.IsSound) (hi : i < m.triangleCount) {xs : Array β}
    (hxs : xs.size = m.vertexCount) (d : β) :
    m.perCorner? xs i = some (xs.getD (m.triangle i).1 d, xs.getD (m.triangle i).2.1 d,
      xs.getD (m.triangle i).2.2 d) := by
  have hcorner {k : Nat} (hk : k < m.indices.size) :
      namedBy? m.indices xs k = some (xs.getD (m.indices.getD k 0) d) := by
    have hv : m.indices[k] < xs.size := hxs ▸ h.index_lt _ (Array.getElem_mem hk)
    simp [namedBy?, Array.getD, hk, hv]
  rw [triangleCount] at hi
  rw [perCorner?, hcorner (by omega), hcorner (by omega), hcorner (by omega)]
  rfl

theorem perCorner?_positions (h : m.IsSound) (hi : i < m.triangleCount) :
    m.perCorner? m.positions i = some (m.corners i) :=
  h.perCorner?_eq hi rfl .zero

theorem triangleBounds?_eq (h : m.IsSound) (hi : i < m.triangleCount) :
    m.triangleBounds? i = some (m.triangleBounds i) := by
  rw [triangleBounds?, h.perCorner?_positions hi]
  rfl

theorem triangleCentroid?_eq (h : m.IsSound) (hi : i < m.triangleCount) :
    m.triangleCentroid? i = some (m.triangleCentroid i) := by
  rw [triangleCentroid?, h.perCorner?_positions hi]
  rfl

theorem surfaceAt?_eq {m : TriangleMesh α} (h : m.mesh.IsSound) (hi : i < m.mesh.triangleCount)
    (position : Vec3 α) (bary : Vec2 α) :
    m.surfaceAt? i position bary = some (m.surfaceAt i position bary) := by
  have hnormals := fun ns hns => h.perCorner?_eq hi (h.size_normals ns hns) .zero
  have huvs := fun ts hts => h.perCorner?_eq hi (h.size_uvs ts hts) .zero
  unfold TriangleMesh.surfaceAt? TriangleMesh.surfaceAt
  rw [h.perCorner?_positions hi]
  cases hu : m.mesh.uvs with
  | none =>
    cases hn : m.mesh.normals with
    | none => rfl
    | some ns =>
      cases m.smooth with
      | false => rfl
      | true =>
        simp only [hnormals ns hn]
        rfl
  | some ts =>
    cases hn : m.mesh.normals with
    | none =>
      simp only [huvs ts hu]
      rfl
    | some ns =>
      cases m.smooth with
      | false =>
        simp only [huvs ts hu]
        rfl
      | true =>
        simp only [hnormals ns hn, huvs ts hu]
        rfl

/-! ### The reads behind new normals -/

theorem addAt?_eq {normals : Array (Vec3 α)} {v : Nat} (hv : v < normals.size) (n : Vec3 α) :
    addAt? normals v n = some (normals.modify v (· + n)) := by
  rw [addAt?, Array.getElem?_eq_getElem hv]
  refine congrArg some (Array.ext_getElem? fun k => ?_)
  rw [Array.getElem?_modify, Array.getElem?_setIfInBounds]
  split
  next hk => subst hk; simp [hv]
  next => rfl

theorem addFaceNormal?_eq (h : m.IsSound) (hi : i < m.triangleCount) {normals : Array (Vec3 α)}
    (hsize : normals.size = m.vertexCount) :
    m.addFaceNormal? normals i = some (m.addFaceNormal normals i) := by
  have hlt := h.triangle_lt hi
  rw [addFaceNormal?, addFaceNormal, triangle?_eq hi, h.perCorner?_positions hi, corners]
  generalize m.triangle i = corners at hlt ⊢
  obtain ⟨a, b, c⟩ := corners
  obtain ⟨ha, hb, hc⟩ := hlt
  simp [addAt?_eq, hsize, ha, hb, hc]

theorem foldlM_addFaceNormal? (h : m.IsSound) {triangles : List Nat}
    (htriangles : ∀ i ∈ triangles, i < m.triangleCount) {normals : Array (Vec3 α)}
    (hsize : normals.size = m.vertexCount) :
    triangles.foldlM m.addFaceNormal? normals = some (triangles.foldl m.addFaceNormal normals) := by
  induction triangles generalizing normals with
  | nil => rfl
  | cons i rest ih =>
    rw [List.foldlM_cons, h.addFaceNormal?_eq (htriangles i List.mem_cons_self) hsize,
      List.foldl_cons]
    exact ih (fun j hj => htriangles j (List.mem_cons_of_mem i hj))
      ((size_addFaceNormal m normals i).trans hsize)

theorem computeNormals?_eq (h : m.IsSound) : m.computeNormals? = some m.computeNormals := by
  rw [computeNormals?, h.foldlM_addFaceNormal? (by simp) (by simp)]
  rfl

end IsSound

theorem IsSound.contains_triangleBounds {m : Mesh Float32} (h : m.IsSound) {i : Nat}
    (hi : i < m.triangleCount) : m.bounds.contains (m.triangleBounds i) = true := by
  obtain ⟨ha, hb, hc⟩ := h.triangle_lt hi
  have hposition {v : Nat} (hv : v < m.vertexCount) : m.position v ∈ m.positions.toList := by
    rw [position, Array.getD, dif_pos (show v < m.positions.size from hv)]
    exact Array.getElem_mem_toList hv
  rw [h.bounds_eq]
  refine Box.contains_hull_of_subset fun p hp => ?_
  simp only [List.mem_cons, List.not_mem_nil, or_false] at hp
  obtain rfl | rfl | rfl := hp
  · exact hposition ha
  · exact hposition hb
  · exact hposition hc

/-- Which parts make a mesh, and that no later read leaves the arrays.  Parts are refused for the
first index that names no vertex, and for nothing else.  However many triangles, surplus indices
and attributes of other lengths there are, and however often the normals are computed anew, all
places that a triangle of an accepted mesh is read at are there, and its box lies in the bounds of
the mesh. -/
theorem ofParts_reads_inside (positions : Array (Vec3 Float32)) (indices : Array Nat)
    (normals : Option (Array (Vec3 Float32))) (uvs : Option (Array (Vec2 Float32))) :
    (∀ e, ofParts positions indices normals uvs = .error e ↔
      ∃ (k : Nat) (hk : k < indices.size), e = .indexOutOfRange indices[k] positions.size ∧
        positions.size ≤ indices[k] ∧ ∀ j (hj : j < k), indices[j] < positions.size) ∧
    ((∃ e, ofParts positions indices normals uvs = .error e) ↔
      ∃ v ∈ indices, positions.size ≤ v) ∧
    ∀ m, ofParts positions indices normals uvs = .ok m →
      m.positions = positions ∧ m.indices = indices ∧ ∀ n, let m := computeNormals^[n] m
        m.computeNormals? = some m.computeNormals ∧ m.triangleCount = indices.size / 3 ∧
        ∀ i < m.triangleCount,
          m.triangle? i = some (m.triangle i) ∧
          m.triangleBounds? i = some (m.triangleBounds i) ∧
          m.triangleCentroid? i = some (m.triangleCentroid i) ∧
          (∀ (smooth : Bool) (hierarchy : Hierarchy Float32) (position : Vec3 Float32)
              (bary : Vec2 Float32),
            TriangleMesh.surfaceAt? ⟨m, smooth, hierarchy⟩ i position bary =
              some (TriangleMesh.surfaceAt ⟨m, smooth, hierarchy⟩ i position bary)) ∧
          m.bounds.contains (m.triangleBounds i) = true := by
  refine ⟨fun e => ofParts_eq_error_iff, exists_ofParts_eq_error_iff, fun m hm => ?_⟩
  have hmesh := (eq_of_ofParts hm).1
  have hindices : m.indices = indices := congrArg Mesh.indices hmesh
  refine ⟨congrArg Mesh.positions hmesh, hindices, fun n => ?_⟩
  obtain ⟨hsound, -, hsame⟩ := (isSound_of_ofParts hm).iterate_computeNormals n
  refine ⟨hsound.computeNormals?_eq, by rw [triangleCount, hsame, hindices], fun i hi => ?_⟩
  exact ⟨IsSound.triangle?_eq hi, hsound.triangleBounds?_eq hi, hsound.triangleCentroid?_eq hi,
    fun smooth hierarchy => IsSound.surfaceAt?_eq (m := ⟨_, smooth, hierarchy⟩) hsound hi,
    hsound.contains_triangleBounds hi⟩

/-- The corners of a square. -/
def squareCorners : Array (Vec3 Float32) := #[⟨0, 0, 0⟩, ⟨1, 0, 0⟩, ⟨0, 1, 0⟩, ⟨1, 1, 0⟩]

/-- Four vertices with seven indices and a single normal: two triangles without normals, whose
places are all there, also after their normals have been computed twice. -/
theorem ofParts_reads_inside_quad :
    ∃ m, ofParts squareCorners #[0, 1, 2, 1, 3, 2, 0] (some #[Vec3.unitZ]) none = .ok m ∧
      m.normals = none ∧
      (computeNormals^[2] m).triangle? 1 = some ((computeNormals^[2] m).triangle 1) ∧
      (computeNormals^[2] m).computeNormals? = some (computeNormals^[2] m).computeNormals := by
  obtain ⟨m, hm⟩ : ∃ m, ofParts squareCorners #[0, 1, 2, 1, 3, 2, 0] (some #[Vec3.unitZ]) none =
      .ok m := ⟨_, rfl⟩
  obtain ⟨-, -, hinside⟩ :=
    ofParts_reads_inside squareCorners #[0, 1, 2, 1, 3, 2, 0] (some #[Vec3.unitZ]) none
  obtain ⟨hnormals, hcount, hreads⟩ := (hinside m hm).2.2 2
  have hone : 1 < (computeNormals^[2] m).triangleCount := by
    rw [hcount]
    decide
  have hdropped : m.normals = none := by
    cases hm
    rfl
  exact ⟨m, hm, hdropped, (hreads 1 hone).1, hnormals⟩

end Mesh

end Radiance
