import Radiance.Assembly
import Radiance.Proofs.Geometry.Homogeneous

/-!
# Placements that are accepted

An assembly accepts a placement if the determinant of its four-by-four matrix is not zero.  Points
and directions are mapped without the fourth row, so this keeps the placement from collapsing space
if the matrix is affine, as it is if all steps that give a matrix give an affine one.  Other
matrices may pass and still map all of space to a plane.

## Main definitions

* `TransformStep.IsReal`: all numbers of a step are real.

## Main statements

* `TransformStep.isAffine_toMatrix`: all steps are affine but those that give a matrix.
* `TransformStep.compose?_induction`: what holds of the matrices of the steps and is kept by
  products holds of the placement.
* `Plan.transform_accepts`: which placements are accepted, and which of these can be undone.
* `Plan.transform_accepts_collapse`: a placement that is accepted and collapses space.
-/

namespace Radiance

open Exact

variable {z : ZeroSign}

/-! ## Products -/

namespace Matrix4

variable {m n : Matrix4 (Exact z)}

theorem isAffine_ofAxes {x y t o : Vec3 (Exact z)} (hx : x.IsReal) (hy : y.IsReal) (ht : t.IsReal)
    (ho : o.IsReal) : (ofAxes x y t o).IsAffine := by
  obtain ⟨X, rfl⟩ := Vec3.isReal_iff.1 hx
  obtain ⟨Y, rfl⟩ := Vec3.isReal_iff.1 hy
  obtain ⟨Z, rfl⟩ := Vec3.isReal_iff.1 ht
  obtain ⟨O, rfl⟩ := Vec3.isReal_iff.1 ho
  exact ⟨X, Y, Z, O, rfl⟩

theorem isAffine_identity : (identity : Matrix4 (Exact z)).IsAffine :=
  ⟨⟨1, 0, 0⟩, ⟨0, 1, 0⟩, ⟨0, 0, 1⟩, ⟨0, 0, 0⟩, by simp [identity, ofAxes, Vec3.ofReal]⟩

theorem IsAffine.mul (hm : m.IsAffine) (hn : n.IsAffine) : (m * n).IsAffine := by
  obtain ⟨X, Y, Z, O, rfl⟩ := hm
  obtain ⟨X', Y', Z', O', rfl⟩ := hn
  -- The image of a column; the last entry says whether it is moved by the offset.
  let image (v : Vec3 ℝ) (w : ℝ) : Vec3 ℝ :=
    ⟨v.x * X.x + v.y * Y.x + v.z * Z.x + w * O.x, v.x * X.y + v.y * Y.y + v.z * Z.y + w * O.y,
      v.x * X.z + v.y * Y.z + v.z * Z.z + w * O.z⟩
  refine ⟨image X' 0, image Y' 0, image Z' 0, image O' 1, ?_⟩
  change Matrix4.mk (mulVec _ _) (mulVec _ _) (mulVec _ _) (mulVec _ _) = _
  simp [image, ofAxes, mulVec, Vec3.ofReal]

theorem isFinite_mul (hm : m.isFinite = true) (hn : n.isFinite = true) :
    (m * n).isFinite = true := by
  obtain ⟨M, rfl⟩ := exists_ofReal hm
  obtain ⟨N, rfl⟩ := exists_ofReal hn
  rw [mul_ofReal]
  exact isFinite_ofReal _

end Matrix4

/-! ## Steps -/

namespace TransformStep

/-- All numbers of the step are real. -/
def IsReal : TransformStep (Exact z) → Prop
  | translate offset => offset.IsReal
  | scale factors => factors.IsReal
  | rotate axis angle => axis.IsReal ∧ Scalar.isFinite angle = true
  | matrix m => m.isFinite = true
  | lookAt origin target up => origin.IsReal ∧ target.IsReal ∧ up.IsReal

/-- What has no unit vector has zero for its direction. -/
theorem isReal_direction (v : Vec3 (Exact z)) : (direction v).IsReal := by
  rw [direction]
  cases h : v.normalize? with
  | none => exact ⟨0, 0, 0, by simp [Vec3.zero, Vec3.splat]⟩
  | some w =>
    obtain ⟨u, -, -, rfl⟩ := Vec3.exists_coords_of_normalize? h
    exact Vec3.isReal_ofCoords _

variable {step : TransformStep (Exact z)}

/-- All steps are affine but those that give a matrix. -/
theorem isAffine_toMatrix (hstep : step.IsReal) (hmatrix : ∀ m, step = .matrix m → m.IsAffine) :
    step.toMatrix.IsAffine := by
  have hunits : (⟨1, 0, 0⟩ : Vec3 (Exact z)).IsReal ∧ (⟨0, 1, 0⟩ : Vec3 (Exact z)).IsReal ∧
      (⟨0, 0, 1⟩ : Vec3 (Exact z)).IsReal := ⟨⟨_, _, _, rfl⟩, ⟨_, _, _, rfl⟩, ⟨_, _, _, rfl⟩⟩
  have hzero : (⟨0, 0, 0⟩ : Vec3 (Exact z)).IsReal := ⟨_, _, _, rfl⟩
  cases step with
  | translate offset =>
    obtain ⟨x, y, t, rfl⟩ := hstep
    exact Matrix4.isAffine_ofAxes hunits.1 hunits.2.1 hunits.2.2 ⟨x, y, t, rfl⟩
  | scale factors =>
    obtain ⟨x, y, t, rfl⟩ := hstep
    exact Matrix4.isAffine_ofAxes (x := ⟨number x, 0, 0⟩) (y := ⟨0, number y, 0⟩)
      (t := ⟨0, 0, number t⟩) ⟨_, _, _, rfl⟩ ⟨_, _, _, rfl⟩ ⟨_, _, _, rfl⟩ hzero
  | rotate axis angle =>
    obtain ⟨x, y, t, haxis⟩ := isReal_direction axis
    obtain ⟨a, ha⟩ : ∃ a : ℝ, Scalar.radians angle = number a := by
      obtain ⟨a, rfl⟩ := exists_number_of_isFinite hstep.2
      refine ⟨a * (Real.pi / 180), ?_⟩
      change number a * (number Real.pi / number 180) = _
      rw [number_div _ _ (by norm_num), number_mul]
    rw [toMatrix, haxis, ha]
    exact Matrix4.isAffine_ofAxes ⟨_, _, _, rfl⟩ ⟨_, _, _, rfl⟩ ⟨_, _, _, rfl⟩ hzero
  | matrix m => exact hmatrix m rfl
  | lookAt origin target up =>
    exact Matrix4.isAffine_ofAxes (isReal_direction _)
      ((isReal_direction _).cross (isReal_direction _)) (isReal_direction _) hstep.1

theorem isFinite_toMatrix (hstep : step.IsReal) : step.toMatrix.isFinite = true := by
  by_cases hmatrix : ∃ m, step = .matrix m
  · obtain ⟨m, rfl⟩ := hmatrix
    exact hstep
  · exact (isAffine_toMatrix hstep fun m hm => absurd ⟨m, hm⟩ hmatrix).isFinite

variable {steps : List (TransformStep (Exact z))} {t : Transform (Exact z)}

/-- What holds of the matrices of all steps and is kept by products holds of the placement. -/
theorem compose?_induction {P : Matrix4 (Exact z) → Prop} (hone : P .identity)
    (hmul : ∀ {m n}, P m → P n → P (m * n)) (hsteps : ∀ step ∈ steps, P step.toMatrix)
    (ht : compose? steps = some t) : t = .ofMatrix t.matrix ∧ P t.matrix := by
  have hproduct : ∀ m, P m → P (steps.foldl (fun m step => step.toMatrix * m) m) := by
    clear ht
    induction steps with
    | nil => exact fun m hm => hm
    | cons step rest ih =>
      intro m hm
      exact ih (fun s hs => hsteps s (List.mem_cons_of_mem step hs)) _
        (hmul (hsteps step List.mem_cons_self) hm)
  unfold compose? at ht
  split at ht
  · cases ht
  · cases ht
    exact ⟨rfl, hproduct _ hone⟩

/-- A placement of affine steps that can be undone is affine. -/
theorem isAffine_compose? (hsteps : ∀ step ∈ steps, step.toMatrix.IsAffine)
    (ht : compose? steps = some t) (hinvertible : t.isInvertible = true) : t.IsAffine := by
  obtain ⟨heq, haffine⟩ :=
    compose?_induction Matrix4.isAffine_identity Matrix4.IsAffine.mul hsteps ht
  exact ⟨heq, haffine, hinvertible⟩

theorem isFinite_compose? (hsteps : ∀ step ∈ steps, step.IsReal) (ht : compose? steps = some t) :
    t = .ofMatrix t.matrix ∧ t.matrix.isFinite = true :=
  compose?_induction (P := fun m => m.isFinite = true) Matrix4.isAffine_identity.isFinite
    Matrix4.isFinite_mul (fun step hstep => isFinite_toMatrix (hsteps step hstep)) ht

end TransformStep

/-! ## Acceptance -/

namespace Plan

open TransformStep (compose?)

section

variable {α : Type} [Scalar α] {steps : List (TransformStep α)} {owner : String} {stock : Stock α}
  {t : Transform α}

/-- An accepted placement is the product of its steps, with an inverse. -/
theorem transform_eq_ok_iff : ((transform steps owner).run stock).1 = .ok (some t) ↔
    compose? steps = some t ∧ t.isInvertible = true := by
  unfold transform
  split
  next h =>
    rw [h]
    exact ⟨fun hok => (by cases hok), fun hok => (by cases hok.1)⟩
  next t' h =>
    rw [h]
    split
    next hinvertible =>
      constructor
      · rintro ⟨⟩
        exact ⟨rfl, hinvertible⟩
      · rintro ⟨⟨⟩, -⟩
        rfl
    next hsingular =>
      constructor
      · intro hok
        cases hok
      · rintro ⟨⟨⟩, hinvertible⟩
        exact absurd hinvertible hsingular

/-- A placement without an inverse is reported with its owner. -/
theorem transform_eq_error (h : compose? steps = some t) (hsingular : t.isInvertible = false) :
    ((transform steps owner).run stock).1 = .error (.config (.singularTransform owner)) := by
  rw [transform, h]
  simp only [hsingular, Bool.false_eq_true, if_false]
  rfl

end

/-- Placements of real steps are accepted exactly if the determinant of the four-by-four matrix is
not zero, and reported with their owner otherwise.  The kept inverse of an accepted placement undoes
the map of points and directions exactly if the matrix is affine or has no offset; no two points
have the same image exactly if the linear part has an inverse.  Both hold if the steps that give a
matrix give an affine one. -/
theorem transform_accepts {steps : List (TransformStep (Exact z))}
    (hsteps : ∀ step ∈ steps, step.IsReal) (owner : String) (stock : Stock (Exact z)) :
    (∀ t, ((transform steps owner).run stock).1 = .ok (some t) ↔
      compose? steps = some t ∧ t.determinant ≠ 0) ∧
    (∀ t, compose? steps = some t → t.determinant = 0 →
      ((transform steps owner).run stock).1 = .error (.config (.singularTransform owner))) ∧
    ∀ t, ((transform steps owner).run stock).1 = .ok (some t) →
      (t.RoundTrips ↔ t.matrix.IsAffine ∨ t.matrix.w.xyz = .zero) ∧
      (Set.InjOn t.applyPoint {p | p.IsReal} ↔ t.matrix.linearPart.determinant ≠ 0) ∧
      ((∀ m, .matrix m ∈ steps → m.IsAffine) →
        t.RoundTrips ∧ Set.InjOn t.applyPoint {p | p.IsReal}) := by
  have hinvertible {t} (ht : compose? steps = some t) :
      t.isInvertible = true ↔ t.determinant ≠ 0 := by
    obtain ⟨heq, hfinite⟩ := TransformStep.isFinite_compose? hsteps ht
    rw [heq]
    exact Transform.isInvertible_iff hfinite
  refine ⟨fun t => ?_, fun t ht hzero => ?_, fun t hok => ?_⟩
  · rw [transform_eq_ok_iff]
    exact and_congr_right fun ht => hinvertible ht
  · refine transform_eq_error ht ?_
    rw [← Bool.not_eq_true, hinvertible ht]
    exact not_not.2 hzero
  · obtain ⟨ht, hundone⟩ := transform_eq_ok_iff.1 hok
    obtain ⟨heq, hfinite⟩ := TransformStep.isFinite_compose? hsteps ht
    have hdet : t.matrix.determinant ≠ 0 := by
      have hkept := (hinvertible ht).1 hundone
      rwa [heq] at hkept
    have hround := Transform.roundTrips_iff hfinite hdet
    have hinj := Transform.injOn_applyPoint_iff hfinite
    rw [← heq] at hround hinj
    refine ⟨hround, hinj, fun hmatrix => ?_⟩
    have haffine := TransformStep.isAffine_compose? (fun step hstep =>
      TransformStep.isAffine_toMatrix (hsteps step hstep) fun m hm => hmatrix m (hm ▸ hstep))
      ht hundone
    have htrip := hround.2 (.inl haffine.matrix)
    refine ⟨htrip, fun p hp q hq heq => ?_⟩
    rw [← htrip.point p hp, ← htrip.point q hq, heq]

/-- A stretch before a move is accepted and can be undone. -/
theorem transform_accepts_stretch_move :
    let steps : List (TransformStep (Exact .plus)) :=
      [.scale (.ofReal ⟨2, 3, 1 / 2⟩), .translate (.ofReal ⟨1, -2, 3⟩)]
    ∃ t, ((transform steps "camera").run {}).1 = .ok (some t) ∧
      t.inversePoint (t.applyPoint (.ofReal ⟨5, 3, 2⟩)) = .ofReal ⟨5, 3, 2⟩ := by
  intro steps
  have hsteps : ∀ step ∈ steps, step.IsReal := by
    simpa [steps, TransformStep.IsReal] using
      ⟨Vec3.isReal_iff.2 ⟨_, rfl⟩, Vec3.isReal_iff.2 ⟨_, rfl⟩⟩
  obtain ⟨hok, -, htrip⟩ := transform_accepts hsteps "camera" {}
  have haccepted := (hok _).2 ⟨rfl, ?_⟩
  · have hnone : ∀ m, .matrix m ∈ steps → m.IsAffine := by simp [steps]
    exact ⟨_, haccepted, ((htrip _ haccepted).2.2 hnone).1.point _ (Vec3.isReal_iff.2 ⟨_, rfl⟩)⟩
  · have hmul (m n : Matrix4 (Exact .plus)) :
        m * n = ⟨m.mulVec n.x, m.mulVec n.y, m.mulVec n.z, m.mulVec n.w⟩ := rfl
    simp only [steps, List.foldl_cons, List.foldl_nil, hmul, Transform.ofMatrix]
    simp [TransformStep.toMatrix, Matrix4.translate, Matrix4.scaling, Matrix4.identity,
      Matrix4.mulVec, Matrix4.determinant, Vec4.dot, Vec3.ofReal]

end Plan

/-! ### A collapse -/

/-- Exchanges the first coordinate and the fourth. -/
noncomputable def Matrix4.exchange : Matrix4 (Exact z) :=
  .ofReal !![0, 0, 0, 1; 0, 1, 0, 0; 0, 0, 1, 0; 1, 0, 0, 0]

theorem Matrix4.determinant_exchange :
    (exchange : Matrix4 (Exact z)).determinant = number (-1) := by
  simp [exchange, ofReal, determinant, Vec4.dot]

theorem Transform.applyPoint_exchange (p : Vec3 ℝ) :
    (ofMatrix .exchange : Transform (Exact z)).applyPoint (.ofReal p) = .ofReal ⟨1, p.y, p.z⟩ := by
  simp [applyPoint, ofMatrix, Matrix4.exchange, Matrix4.ofReal, Matrix4.point, Vec3.ofReal,
    Vec4.xyz]

/-- The exchange has an inverse, but without the fourth row it maps all points to a plane. -/
theorem Plan.transform_accepts_collapse :
    let steps : List (TransformStep (Exact .plus)) := [.matrix .exchange]
    (∀ step ∈ steps, step.IsReal) ∧
      ∃ t, ((transform steps "camera").run {}).1 = .ok (some t) ∧
        t.applyPoint (.ofReal ⟨2, 3, 4⟩) = t.applyPoint (.ofReal ⟨5, 3, 4⟩) ∧ ¬t.RoundTrips := by
  intro steps
  have hfinite : (.exchange : Matrix4 (Exact .plus)).isFinite = true := Matrix4.isFinite_ofReal _
  have hcompose : TransformStep.compose? steps = some (.ofMatrix .exchange) := by
    have hone : (.identity : Matrix4 (Exact .plus)) = .ofReal 1 := by
      simp [Matrix4.identity, Matrix4.ofReal]
    have hproduct : (.exchange * .identity : Matrix4 (Exact .plus)) = .exchange := by
      rw [Matrix4.exchange, hone, Matrix4.mul_ofReal, mul_one]
    rw [← hproduct]
    rfl
  have hinvertible := (Transform.isInvertible_iff hfinite).2
    (by simp [Matrix4.determinant_exchange])
  refine ⟨by simpa [steps, TransformStep.IsReal] using hfinite, _,
    transform_eq_ok_iff.2 ⟨hcompose, hinvertible⟩, ?_, fun htrip => ?_⟩
  · rw [Transform.applyPoint_exchange, Transform.applyPoint_exchange]
  · have hfirst := htrip.point _ (Vec3.isReal_iff.2 ⟨⟨2, 3, 4⟩, rfl⟩)
    have hsecond := htrip.point _ (Vec3.isReal_iff.2 ⟨⟨5, 3, 4⟩, rfl⟩)
    rw [Transform.applyPoint_exchange] at hfirst hsecond
    rw [hsecond, Vec3.ofReal_inj] at hfirst
    norm_num at hfirst

end Radiance
