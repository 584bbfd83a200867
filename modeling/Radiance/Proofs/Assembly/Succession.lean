import Radiance.Proofs.Assembly.Placement

/-!
# Placements act step by step

The steps of a placement are multiplied up, each matrix to the left of those before it.  In exact
arithmetic the product maps a point as the steps do one after the other, so a list of steps may be
cut anywhere and its parts be applied in turn.

## Main definitions

* `TransformStep.Acts`: a matrix does to points, directions and volumes what a list of steps does.

## Main statements

* `Matrix4.IsAffine.point_mul`, `Matrix4.IsAffine.vector_mul`: the product of two affine matrices
  maps by the right one first.
* `TransformStep.acts_foldl`: the matrices of the steps, multiplied up from any matrix.
* `TransformStep.compose?_acts_in_order`: what the transform of a list of steps does.
-/

namespace Radiance

open Exact Matrix

variable {z : ZeroSign}

/-! ## Products -/

namespace Matrix4

section

variable (M N : Matrix (Fin 3) (Fin 3) ℝ) (o q p : Fin 3 → ℝ)

theorem mul_linear :
    (Transform.ofLinear M o : Transform (Exact z)).matrix * (Transform.ofLinear N q).matrix =
      (Transform.ofLinear (M * N) (M *ᵥ q + o)).matrix :=
  congrArg Transform.matrix Transform.mul_ofLinear

theorem point_linear : (Transform.ofLinear M o : Transform (Exact z)).matrix.point (.ofCoords p) =
    .ofCoords (M *ᵥ p + o) := Transform.applyPoint_ofLinear p

theorem vector_linear : (Transform.ofLinear M o : Transform (Exact z)).matrix.vector (.ofCoords p) =
    .ofCoords (M *ᵥ p) := Transform.applyVector_ofLinear p

end

variable {m n : Matrix4 (Exact z)} {p v : Vec3 (Exact z)}

/-- An affine matrix is a real matrix with an offset, invertible or not. -/
theorem IsAffine.exists_linear (hm : m.IsAffine) :
    ∃ M o, m = (Transform.ofLinear M o : Transform (Exact z)).matrix := by
  obtain ⟨X, Y, Z, O, rfl⟩ := hm
  exact ⟨!![X.x, Y.x, Z.x; X.y, Y.y, Z.y; X.z, Y.z, Z.z], ![O.x, O.y, O.z], rfl⟩

theorem IsAffine.isReal_point (hm : m.IsAffine) (hp : p.IsReal) : (m.point p).IsReal := by
  obtain ⟨M, o, rfl⟩ := hm.exists_linear
  obtain ⟨p, rfl⟩ := hp.exists_coords
  rw [point_linear]
  exact Vec3.isReal_ofCoords _

theorem IsAffine.isReal_vector (hm : m.IsAffine) (hv : v.IsReal) : (m.vector v).IsReal := by
  obtain ⟨M, o, rfl⟩ := hm.exists_linear
  obtain ⟨v, rfl⟩ := hv.exists_coords
  rw [vector_linear]
  exact Vec3.isReal_ofCoords _

/-- The product of two affine matrices maps a point by the right one first. -/
theorem IsAffine.point_mul (hm : m.IsAffine) (hn : n.IsAffine) (hp : p.IsReal) :
    (m * n).point p = m.point (n.point p) := by
  obtain ⟨M, o, rfl⟩ := hm.exists_linear
  obtain ⟨N, q, rfl⟩ := hn.exists_linear
  obtain ⟨p, rfl⟩ := hp.exists_coords
  rw [mul_linear, point_linear, point_linear, point_linear, mulVec_add, mulVec_mulVec, add_assoc]

/-- It maps a direction by the right one first. -/
theorem IsAffine.vector_mul (hm : m.IsAffine) (hn : n.IsAffine) (hv : v.IsReal) :
    (m * n).vector v = m.vector (n.vector v) := by
  obtain ⟨M, o, rfl⟩ := hm.exists_linear
  obtain ⟨N, q, rfl⟩ := hn.exists_linear
  obtain ⟨v, rfl⟩ := hv.exists_coords
  rw [mul_linear, vector_linear, vector_linear, vector_linear, mulVec_mulVec]

/-- Volumes grow by the product of the factors; the fourth rows of the matrices do not matter. -/
theorem determinant_mul (hm : m.isFinite = true) (hn : n.isFinite = true) :
    (m * n).determinant = m.determinant * n.determinant := by
  obtain ⟨M, rfl⟩ := exists_ofReal hm
  obtain ⟨N, rfl⟩ := exists_ofReal hn
  rw [mul_ofReal, determinant_ofReal, determinant_ofReal, determinant_ofReal, det_mul, number_mul]

theorem point_identity (hp : p.IsReal) : (identity : Matrix4 (Exact z)).point p = p := by
  obtain ⟨x, y, t, rfl⟩ := hp
  simp [identity, point, Vec4.xyz]

theorem vector_identity (hv : v.IsReal) : (identity : Matrix4 (Exact z)).vector v = v := by
  obtain ⟨x, y, t, rfl⟩ := hv
  simp [identity, vector, Vec4.xyz]

theorem determinant_identity : (identity : Matrix4 (Exact z)).determinant = 1 := by
  simp [identity, determinant, Vec4.dot]

end Matrix4

/-! ## Steps in turn -/

namespace TransformStep

/-- A matrix does to points, directions and volumes what the steps do one after the other, from
what a first matrix has made of them. -/
structure Acts (first : Matrix4 (Exact z)) (steps : List (TransformStep (Exact z)))
    (m : Matrix4 (Exact z)) : Prop where
  point : ∀ p : Vec3 (Exact z), p.IsReal →
    m.point p = steps.foldl (fun q step => step.toMatrix.point q) (first.point p)
  vector : ∀ v : Vec3 (Exact z), v.IsReal →
    m.vector v = steps.foldl (fun u step => step.toMatrix.vector u) (first.vector v)
  determinant : m.determinant =
    steps.foldl (fun d step => step.toMatrix.determinant * d) first.determinant

variable {steps : List (TransformStep (Exact z))} {first : Matrix4 (Exact z)}
  {p : Vec3 (Exact z)}

/-- The matrices of the steps, multiplied up from an affine matrix, act step by step. -/
theorem acts_foldl (hsteps : ∀ step ∈ steps, step.toMatrix.IsAffine) (hfirst : first.IsAffine) :
    Acts first steps (steps.foldl (fun m step => step.toMatrix * m) first) := by
  induction steps generalizing first with
  | nil => exact ⟨fun _ _ => rfl, fun _ _ => rfl, rfl⟩
  | cons step rest ih =>
    have hstep := hsteps step List.mem_cons_self
    -- The first step takes up what the first matrix has done.
    have hrest := ih (fun s hs => hsteps s (List.mem_cons_of_mem step hs)) (hstep.mul hfirst)
    refine ⟨fun p hp => ?_, fun v hv => ?_, ?_⟩
    · rw [List.foldl_cons, hrest.point p hp, hstep.point_mul hfirst hp, List.foldl_cons]
    · rw [List.foldl_cons, hrest.vector v hv, hstep.vector_mul hfirst hv, List.foldl_cons]
    · rw [List.foldl_cons, hrest.determinant,
        Matrix4.determinant_mul hstep.isFinite hfirst.isFinite, List.foldl_cons]

/-- The transform of a list of steps, which leaves all where it is if there are none. -/
def composed {α : Type} [Scalar α] (steps : List (TransformStep α)) : Transform α :=
  (compose? steps).getD .identity

/-- The transform of a list of affine steps acts step by step. -/
theorem acts_composed (hsteps : ∀ step ∈ steps, step.toMatrix.IsAffine) :
    Acts .identity steps (composed steps).matrix ∧
      (composed steps).determinant = (composed steps).matrix.determinant := by
  have hacts := acts_foldl hsteps Matrix4.isAffine_identity
  unfold composed compose?
  split
  next hnil =>
    rw [List.isEmpty_iff.1 hnil] at hacts ⊢
    exact ⟨hacts, Matrix4.determinant_identity.symm⟩
  · exact ⟨hacts, rfl⟩

theorem applyPoint_composed (hsteps : ∀ step ∈ steps, step.toMatrix.IsAffine) (hp : p.IsReal) :
    (composed steps).applyPoint p = steps.foldl (fun q step => step.toMatrix.point q) p := by
  rw [Transform.applyPoint, (acts_composed hsteps).1.point p hp, Matrix4.point_identity hp]

theorem applyVector_composed (hsteps : ∀ step ∈ steps, step.toMatrix.IsAffine) (hp : p.IsReal) :
    (composed steps).applyVector p = steps.foldl (fun u step => step.toMatrix.vector u) p := by
  rw [Transform.applyVector, (acts_composed hsteps).1.vector p hp, Matrix4.vector_identity hp]

theorem determinant_composed (hsteps : ∀ step ∈ steps, step.toMatrix.IsAffine) :
    (composed steps).determinant =
      steps.foldl (fun d step => step.toMatrix.determinant * d) 1 := by
  obtain ⟨hacts, hdeterminant⟩ := acts_composed hsteps
  rw [hdeterminant, hacts.determinant, Matrix4.determinant_identity]

theorem isReal_foldl_point (hsteps : ∀ step ∈ steps, step.toMatrix.IsAffine) (hp : p.IsReal) :
    (steps.foldl (fun q step => step.toMatrix.point q) p).IsReal :=
  List.foldlRecOn steps _ hp fun _ hq step hstep => (hsteps step hstep).isReal_point hq

theorem isReal_foldl_vector (hsteps : ∀ step ∈ steps, step.toMatrix.IsAffine) (hp : p.IsReal) :
    (steps.foldl (fun u step => step.toMatrix.vector u) p).IsReal :=
  List.foldlRecOn steps _ hp fun _ hu step hstep => (hsteps step hstep).isReal_vector hu

/-- The factors of the steps are multiplied onto what was there before. -/
theorem exists_foldl_determinant (hsteps : ∀ step ∈ steps, step.toMatrix.IsAffine) :
    ∃ c : ℝ, ∀ d : ℝ, steps.foldl (fun d step => step.toMatrix.determinant * d) (number d) =
      number (c * d) := by
  induction steps with
  | nil => exact ⟨1, fun d => by rw [List.foldl_nil, one_mul]⟩
  | cons step rest ih =>
    obtain ⟨M, hM⟩ := Matrix4.exists_ofReal (hsteps step List.mem_cons_self).isFinite
    obtain ⟨c, hrest⟩ := ih fun s hs => hsteps s (List.mem_cons_of_mem step hs)
    refine ⟨c * M.det, fun d => ?_⟩
    rw [List.foldl_cons, hM, Matrix4.determinant_ofReal, number_mul, hrest, mul_assoc]

/-- The transform of a list of real steps, of which those that give a matrix give an affine one,
maps a point as the steps do in order, and a direction likewise; volumes grow by the product of
the factors of the steps.  Wherever the list is cut, it acts as the second part after the first. -/
theorem compose?_acts_in_order (hne : steps ≠ []) (hsteps : ∀ step ∈ steps, step.IsReal)
    (hmatrix : ∀ m, .matrix m ∈ steps → m.IsAffine) :
    ∃ t, compose? steps = some t ∧
      (∀ p : Vec3 (Exact z), p.IsReal →
        t.applyPoint p = steps.foldl (fun q step => step.toMatrix.point q) p) ∧
      (∀ v : Vec3 (Exact z), v.IsReal →
        t.applyVector v = steps.foldl (fun u step => step.toMatrix.vector u) v) ∧
      t.determinant = steps.foldl (fun d step => step.toMatrix.determinant * d) 1 ∧
      ∀ before after, steps = before ++ after →
        (∀ p : Vec3 (Exact z), p.IsReal →
          t.applyPoint p = (composed after).applyPoint ((composed before).applyPoint p)) ∧
        (∀ v : Vec3 (Exact z), v.IsReal →
          t.applyVector v = (composed after).applyVector ((composed before).applyVector v)) ∧
        t.determinant = (composed after).determinant * (composed before).determinant := by
  have haffine : ∀ step ∈ steps, step.toMatrix.IsAffine := fun step hstep =>
    isAffine_toMatrix (hsteps step hstep) fun m hm => hmatrix m (hm ▸ hstep)
  obtain ⟨t, ht⟩ : ∃ t, compose? steps = some t :=
    ⟨_, if_neg (by rwa [List.isEmpty_iff])⟩
  have hcomposed : composed steps = t := by rw [composed, ht, Option.getD_some]
  refine ⟨t, ht, fun p hp => ?_, fun v hv => ?_, ?_, ?_⟩
  · rw [← hcomposed, applyPoint_composed haffine hp]
  · rw [← hcomposed, applyVector_composed haffine hv]
  · rw [← hcomposed, determinant_composed haffine]
  · rintro before after rfl
    have hbefore : ∀ step ∈ before, step.toMatrix.IsAffine := fun step hstep =>
      haffine step (List.mem_append_left after hstep)
    have hafter : ∀ step ∈ after, step.toMatrix.IsAffine := fun step hstep =>
      haffine step (List.mem_append_right before hstep)
    rw [← hcomposed]
    refine ⟨fun p hp => ?_, fun v hv => ?_, ?_⟩
    · rw [applyPoint_composed haffine hp, List.foldl_append, applyPoint_composed hbefore hp,
        applyPoint_composed hafter (isReal_foldl_point hbefore hp)]
    · rw [applyVector_composed haffine hv, List.foldl_append, applyVector_composed hbefore hv,
        applyVector_composed hafter (isReal_foldl_vector hbefore hv)]
    · obtain ⟨c, hc⟩ := exists_foldl_determinant hbefore
      obtain ⟨d, hd⟩ := exists_foldl_determinant hafter
      rw [determinant_composed haffine, List.foldl_append, determinant_composed hbefore,
        determinant_composed hafter, one_eq, hc, hd, hd, number_mul, mul_one, mul_one]

/-- A point that is moved, stretched and then sheared; in the opposite order it comes to another
place. -/
theorem compose?_acts_in_order_move_stretch_shear :
    let shear : Matrix4 (Exact .plus) :=
      .ofAxes (.ofReal ⟨1, 0, 0⟩) (.ofReal ⟨1, 1, 0⟩) (.ofReal ⟨0, 0, 1⟩) (.ofReal ⟨0, 0, 5⟩)
    let steps : List (TransformStep (Exact .plus)) :=
      [.translate (.ofReal ⟨1, 2, 0⟩), .scale (.ofReal ⟨2, -3, 1⟩), .matrix shear]
    (∃ t, compose? steps = some t ∧
      t.applyPoint (.ofReal ⟨1, 1, 1⟩) = .ofReal ⟨-5, -9, 6⟩ ∧
      t.applyVector (.ofReal ⟨1, 1, 1⟩) = .ofReal ⟨-1, -3, 1⟩ ∧ t.determinant = number (-6)) ∧
      ∃ t, compose? steps.reverse = some t ∧
        t.applyPoint (.ofReal ⟨1, 1, 1⟩) = .ofReal ⟨5, -1, 6⟩ := by
  intro shear steps
  have hreal (v : Vec3 ℝ) : (.ofReal v : Vec3 (Exact .plus)).IsReal := Vec3.isReal_iff.2 ⟨v, rfl⟩
  have hshear : shear.IsAffine := ⟨_, _, _, _, rfl⟩
  have hsteps : ∀ step ∈ steps, step.IsReal := by
    simp [steps, IsReal, hreal, hshear.isFinite]
  have hmatrix : ∀ m, .matrix m ∈ steps → m.IsAffine := by simp [steps, hshear]
  obtain ⟨t, ht, hpoint, hvector, hdeterminant, -⟩ :=
    compose?_acts_in_order (List.cons_ne_nil _ _) hsteps hmatrix
  have hne : steps.reverse ≠ [] := by simp [steps]
  obtain ⟨r, hr, hreverse, -⟩ :=
    compose?_acts_in_order hne
      (fun step hstep => hsteps step (List.mem_reverse.1 hstep))
      (fun m hm => hmatrix m (List.mem_reverse.1 hm))
  refine ⟨⟨t, ht, ?_, ?_, ?_⟩, r, hr, ?_⟩
  · rw [hpoint _ (hreal _)]
    simp [shear, toMatrix, Matrix4.translate, Matrix4.scaling, Matrix4.point, Matrix4.ofAxes,
      Vec4.xyz, Vec3.ofReal]
    norm_num
  · rw [hvector _ (hreal _)]
    simp [shear, toMatrix, Matrix4.translate, Matrix4.scaling, Matrix4.vector, Matrix4.ofAxes,
      Vec4.xyz, Vec3.ofReal]
    norm_num
  · rw [hdeterminant]
    simp [shear, toMatrix, Matrix4.translate, Matrix4.scaling, Matrix4.determinant, Matrix4.ofAxes,
      Vec4.dot, Vec3.ofReal]
    norm_num
  · rw [hreverse _ (hreal _)]
    simp [steps, shear, toMatrix, Matrix4.translate, Matrix4.scaling, Matrix4.point, Matrix4.ofAxes,
      Vec4.xyz, Vec3.ofReal]
    norm_num

end TransformStep

end Radiance
