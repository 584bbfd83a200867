import Radiance.Proofs.Scattering.Samples

/-!
# Visible normals

A rough surface draws the normal of one of its tiny mirrors from those that the direction of view
sees.  In exact arithmetic the normal drawn is a unit vector on the side of that direction and faces
it: the warp of the disk keeps off the part of the hemisphere that lies below the surface.  So the
clamps on the way to the normal never change a number.

## Main definitions

* `Microfacet.IsVisible`: a unit normal on the side of a direction that faces it.
* `Microfacet.IsTilted`: the axes of the hemisphere around a direction of view.

## Main statements

* `Microfacet.warpedReal_bounds`: how far the warp moves a point of the disk.
* `Microfacet.overReal_height_pos`: the point of the hemisphere lies above the surface.
* `Microfacet.isVisible_sampleVisible`: all normals drawn are visible.
* `Microfacet.sampleVisible_unclamped`: they are drawn without the clamps.
-/

namespace Radiance

open Exact Matrix

variable {z : ZeroSign}

/-- A vector of length one has real coordinates. -/
theorem Vec3.exists_coords_of_length {w : Vec3 (Exact z)} (h : w.length = 1) :
    ∃ u, u ⬝ᵥ u = 1 ∧ w = .ofCoords u := by
  obtain ⟨x, hx⟩ : ∃ x, w.lengthSquared = number x := by
    rw [one_eq] at h
    change Exact.sqrt w.lengthSquared = _ at h
    cases hsquare : w.lengthSquared <;> simp_all [Exact.sqrt]
  obtain ⟨u, rfl⟩ := (Vec3.isReal_of_lengthSquared hx).exists_coords
  rw [length_ofCoords, one_eq, number_inj, Coords.length, Real.sqrt_eq_one] at h
  exact ⟨u, h, rfl⟩

theorem Vec3.length_ofCoords_eq_one {u : Fin 3 → ℝ} (h : u ⬝ᵥ u = 1) :
    (ofCoords u : Vec3 (Exact z)).length = 1 := by
  rw [length_ofCoords, Coords.length, h, Real.sqrt_one, one_eq]

theorem Local.cosTheta_ofCoords (w : Fin 3 → ℝ) :
    cosTheta (.ofCoords w : Vec3 (Exact z)) = number (w 2) := rfl

theorem Local.absCosTheta_ofCoords (w : Fin 3 → ℝ) :
    absCosTheta (.ofCoords w : Vec3 (Exact z)) = number |w 2| := rfl

theorem Local.tanTheta2_ofCoords {w : Fin 3 → ℝ} (hw : w 2 ≠ 0) :
    tanTheta2 (.ofCoords w : Vec3 (Exact z)) =
      number (max (1 - w 2 * w 2) 0 / (w 2 * w 2)) := by
  simp only [tanTheta2, sinTheta2, cosTheta2, Vec3.ofCoords, Scalar.sqr, number_mul, one_eq,
    number_sub, zero_eq, max_number, number_div _ _ (mul_self_ne_zero.2 hw)]

theorem Local.sameHemisphere_ofCoords (o i : Fin 3 → ℝ) :
    sameHemisphere (.ofCoords o : Vec3 (Exact z)) (.ofCoords i) = decide (0 < o 2 * i 2) := by
  simp [sameHemisphere, Vec3.ofCoords]

namespace Local

variable {o i : Fin 3 → ℝ}

/-- The sum of two directions on one side is on that side. -/
theorem height_add_pos
    (h : sameHemisphere (.ofCoords o : Vec3 (Exact z)) (.ofCoords i) = true) :
    0 < o 2 * (i + o) 2 := by
  rw [sameHemisphere_ofCoords, decide_eq_true_iff] at h
  rw [Pi.add_apply, mul_add]
  exact add_pos_of_pos_of_nonneg h (mul_self_nonneg _)

theorem add_ne_zero (h : sameHemisphere (.ofCoords o : Vec3 (Exact z)) (.ofCoords i) = true) :
    i + o ≠ 0 := by
  intro hzero
  have hpos := height_add_pos h
  rw [hzero, Pi.zero_apply, mul_zero] at hpos
  exact lt_irrefl 0 hpos

theorem cosTheta_ne_zero : cosTheta (.ofCoords o : Vec3 (Exact z)) ≠ 0 ↔ o 2 ≠ 0 := by
  rw [cosTheta_ofCoords, zero_eq, Ne, number_inj]

end Local

namespace Microfacet

/-- A unit normal on the side of a direction that faces the direction. -/
structure IsVisible (wo wh : Vec3 (Exact z)) : Prop where
  length_eq : wh.length = 1
  side : Local.sameHemisphere wo wh = true
  facing : 0 < wh.dot wo

theorem isVisible_ofCoords {o h : Fin 3 → ℝ} :
    IsVisible (.ofCoords o : Vec3 (Exact z)) (.ofCoords h) ↔
      h ⬝ᵥ h = 1 ∧ 0 < o 2 * h 2 ∧ 0 < h ⬝ᵥ o := by
  constructor
  · rintro ⟨hlength, hside, hfacing⟩
    rw [Local.sameHemisphere_ofCoords, decide_eq_true_iff] at hside
    rw [Vec3.dot_ofCoords, zero_eq, number_lt] at hfacing
    rw [Vec3.length_ofCoords, one_eq, number_inj, Coords.length, Real.sqrt_eq_one] at hlength
    exact ⟨hlength, hside, hfacing⟩
  · rintro ⟨hunit, hside, hfacing⟩
    refine ⟨Vec3.length_ofCoords_eq_one hunit, ?_, ?_⟩
    · rw [Local.sameHemisphere_ofCoords, decide_eq_true_iff]
      exact hside
    · rw [Vec3.dot_ofCoords, zero_eq, number_lt]
      exact hfacing

/-! ## Points of the disk -/

variable {c p w q : ℝ}

/-- A point of the disk lies within its chord. -/
theorem abs_lt_chord (hdisk : p * p + w * w < 1) : |w| < √(1 - p * p) := by
  have hchord : 0 < 1 - p * p := by linarith [mul_self_nonneg w]
  rw [← abs_of_pos (Real.sqrt_pos.2 hchord), abs_lt_iff_mul_self_lt, Real.mul_self_sqrt hchord.le]
  linarith

/-- The warp moves a point of the disk along its chord, and keeps a part of the chord free that
grows with the height of the direction. -/
theorem warpedReal_bounds (hc : 0 < c) (hdisk : p * p + w * w < 1) :
    -(c * √(1 - p * p)) < warpedReal c p w ∧ warpedReal c p w < √(1 - p * p) := by
  obtain ⟨hlow, hhigh⟩ := abs_lt.1 (abs_lt_chord hdisk)
  have hchord : 0 ≤ 1 - p * p := by linarith [mul_self_nonneg w]
  have hfactor : 0 < 0.5 * (1 + c) := by linarith
  have hbelow := mul_lt_mul_of_pos_left hhigh hfactor
  have habove := mul_lt_mul_of_pos_left hlow hfactor
  rw [warpedReal, max_eq_left hchord, sub_mul, one_mul]
  constructor <;> linarith

/-- So the warped point stays in the disk. -/
theorem sqr_warpedReal_lt (hc : 0 < c) (hc' : c ≤ 1) (hdisk : p * p + w * w < 1) :
    0 < 1 - p * p - warpedReal c p w * warpedReal c p w := by
  have hchord : 0 < 1 - p * p := by linarith [mul_self_nonneg w]
  have hpos := Real.sqrt_pos.2 hchord
  obtain ⟨hlow, hhigh⟩ := warpedReal_bounds hc hdisk
  have hpart := mul_le_of_le_one_left hpos.le hc'
  have hinside : |warpedReal c p w| < |√(1 - p * p)| := by
    rw [abs_of_pos hpos, abs_lt]
    exact ⟨by linarith, hhigh⟩
  rw [abs_lt_iff_mul_self_lt, Real.mul_self_sqrt hchord.le] at hinside
  linarith

/-! ## Points of the hemisphere -/

/-- The first two axes of the hemisphere for a direction of view: the direction itself, turned above
the surface, and a horizontal one across it, so that their product does not lead down. -/
structure IsTilted (v t : Fin 3 → ℝ) : Prop where
  unit : v ⬝ᵥ v = 1
  above : 0 < v 2
  unit_across : t ⬝ᵥ t = 1
  perpendicular : t ⬝ᵥ v = 0
  flat : t 2 = 0
  rise : 0 ≤ (v ⨯₃ t) 2

namespace IsTilted

variable {v t : Fin 3 → ℝ}

theorem height_le_one (h : IsTilted v t) : v 2 ≤ 1 := Microfacet.height_le_one h.unit

/-- The third axis rises as much as the direction lacks to be upright. -/
theorem sqr_height_cross (h : IsTilted v t) :
    (v ⨯₃ t) 2 * (v ⨯₃ t) 2 = 1 - v 2 * v 2 := by
  obtain ⟨hv, -, ht, htv, hflat, -⟩ := h
  simp only [dotProduct, Fin.sum_univ_three, hflat, mul_zero, zero_mul, add_zero] at hv ht htv
  simp only [cross_apply, cons_val]
  linear_combination (v 0 * v 0 + v 1 * v 1) * ht + hv - (t 0 * v 0 + t 1 * v 1) * htv

/-- The point over a warped point of the disk lies above the surface: where the warp goes down, it
stays on the part of the chord over which the hemisphere is above. -/
theorem overReal_height_pos (h : IsTilted v t) (hdisk : p * p + w * w < 1) :
    0 < overReal v t (v ⨯₃ t) p (warpedReal (v 2) p w) 2 := by
  have hup := h.above
  have hrise := h.rise
  have hrise2 := h.sqr_height_cross
  have hinside := sqr_warpedReal_lt hup h.height_le_one hdisk
  obtain ⟨hlow, -⟩ := warpedReal_bounds hup hdisk
  have hheight : overReal v t (v ⨯₃ t) p (warpedReal (v 2) p w) 2 =
      warpedReal (v 2) p w * (v ⨯₃ t) 2 +
        √(1 - p * p - warpedReal (v 2) p w * warpedReal (v 2) p w) * v 2 := by
    simp [overReal, h.flat, max_eq_left hinside.le]
  rw [hheight]
  generalize warpedReal (v 2) p w = q at *
  generalize (v ⨯₃ t) 2 = l at *
  have hroot := Real.mul_self_sqrt hinside.le
  have hpos := Real.sqrt_pos.2 hinside
  generalize √(1 - p * p - q * q) = r at hroot hpos
  obtain hq | hq := le_or_gt 0 q
  · exact add_pos_of_nonneg_of_pos (mul_nonneg hq hrise) (mul_pos hpos hup)
  · have hchord : 0 < 1 - p * p := by linarith [mul_self_nonneg q]
    have hm := Real.mul_self_sqrt hchord.le
    generalize √(1 - p * p) = m at hm hlow
    have hq2 : q * q < v 2 * m * (v 2 * m) := by
      rw [← neg_mul_neg]
      exact mul_self_lt_mul_self (neg_nonneg.2 hq.le) (by linarith)
    -- The root is longer than the chord times the rise of the third axis.
    have hsquare : m * l * (m * l) < r * r := by
      calc m * l * (m * l) = m * m - v 2 * m * (v 2 * m) := by linear_combination m * m * hrise2
        _ < m * m - q * q := sub_lt_sub_left hq2 _
        _ = r * r := by rw [hroot, hm]
    have hlonger : m * l < r := lt_of_mul_self_lt_mul_self₀ hpos.le hsquare
    have hfall : -(v 2 * m) * l ≤ q * l := mul_le_mul_of_nonneg_right hlow.le hrise
    have hgain : 0 < v 2 * (r - m * l) := mul_pos hup (sub_pos.2 hlonger)
    linarith

end IsTilted

/-! ## Normals -/

variable {a : ℝ} {o : Fin 3 → ℝ}

/-- The draws are the square of a radius and a part of a turn. -/
theorem polar_mem_disk {x : ℝ} (hx : 0 ≤ x) (hx' : x < 1) (φ : ℝ) :
    √x * Real.cos φ * (√x * Real.cos φ) + √x * Real.sin φ * (√x * Real.sin φ) < 1 := by
  calc √x * Real.cos φ * (√x * Real.cos φ) + √x * Real.sin φ * (√x * Real.sin φ)
      = √x * √x * (Real.sin φ ^ 2 + Real.cos φ ^ 2) := by ring
    _ = x := by rw [Real.sin_sq_add_cos_sq, mul_one, Real.mul_self_sqrt hx]
    _ < 1 := hx'

theorem stretch_dotProduct (a : ℝ) (n o : Fin 3 → ℝ) :
    ![a * n 0, a * n 1, n 2] ⬝ᵥ o = n ⬝ᵥ ![a * o 0, a * o 1, o 2] := by
  simp only [dotProduct, Fin.sum_univ_three, cons_val]
  ring

theorem smul_eq_length_smul {q : Fin 3 → ℝ} (hq : q ≠ 0) (s : ℝ) :
    s • q = Coords.length q • s • Coords.unit q := by
  rw [Coords.unit, smul_comm s, smul_smul, mul_inv_cancel₀ (Coords.length_pos hq).ne', one_smul]

theorem ne_zero_of_height (ho : o 2 ≠ 0) : o ≠ 0 := fun hzero => ho (by rw [hzero]; rfl)

/-- The axes for a direction of view that does not lie in the surface. -/
theorem exists_axes (ha : 0 < a) (ho : o 2 ≠ 0) :
    ∃ (s : ℝ) (v t : Fin 3 → ℝ),
      (Scalar.copySign (number 1) (number (o 2)) : Exact z) = number s ∧ s * s = 1 ∧
        0 < s * o 2 ∧ v = s • Coords.unit ![a * o 0, a * o 1, o 2] ∧
        across (.ofCoords v : Vec3 (Exact z)) = .ofCoords t ∧ IsTilted v t := by
  obtain ⟨s, hsign, hs, hside⟩ := exists_copySign (z := z) (o 2)
  have hside : 0 < s * o 2 := by
    refine lt_of_le_of_ne hside fun hzero => ?_
    obtain rfl | hzero := mul_eq_zero.1 hzero.symm
    · norm_num at hs
    · exact ho hzero
  have hq := stretch_ne_zero ha (ne_zero_of_height ho)
  obtain ⟨t, hacross, ht, htv, hflat, hrise⟩ := exists_coords_across (z := z)
    (s • Coords.unit ![a * o 0, a * o 1, o 2])
  refine ⟨s, _, t, hsign, hs, hside, rfl, hacross, turned_unit hq hs, ?_, ht, htv, hflat, hrise⟩
  rw [turned_height]
  exact mul_pos (inv_pos.2 (Coords.length_pos hq)) hside

/-- The normal drawn for a direction that does not lie in the surface is visible from it.  Its part
along the direction is that of the point of the hemisphere, up to positive factors. -/
theorem exists_visible_coords (ha : 0 < a) (ho : o 2 ≠ 0) {x : ℝ} (hx : 0 ≤ x) (hx' : x < 1)
    (y : ℝ) :
    ∃ h, sampleVisible (number a : Exact z) (.ofCoords o) ⟨number x, number y⟩ = .ofCoords h ∧
      h ⬝ᵥ h = 1 ∧ 0 < o 2 * h 2 ∧ 0 < h ⬝ᵥ o := by
  have hne := ne_zero_of_height ho
  have hq := stretch_ne_zero ha hne
  obtain ⟨s, v, t, hsign, hs, hside, hvdef, hacross, haxes⟩ := exists_axes (z := z) ha ho
  have hdisk := polar_mem_disk hx hx' (2 * Real.pi * y)
  -- The point of the hemisphere around it.
  obtain ⟨n, hndef⟩ : ∃ n, n = overReal v t (v ⨯₃ t) (√x * Real.cos (2 * Real.pi * y))
      (warpedReal (v 2) (√x * Real.cos (2 * Real.pi * y)) (√x * Real.sin (2 * Real.pi * y))) :=
    ⟨_, rfl⟩
  have habove : 0 < n 2 := hndef ▸ haxes.overReal_height_pos hdisk
  have halong : 0 < n ⬝ᵥ v := by
    have hinside := sqr_warpedReal_lt haxes.above haxes.height_le_one hdisk
    rw [hndef, overReal_dotProduct haxes.unit haxes.perpendicular, max_eq_left hinside.le]
    exact Real.sqrt_pos.2 hinside
  have hdrawn := sampleVisible_ofCoords (z := z) ha hne hx y hsign hvdef hacross hndef
    (fun hbelow => absurd hbelow.2.2 (not_le.2 habove))
  rw [max_eq_left habove.le] at hdrawn
  have hn : ![a * n 0, a * n 1, n 2] ≠ 0 := fun hzero => habove.ne' (congrFun hzero 2)
  have hn' := inv_pos.2 (Coords.length_pos hn)
  refine ⟨_, hdrawn, turned_unit hn hs, ?_, ?_⟩
  · rw [turned_height, mul_left_comm, ← mul_assoc (o 2), mul_comm (o 2)]
    exact mul_pos hn' (mul_pos hside habove)
  · have hdot : s • Coords.unit ![a * n 0, a * n 1, n 2] ⬝ᵥ o =
        (Coords.length ![a * n 0, a * n 1, n 2])⁻¹ *
          (Coords.length ![a * o 0, a * o 1, o 2] * (n ⬝ᵥ v)) := by
      rw [Coords.unit, smul_comm s, smul_dotProduct, smul_dotProduct, stretch_dotProduct,
        ← dotProduct_smul, smul_eq_length_smul hq, ← hvdef, dotProduct_smul, smul_eq_mul,
        smul_eq_mul]
    rw [hdot]
    exact mul_pos hn' (mul_pos (Coords.length_pos hq) halong)

/-- All normals that are drawn for a direction outside the surface are visible from it. -/
theorem isVisible_sampleVisible {alpha : Exact z} (halpha : alpha.IsPos) (ho : o 2 ≠ 0)
    {u : Vec2 (Exact z)} (hx : u.x.IsDraw) (hy : u.y.IsDraw) :
    IsVisible (.ofCoords o) (sampleVisible alpha (.ofCoords o) u) := by
  obtain ⟨a, ha, rfl⟩ := halpha
  obtain ⟨x, hx, hx', hux⟩ := hx
  obtain ⟨y, -, -, huy⟩ := hy
  obtain ⟨h, hdrawn, hvisible⟩ := exists_visible_coords (z := z) ha ho hx hx' y
  rw [show u = ⟨number x, number y⟩ from Vec2.ext hux huy, hdrawn]
  exact isVisible_ofCoords.2 hvisible

/-- The clamps of a visible normal only guard against rounding.  The warped point stays in the unit
disk, so no square root is taken of a negative number, and the point over it lies above the surface.
Without the clamps the normal is the same: the unit vector of a vector that is not zero, on the side
of `wo` and facing it. -/
theorem sampleVisible_unclamped {alpha : Exact z} {wo : Vec3 (Exact z)} {u : Vec2 (Exact z)}
    (halpha : alpha.IsPos) (hwo : wo.length = 1) (hcos : Local.cosTheta wo ≠ 0)
    (hx : u.x.IsDraw) (hy : u.y.IsDraw) :
    let v := stretched alpha wo
    let p := Scalar.sqrt u.x * Scalar.cos (2 * Scalar.pi * u.y)
    let q := warped v p (Scalar.sqrt u.x * Scalar.sin (2 * Scalar.pi * u.y))
    let n := overProjected v (across v) p q
    let m : Vec3 (Exact z) := ⟨alpha * n.x, alpha * n.y, n.z⟩
    let wh := sampleVisible alpha wo u
    (Scalar.sqr p + Scalar.sqr q ≤ 1 ∧ 0 ≤ 1 - Scalar.sqr p ∧
      0 ≤ 1 - Scalar.sqr p - Scalar.sqr q) ∧
    (0 ≤ n.z ∧ Scalar.max n.z 0 = n.z) ∧
    m ≠ .zero ∧ wh = Scalar.copySign 1 (Local.cosTheta wo) • m.normalize ∧
    wh.length = 1 ∧ 0 < wo.z * wh.z ∧ 0 < wh.dot wo := by
  obtain ⟨o, -, rfl⟩ := Vec3.exists_coords_of_length hwo
  have ho := Local.cosTheta_ne_zero.1 hcos
  obtain ⟨hlength, hside, hfacing⟩ := isVisible_sampleVisible halpha ho hx hy
  obtain ⟨a, ha, rfl⟩ := halpha
  obtain ⟨x, hx, hx', hux⟩ := hx
  obtain ⟨y, -, -, huy⟩ := hy
  obtain rfl : u = ⟨number x, number y⟩ := Vec2.ext hux huy
  obtain ⟨s, d, t, hsign, -, -, hd, hacross, haxes⟩ := exists_axes (z := z) ha ho
  have hdisk := polar_mem_disk hx hx' (2 * Real.pi * y)
  have hinside := sqr_warpedReal_lt haxes.above haxes.height_le_one hdisk
  have habove := haxes.overReal_height_pos hdisk
  have hpoint := overProjected_drawn ha (ne_zero_of_height ho) hx y hsign hd hacross rfl
  intro v p q n m wh
  have hv : v = .ofCoords d := by rw [hd, ← stretched_ofCoords ha (ne_zero_of_height ho) hsign]
  have hp : p = number (√x * Real.cos (2 * Real.pi * y)) := by
    simp only [p, turn_number, sqrt_mul_cos hx]
  have hq : q = number (warpedReal (d 2) (√x * Real.cos (2 * Real.pi * y))
      (√x * Real.sin (2 * Real.pi * y))) := by
    simp only [q, hv, hp, turn_number, sqrt_mul_sin hx, warped_ofCoords]
  have hz : n.z = number (overReal d t (d ⨯₃ t) (√x * Real.cos (2 * Real.pi * y))
      (warpedReal (d 2) (√x * Real.cos (2 * Real.pi * y)) (√x * Real.sin (2 * Real.pi * y))) 2) :=
    congrArg Vec3.z hpoint
  generalize √x * Real.cos (2 * Real.pi * y) = c at *
  generalize warpedReal (d 2) c (√x * Real.sin (2 * Real.pi * y)) = w at *
  have hchord : 0 ≤ 1 - c * c := by linarith [mul_self_nonneg w]
  have hkept : Scalar.max n.z 0 = n.z := by
    rw [hz, zero_eq, max_number, max_eq_left habove.le]
  refine ⟨⟨?_, ?_, ?_⟩, ⟨?_, hkept⟩, ?_, ?_, hlength, of_decide_eq_true hside, hfacing⟩
  · simp only [hp, hq, Scalar.sqr, number_mul, number_add, one_eq, number_le]
    linarith
  · simp only [hp, Scalar.sqr, number_mul, number_sub, one_eq, zero_eq, number_le]
    exact hchord
  · simp only [hp, hq, Scalar.sqr, number_mul, number_sub, one_eq, zero_eq, number_le]
    exact hinside.le
  · rw [hz, zero_eq, number_le]
    exact habove.le
  · intro hm
    have hheight : n.z = 0 := congrArg Vec3.z hm
    rw [hz, zero_eq, number_inj] at hheight
    exact habove.ne' hheight
  · change Scalar.copySign 1 (Local.cosTheta (.ofCoords o)) • squeezed (number a) n = _
    rw [squeezed, hkept]

/-- Seen from below, the normal drawn points down. -/
theorem sampleVisible_unclamped_below :
    let alpha : Exact .plus := number (1 / 4)
    let wo : Vec3 (Exact .plus) := .ofCoords ![3 / 5, 0, -4 / 5]
    let u : Vec2 (Exact .plus) := ⟨number (1 / 4), number (1 / 2)⟩
    let wh := sampleVisible alpha wo u
    alpha.IsPos ∧ wo.length = 1 ∧ Local.cosTheta wo ≠ 0 ∧ u.x.IsDraw ∧ u.y.IsDraw ∧
      wh.length = 1 ∧ 0 < number (-4 / 5) * wh.z ∧ 0 < wh.dot wo := by
  intro alpha wo u wh
  have halpha : alpha.IsPos := isPos_number (by norm_num)
  have hwo : wo.length = 1 := Vec3.length_ofCoords_eq_one (by rw [vec3_dotProduct']; norm_num)
  have hcos : Local.cosTheta wo ≠ 0 := by simp [Local.cosTheta, wo, Vec3.ofCoords]
  have hx : u.x.IsDraw := ⟨1 / 4, by norm_num, by norm_num, rfl⟩
  have hy : u.y.IsDraw := ⟨1 / 2, by norm_num, by norm_num, rfl⟩
  obtain ⟨-, -, -, -, hlength, hside, hfacing⟩ := sampleVisible_unclamped halpha hwo hcos hx hy
  exact ⟨halpha, hwo, hcos, hx, hy, hlength, hside, hfacing⟩

end Microfacet

end Radiance
