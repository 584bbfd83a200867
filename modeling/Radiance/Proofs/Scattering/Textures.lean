import Radiance.Proofs.Scalar.Sign
import Radiance.Texture

/-!
# The colors that textures take

A texture is used at real coordinates of the surface.  Its colors there are those it is made of: of
a constant or a checkerboard the given ones, of an image the pixels, or means of four of them, times
the exposure.

## Main definitions

* `Vec3.IsIn`: the channels of a color are numbers of a set.
* `Filter.read`: what a filter makes of a line of colors at a real coordinate.
* `Texture.TakesIn`, `Texture.ScalarIn`: the colors, or only the first channel, of a texture are.

## Main statements

* `ImageTexture.lookup_number`: a lookup reads along the rows, and then across them.
* `ImageTexture.isIn_lookup`: a lookup stays among the colors of the pixels, if these are convex.
* `Texture.takesIn_image`: an image without negative pixels, under an exposure that is not negative.
-/

namespace Radiance

open Exact

variable {z : ZeroSign}

/-- Both coordinates are real numbers. -/
def Vec2.IsReal (v : Vec2 (Exact z)) : Prop := ∃ x y : ℝ, v = ⟨number x, number y⟩

/-- The longitude of a point of the plane and an angle from a pole, as parts of a turn. -/
theorem Vec2.isReal_angles (x y t : ℝ) :
    (⟨(Scalar.atan2 (number y) (number x) + Scalar.pi) / (2 * Scalar.pi),
      Scalar.safeAcos (number t) / Scalar.pi⟩ : Vec2 (Exact z)).IsReal := by
  obtain ⟨u, hu⟩ := ((isReal_atan2 (z := z) y x).add isPos_pi.isNonneg.isReal).div isPos_two_pi
  obtain ⟨v, hv⟩ := (isReal_safeAcos (z := z) t).div isPos_pi
  exact ⟨u, v, by rw [hu, hv]⟩

/-- The channels of a color are numbers of a set. -/
def Vec3.IsIn (c : Color (Exact z)) (S : Set ℝ) : Prop :=
  ∃ r ∈ S, ∃ g ∈ S, ∃ b ∈ S, c = ⟨number r, number g, number b⟩

namespace Vec3

variable {c d : Color (Exact z)} {S T : Set ℝ}

theorem isIn_Ici_iff : c.IsIn (Set.Ici 0) ↔ c.IsNonneg := by
  constructor
  · rintro ⟨r, hr, g, hg, b, hb, rfl⟩
    exact ⟨⟨r, hr, rfl⟩, ⟨g, hg, rfl⟩, ⟨b, hb, rfl⟩⟩
  · rintro ⟨⟨r, hr, hx⟩, ⟨g, hg, hy⟩, ⟨b, hb, hz⟩⟩
    exact ⟨r, hr, g, hg, b, hb, Vec3.ext hx hy hz⟩

theorem IsIn.smul {e : ℝ} (hc : c.IsIn S) (he : ∀ s ∈ S, e * s ∈ T) :
    ((number e : Exact z) • c).IsIn T := by
  obtain ⟨r, hr, g, hg, b, hb, rfl⟩ := hc
  exact ⟨e * r, he r hr, e * g, he g hg, e * b, he b hb, by simp⟩

/-- The mean of two colors that gives the second one the weight `f`. -/
noncomputable def mix (f : ℝ) (c d : Color (Exact z)) : Color (Exact z) :=
  (1 - number f : Exact z) • c + (number f : Exact z) • d

/-- A mean of two colors stays in a convex set. -/
theorem IsIn.mix {f : ℝ} (hS : Convex ℝ S) (hc : c.IsIn S) (hd : d.IsIn S) (hf : 0 ≤ f)
    (hf' : f ≤ 1) : (Vec3.mix f c d).IsIn S := by
  obtain ⟨r, hr, g, hg, b, hb, rfl⟩ := hc
  obtain ⟨r', hr', g', hg', b', hb', rfl⟩ := hd
  have hmean {x y : ℝ} (hx : x ∈ S) (hy : y ∈ S) : (1 - f) * x + f * y ∈ S :=
    hS hx hy (by linarith) hf (by ring)
  exact ⟨_, hmean hr hr', _, hmean hg hg', _, hmean hb hb', by simp [Vec3.mix]⟩

end Vec3

/-! ## Images -/

/-- The word nearest to an integer. -/
def nearestWord (n : ℤ) : Int64 := .ofInt (max (-2 ^ 63) (min n (2 ^ 63 - 1)))

theorem toInt64_floor (x : ℝ) :
    Scalar.toInt64 (Scalar.floor (number x) : Exact z) = nearestWord ⌊x⌋ := by
  change Int64.ofInt (max _ (min (if (⌊x⌋ : ℝ) < 0 then ⌈(⌊x⌋ : ℝ)⌉ else ⌊(⌊x⌋ : ℝ)⌋) _)) = _
  rw [Int.ceil_intCast, Int.floor_intCast, ite_self, nearestWord]

/-- What a filter makes of a line of colors at a real coordinate.  The centers of the colors have
half-integer coordinates. -/
noncomputable def Filter.read (filter : Filter) (line : Int64 → Color (Exact z)) (x : ℝ) :
    Color (Exact z) :=
  match filter with
  | .nearest => line (nearestWord ⌊x⌋)
  | .bilinear =>
    let n := nearestWord ⌊x - 0.5⌋
    Vec3.mix (Int.fract (x - 0.5)) (line n) (line (n + 1))

theorem Filter.read_nearest (line : Int64 → Color (Exact z)) (x : ℝ) :
    nearest.read line x = line (nearestWord ⌊x⌋) := rfl

theorem Filter.read_bilinear (line : Int64 → Color (Exact z)) (x : ℝ) :
    bilinear.read line x =
      Vec3.mix (Int.fract (x - 1 / 2)) (line (nearestWord ⌊x - 1 / 2⌋))
        (line (nearestWord ⌊x - 1 / 2⌋ + 1)) := by
  have hhalf : (0.5 : ℝ) = 1 / 2 := by norm_num
  simp only [read, hhalf]

/-- A filter stays among the colors of the line, if these are convex. -/
theorem Filter.isIn_read {line : Int64 → Color (Exact z)} {S : Set ℝ} (hS : Convex ℝ S)
    (hline : ∀ n, (line n).IsIn S) (filter : Filter) (x : ℝ) : (filter.read line x).IsIn S := by
  cases filter with
  | nearest => exact hline _
  | bilinear =>
    exact (hline _).mix hS (hline _) (Int.fract_nonneg _) (Int.fract_lt_one _).le

namespace ImageTexture

variable {t : ImageTexture (Exact z)} {S : Set ℝ}

theorem toPixels_number (x y : ℝ) : t.toPixels ⟨number x, number y⟩ =
    ⟨number (x * t.image.width.toNat), number ((1 - y) * t.image.height.toNat)⟩ := by
  simp only [toPixels, one_eq, number_sub]
  rfl

/-- A lookup reads along the rows, and then across them. -/
theorem lookup_number (x y : ℝ) : t.lookup ⟨number x, number y⟩ =
    t.filter.read (fun row => t.filter.read (fun column => t.fetch column row) x) y := by
  unfold lookup
  cases t.filter with
  | nearest => simp only [toInt64_floor, Filter.read_nearest]
  | bilinear =>
    have hpoint : (⟨number x, number y⟩ - Vec2.splat 0.5 : Vec2 (Exact z)) =
        ⟨number (x - 1 / 2), number (y - 1 / 2)⟩ := by
      change (⟨number x - 0.5, number y - 0.5⟩ : Vec2 (Exact z)) = _
      norm_num [ofScientific_eq, number_sub]
    have hweight (x : ℝ) : (number x - Scalar.floor (number x) : Exact z) =
        number (Int.fract x) := number_sub _ _
    simp only [hpoint, hweight, toInt64_floor, Filter.read_bilinear, Vec3.mix]

/-- A lookup stays among the colors of the pixels, if these are convex. -/
theorem isIn_lookup (hS : Convex ℝ S) (hfetch : ∀ x y, (t.fetch x y).IsIn S) (x y : ℝ) :
    (t.lookup ⟨number x, number y⟩).IsIn S := by
  rw [lookup_number]
  exact Filter.isIn_read hS
    (fun row => Filter.isIn_read hS (fun column => hfetch column row) _ x) _ y

theorem fetch_mem_or_eq_zero (x y : Int64) :
    t.fetch x y ∈ t.image.pixels ∨ t.fetch x y = .zero := by
  rw [fetch, Image.get, Array.getD_eq_getD_getElem?]
  cases hp : t.image.pixels[(t.image.offset _ _).toNat]? with
  | none => exact .inr rfl
  | some p => exact .inl (Array.mem_of_getElem? hp)

theorem isNonneg_fetch (h : ∀ p ∈ t.image.pixels, p.IsNonneg) (x y : Int64) :
    (t.fetch x y).IsNonneg :=
  (fetch_mem_or_eq_zero x y).elim (h _) fun hzero => hzero ▸ Vec3.isNonneg_zero

end ImageTexture

/-! ## Textures -/

namespace Texture

/-- At real coordinates the channels of the texture are numbers of a set. -/
def TakesIn (t : Texture (Exact z)) (S : Set ℝ) : Prop :=
  ∀ uv : Vec2 (Exact z), uv.IsReal → (t.evaluate uv).IsIn S

/-- At real coordinates the first channel, which a scalar parameter reads, is a number of a set. -/
def ScalarIn (t : Texture (Exact z)) (S : Set ℝ) : Prop :=
  ∀ uv : Vec2 (Exact z), uv.IsReal → ∃ x ∈ S, t.scalar uv = number x

/-- The texture has no negative channels. -/
abbrev IsNonneg (t : Texture (Exact z)) : Prop := t.TakesIn (Set.Ici 0)

variable {t : Texture (Exact z)} {S : Set ℝ} {uv : Vec2 (Exact z)}

theorem IsNonneg.evaluate (h : t.IsNonneg) (huv : uv.IsReal) : (t.evaluate uv).IsNonneg :=
  Vec3.isIn_Ici_iff.1 (h uv huv)

theorem TakesIn.scalarIn (h : t.TakesIn S) : t.ScalarIn S := by
  intro uv huv
  obtain ⟨r, hr, _, _, _, _, heq⟩ := h uv huv
  exact ⟨r, hr, by rw [scalar, heq]⟩

theorem takesIn_constant {c : Color (Exact z)} (hc : c.IsIn S) : (constant c).TakesIn S :=
  fun _ _ => hc

theorem takesIn_checkerboard {c d : Color (Exact z)} (hc : c.IsIn S) (hd : d.IsIn S)
    (scale : Vec2 (Exact z)) : (checkerboard c d scale).TakesIn S := by
  intro uv _
  simp only [Texture.evaluate]
  split
  · exact hc
  · exact hd

/-- An image without negative pixels has no negative colors under an exposure that is not
negative. -/
theorem takesIn_image {t : ImageTexture (Exact z)} (hpixels : ∀ p ∈ t.image.pixels, p.IsNonneg)
    (hexposure : t.exposure.IsNonneg) : (image t).IsNonneg := by
  rintro _ ⟨x, y, rfl⟩
  obtain ⟨e, he, hexposure⟩ := hexposure
  rw [Texture.evaluate, ImageTexture.evaluate, hexposure, ImageTexture.toPixels_number]
  refine (ImageTexture.isIn_lookup (convex_Ici 0) (fun x y => ?_) _ _).smul fun s hs =>
    mul_nonneg he hs
  exact Vec3.isIn_Ici_iff.2 (ImageTexture.isNonneg_fetch hpixels x y)

end Texture

end Radiance
