import Radiance.Proofs.Scattering.Textures

/-!
# Lookups in images

A lookup turns texture coordinates into pixel coordinates, takes their integral parts to words of 64
bits, and brings these into the image.  So whatever the coordinates are, only pixels of the image
are read.  In exact arithmetic the color is a mean of them, and at the centers of pixels it is the
pixel itself.  Repeated images have the period of the image, and clamped ones are constant beyond
the centers of their outer pixels, as long as the words do not run over.

## Main definitions

* `Image.IsFull`: the image has all its pixels, at places that a word can count.
* `ImageTexture.ReadsInside`: the color is looked for inside of the image.
* `Filter.range`: the pixel coordinates at which a filter does not run over.

## Main statements

* `ImageTexture.readsInside`: no coordinates lead out of a full image.
* `Filter.read_add_period`, `Filter.read_of_le`, `Filter.read_of_ge`: periodic lines are read
  periodically, and lines with constant ends constantly.
* `ImageTexture.evaluate_semantics`: what a full image gives at real coordinates.
-/

namespace Radiance

open Exact

variable {z : ZeroSign}

/-! ## Places of pixels -/

/-- The image has rows and columns and all its pixels, at places that a word can count. -/
structure Image.IsFull {α : Type} (image : Image α) : Prop where
  width_pos : 0 < image.width.toNat
  height_pos : 0 < image.height.toNat
  size_pixels : image.pixels.size = image.width.toNat * image.height.toNat
  size_lt : image.pixels.size < 2 ^ 32

theorem Image.IsFull.toNat_offset {α : Type} {image : Image α} (h : image.IsFull) {x y : UInt32}
    (hx : x < image.width) (hy : y < image.height) :
    (image.offset x y).toNat = y.toNat * image.width.toNat + x.toNat ∧
      (image.offset x y).toNat < image.pixels.size := by
  have hplace : y.toNat * image.width.toNat + x.toNat < image.pixels.size := calc
    _ < y.toNat * image.width.toNat + image.width.toNat :=
      Nat.add_lt_add_left (UInt32.lt_iff_toNat_lt.1 hx) _
    _ = (y.toNat + 1) * image.width.toNat := (Nat.succ_mul _ _).symm
    _ ≤ image.height.toNat * image.width.toNat :=
      Nat.mul_le_mul_right _ (UInt32.lt_iff_toNat_lt.1 hy)
    _ = _ := by rw [h.size_pixels, Nat.mul_comm]
  have hoffset : (image.offset x y).toNat = y.toNat * image.width.toNat + x.toNat := by
    rw [offset, UInt32.toNat_add, UInt32.toNat_mul, Nat.mod_add_mod,
      Nat.mod_eq_of_lt (hplace.trans h.size_lt)]
  exact ⟨hoffset, hoffset ▸ hplace⟩

namespace ImageTexture

section

variable {size : UInt32} (x : Int64)

theorem toNat_resolve_clamp (h : 0 < size.toNat) :
    ((resolve .clamp size x).toNat : ℤ) = max 0 (min x.toInt (size.toNat - 1)) := by
  have hsize := size.toNat_lt
  simp only [resolve, UInt32.toNat_ofNat']
  split <;> [skip; split] <;> omega

theorem toNat_resolve_tile (h : 0 < size.toNat) :
    ((resolve .tile size x).toNat : ℤ) = x.toInt % size.toNat := by
  have hsize := size.toNat_lt
  have hnonneg := Int.emod_nonneg x.toInt (b := size.toNat) (by omega)
  have hlt := Int.emod_lt_of_pos x.toInt (b := size.toNat) (by omega)
  simp only [resolve, UInt32.toNat_ofNat']
  omega

/-- Whatever the coordinate is, it is brought into the image. -/
theorem resolve_lt (border : Border) (h : 0 < size.toNat) : resolve border size x < size := by
  rw [UInt32.lt_iff_toNat_lt]
  cases border with
  | clamp =>
    have := toNat_resolve_clamp x h
    omega
  | tile =>
    have := toNat_resolve_tile x h
    have := Int.emod_lt_of_pos x.toInt (b := size.toNat) (by omega)
    omega

end

variable {α : Type} [Scalar α]

/-- The pixels that make up the color at texture coordinates are looked for at columns and rows of
the image, and at their places among its pixels. -/
def ReadsInside (t : ImageTexture α) (uv : Vec2 α) : Prop :=
  ∀ c ∈ neighbors t.filter (t.toPixels uv),
    let x := resolve t.border t.image.width c.1
    let y := resolve t.border t.image.height c.2
    x < t.image.width ∧ y < t.image.height ∧
      (t.image.offset x y).toNat = y.toNat * t.image.width.toNat + x.toNat ∧
      (t.image.offset x y).toNat < t.image.pixels.size

/-- No coordinates lead out of a full image, not even undefined ones. -/
theorem readsInside {t : ImageTexture α} (h : t.image.IsFull) (uv : Vec2 α) : t.ReadsInside uv := by
  intro c _ x y
  have hx : x < t.image.width := resolve_lt c.1 _ h.width_pos
  have hy : y < t.image.height := resolve_lt c.2 _ h.height_pos
  exact ⟨hx, hy, h.toNat_offset hx hy⟩

theorem isDefinedAt_of_isFull {t : ImageTexture α} (h : t.image.IsFull) (uv : Vec2 α) :
    t.isDefinedAt uv = true := by
  have hwidth : t.image.width ≠ 0 := fun hzero => by simpa [hzero] using h.width_pos
  have hheight : t.image.height ≠ 0 := fun hzero => by simpa [hzero] using h.height_pos
  refine List.all_eq_true.2 fun c hc => ?_
  obtain ⟨-, -, -, hplace⟩ := readsInside h uv c hc
  simp [hasPixel, Image.hasPixel, hwidth, hheight, hplace]

/-- The color depends on nothing but the pixels whose coordinates are listed. -/
theorem lookup_congr {t t' : ImageTexture α} {p : Vec2 α} (hfilter : t.filter = t'.filter)
    (hfetch : ∀ c ∈ neighbors t.filter p, t.fetch c.1 c.2 = t'.fetch c.1 c.2) :
    t.lookup p = t'.lookup p := by
  cases h : t.filter with
  | nearest =>
    simp only [lookup, ← hfilter, h]
    rw [h, neighbors, List.forall_mem_singleton] at hfetch
    exact hfetch
  | bilinear =>
    simp only [lookup, ← hfilter, h]
    rw [h, neighbors] at hfetch
    simp only [List.forall_mem_cons] at hfetch
    rw [hfetch.1, hfetch.2.1, hfetch.2.2.1, hfetch.2.2.2.1]

end ImageTexture

/-! ## Words -/

theorem toInt_nearestWord (n : ℤ) :
    (nearestWord n).toInt = max (-2 ^ 63) (min n (2 ^ 63 - 1)) :=
  Int64.toInt_ofInt_of_le (by omega) (by omega)

@[simp] theorem nearestWord_toInt (n : Int64) : nearestWord n.toInt = n := by
  have hmin : -2 ^ 63 ≤ n.toInt := n.minValue_le_toInt
  have hmax : n.toInt ≤ 2 ^ 63 - 1 := n.toInt_le
  refine Int64.toInt.inj ?_
  rw [toInt_nearestWord]
  omega

/-- Words are stepped on by a period, as long as they do not run over. -/
theorem nearestWord_add_emod {n : ℤ} {m : ℕ} (h : -2 ^ 63 ≤ n) (h' : n + m < 2 ^ 63) :
    (nearestWord (n + m)).toInt % m = (nearestWord n).toInt % m := by
  have hword : (nearestWord (n + m)).toInt = (nearestWord n).toInt + m := by
    rw [toInt_nearestWord, toInt_nearestWord]
    omega
  rw [hword, Int.add_emod_right]

/-- Beyond the same end of the words, integers have the same nearest word. -/
theorem nearestWord_congr {m n : ℤ}
    (h : m ≤ -2 ^ 63 ∧ n ≤ -2 ^ 63 ∨ 2 ^ 63 - 1 ≤ m ∧ 2 ^ 63 - 1 ≤ n) :
    nearestWord m = nearestWord n := by
  refine Int64.toInt.inj ?_
  rw [toInt_nearestWord, toInt_nearestWord]
  omega

theorem toInt_add_one {x : Int64} (h : x.toInt < 2 ^ 63 - 1) : (x + 1).toInt = x.toInt + 1 := by
  have hmin : -2 ^ 63 ≤ x.toInt := x.minValue_le_toInt
  rw [Int64.toInt_add]
  exact Int.bmod_eq_of_le (by simp; omega) (by simp; omega)

/-! ## Lines of colors -/

namespace Vec3

variable {f g : ℝ} {a b c d : Color (Exact z)}

/-- A mean is its first color if the second has no weight, or is the same. -/
theorem mix_eq_left (hc : c.IsReal) (hd : d.IsReal) (h : f = 0 ∨ d = c) : mix f c d = c := by
  obtain ⟨x, y, t, rfl⟩ := hc
  obtain ⟨x', y', t', rfl⟩ := hd
  rcases h with rfl | h
  · simp [mix]
  · rw [h]
    simp [mix, sub_mul]

theorem mix_congr (hc : c.IsReal) (ha : a.IsReal) (hb : b.IsReal) (h : f = 0 ∨ a = b) :
    mix f c a = mix f c b := by
  rcases h with hzero | rfl
  · rw [mix_eq_left hc ha (.inl hzero), mix_eq_left hc hb (.inl hzero)]
  · rfl

theorem IsReal.mix (hc : c.IsReal) (hd : d.IsReal) : (Vec3.mix f c d).IsReal := by
  obtain ⟨x, y, t, rfl⟩ := hc
  obtain ⟨x', y', t', rfl⟩ := hd
  rw [Vec3.mix, one_eq, number_sub]
  exact ⟨_, _, _, rfl⟩

/-- The mean of two means weighs four colors. -/
theorem mix_mix (ha : a.IsReal) (hb : b.IsReal) (hc : c.IsReal) (hd : d.IsReal) :
    mix g (mix f a b) (mix f c d) =
      (number ((1 - f) * (1 - g)) : Exact z) • a + (number (f * (1 - g)) : Exact z) • b +
        (number ((1 - f) * g) : Exact z) • c + (number (f * g) : Exact z) • d := by
  obtain ⟨_, _, _, rfl⟩ := ha
  obtain ⟨_, _, _, rfl⟩ := hb
  obtain ⟨_, _, _, rfl⟩ := hc
  obtain ⟨_, _, _, rfl⟩ := hd
  simp only [mix, one_eq, number_sub, smul_mk, mk_add, number_mul, number_add, Vec3.mk.injEq,
    number_inj]
  refine ⟨?_, ?_, ?_⟩ <;> ring

end Vec3

namespace Filter

/-- The coordinates at which a filter reads words that do not run over, unless it reads them without
weight. -/
def range : Filter → Set ℝ
  | .nearest => {x | -2 ^ 63 ≤ ⌊x⌋ ∧ ⌊x⌋ < 2 ^ 63}
  | .bilinear => {x | -2 ^ 63 ≤ ⌊x - 0.5⌋ ∧ ⌈x - 0.5⌉ < 2 ^ 63}

theorem mem_range_nearest {x : ℝ} : x ∈ nearest.range ↔ -2 ^ 63 ≤ ⌊x⌋ ∧ ⌊x⌋ < 2 ^ 63 := Iff.rfl

theorem mem_range_bilinear {x : ℝ} :
    x ∈ bilinear.range ↔ -2 ^ 63 ≤ ⌊x - 1 / 2⌋ ∧ ⌈x - 1 / 2⌉ < 2 ^ 63 := by
  have hhalf : (0.5 : ℝ) = 1 / 2 := by norm_num
  rw [← hhalf]
  rfl

/-- Between two whole numbers there are no others. -/
theorem fract_eq_zero_or_ceil_eq (x : ℝ) : Int.fract x = 0 ∨ ⌈x⌉ = ⌊x⌋ + 1 :=
  or_iff_not_imp_left.2 fun h =>
    (Int.ceil_eq_floor_add_one_iff_notMem x).2 (Int.fract_ne_zero_iff.1 h)

variable {filter : Filter} {line : Int64 → Color (Exact z)} {c : Color (Exact z)} {x : ℝ}

theorem isReal_read (hline : ∀ n, (line n).IsReal) : (filter.read line x).IsReal := by
  cases filter with
  | nearest => exact hline _
  | bilinear => exact (hline _).mix (hline _)

/-- At the center of a color both filters give this color. -/
theorem read_center (hline : ∀ n, (line n).IsReal) (n : Int64) :
    filter.read line (n.toInt + 1 / 2) = line n := by
  cases filter with
  | nearest =>
    have hfloor : ⌊(n.toInt : ℝ) + 1 / 2⌋ = n.toInt := by
      rw [Int.floor_intCast_add]
      norm_num
    rw [read_nearest, hfloor, nearestWord_toInt]
  | bilinear =>
    rw [read_bilinear, add_sub_cancel_right, Int.floor_intCast, Int.fract_intCast,
      nearestWord_toInt]
    exact Vec3.mix_eq_left (hline _) (hline _) (.inl rfl)

/-- If all colors up to the center are the same, then so is what is read before it. -/
theorem read_of_le (hline : ∀ n, (line n).IsReal) (hconst : ∀ n : Int64, n.toInt ≤ 0 → line n = c)
    (hx : x ≤ 1 / 2) : bilinear.read line x = c := by
  have hfloor := Int.floor_le_ceil (x - 1 / 2)
  have hceil : ⌈x - 1 / 2⌉ ≤ 0 := Int.ceil_le.2 (by push_cast; linarith)
  have hfirst := toInt_nearestWord ⌊x - 1 / 2⌋
  rw [← hconst (nearestWord ⌊x - 1 / 2⌋) (by omega), read_bilinear]
  refine Vec3.mix_eq_left (hline _) (hline _) ?_
  -- Before the center the next color is still one of those up to it.
  refine (fract_eq_zero_or_ceil_eq _).imp_right fun heq => ?_
  have hnext := toInt_add_one (x := nearestWord ⌊x - 1 / 2⌋) (by omega)
  exact (hconst _ (by omega)).trans (hconst _ (by omega)).symm

/-- If all colors from a center on are the same, then so is what is read after it, until the words
run over. -/
theorem read_of_ge {m : ℕ} (hline : ∀ n, (line n).IsReal)
    (hconst : ∀ n : Int64, m ≤ n.toInt → line n = c) (hx : m + 1 / 2 ≤ x)
    (hmax : ⌈x - 1 / 2⌉ < 2 ^ 63) : bilinear.read line x = c := by
  have hfloor : (m : ℤ) ≤ ⌊x - 1 / 2⌋ := Int.le_floor.2 (by push_cast; linarith)
  have hle := Int.floor_le_ceil (x - 1 / 2)
  have hfirst := toInt_nearestWord ⌊x - 1 / 2⌋
  rw [← hconst (nearestWord ⌊x - 1 / 2⌋) (by omega), read_bilinear]
  refine Vec3.mix_eq_left (hline _) (hline _) ?_
  refine (fract_eq_zero_or_ceil_eq _).imp_right fun heq => ?_
  have hnext := toInt_add_one (x := nearestWord ⌊x - 1 / 2⌋) (by omega)
  exact (hconst _ (by omega)).trans (hconst _ (by omega)).symm

/-- A periodic line is read periodically, unless one step crosses an end of the range. -/
theorem read_add_period {m : ℕ} (hline : ∀ n, (line n).IsReal) (hm : m < 2 ^ 32)
    (hperiod : ∀ a b : Int64, a.toInt % m = b.toInt % m → line a = line b)
    (hx : x + m ∈ filter.range ↔ x ∈ filter.range) :
    filter.read line (x + m) = filter.read line x := by
  cases filter with
  | nearest =>
    rw [mem_range_nearest, mem_range_nearest, Int.floor_add_natCast] at hx
    rw [read_nearest, read_nearest, Int.floor_add_natCast]
    by_cases hrange : -2 ^ 63 ≤ ⌊x⌋ ∧ ⌊x⌋ < 2 ^ 63
    · exact hperiod _ _ (nearestWord_add_emod hrange.1 (hx.2 hrange).2)
    · have hword : nearestWord (⌊x⌋ + m) = nearestWord ⌊x⌋ := nearestWord_congr (by omega)
      rw [hword]
  | bilinear =>
    have hshift : x + m - 1 / 2 = x - 1 / 2 + m := add_sub_right_comm x _ _
    have hle := Int.floor_le_ceil (x - 1 / 2)
    have hfirst := toInt_nearestWord ⌊x - 1 / 2⌋
    have hfirst' := toInt_nearestWord (⌊x - 1 / 2⌋ + m)
    rw [mem_range_bilinear, mem_range_bilinear, hshift, Int.floor_add_natCast,
      Int.ceil_add_natCast] at hx
    rw [read_bilinear, read_bilinear, hshift, Int.floor_add_natCast, Int.fract_add_natCast]
    by_cases hrange : -2 ^ 63 ≤ ⌊x - 1 / 2⌋ ∧ ⌈x - 1 / 2⌉ < 2 ^ 63
    · have hrange' := hx.2 hrange
      have hstep := nearestWord_add_emod hrange.1 (by omega : ⌊x - 1 / 2⌋ + m < 2 ^ 63)
      rw [hperiod _ _ hstep]
      refine Vec3.mix_congr (hline _) (hline _) (hline _) ?_
      refine (fract_eq_zero_or_ceil_eq _).imp_right fun heq => hperiod _ _ ?_
      rw [toInt_add_one (by omega), toInt_add_one (by omega), Int.add_emod, hstep, ← Int.add_emod]
    · have hceil := Int.ceil_le_floor_add_one (x - 1 / 2)
      have hword : nearestWord (⌊x - 1 / 2⌋ + m) = nearestWord ⌊x - 1 / 2⌋ :=
        nearestWord_congr (by omega)
      rw [hword]

end Filter

/-! ## Images at real coordinates -/

namespace ImageTexture

variable (t : ImageTexture (Exact z)) {x y : Int64}

/-- A texture coordinate along the rows, in pixels. -/
noncomputable def column (u : ℝ) : ℝ := u * t.image.width.toNat

/-- A texture coordinate across the rows, in pixels from the top. -/
noncomputable def row (v : ℝ) : ℝ := (1 - v) * t.image.height.toNat

theorem evaluate_number (u v : ℝ) : t.evaluate ⟨number u, number v⟩ =
    t.exposure • t.filter.read (fun y => t.filter.read (fun x => t.fetch x y) (t.column u))
      (t.row v) := by
  rw [evaluate, toPixels_number, lookup_number, column, row]

/-- How a full image with real pixels is read at real coordinates. -/
structure IsInterpolated : Prop where
  /-- Between the centers of four pixels, the color is their mean. -/
  mean : t.filter = .bilinear → ∀ u v : ℝ,
    let f := Int.fract (t.column u - 1 / 2)
    let g := Int.fract (t.row v - 1 / 2)
    let x := nearestWord ⌊t.column u - 1 / 2⌋
    let y := nearestWord ⌊t.row v - 1 / 2⌋
    (0 ≤ (1 - f) * (1 - g) ∧ 0 ≤ f * (1 - g) ∧ 0 ≤ (1 - f) * g ∧ 0 ≤ f * g) ∧
      (1 - f) * (1 - g) + f * (1 - g) + (1 - f) * g + f * g = 1 ∧
      t.evaluate ⟨number u, number v⟩ = t.exposure •
        ((number ((1 - f) * (1 - g)) : Exact z) • t.fetch x y +
          (number (f * (1 - g)) : Exact z) • t.fetch (x + 1) y +
          (number ((1 - f) * g) : Exact z) • t.fetch x (y + 1) +
          (number (f * g) : Exact z) • t.fetch (x + 1) (y + 1))
  /-- At the center of a pixel, which may lie outside the image, the color is that of the pixel. -/
  center : ∀ (x y : Int64) (u v : ℝ), t.column u = x.toInt + 1 / 2 → t.row v = y.toInt + 1 / 2 →
    t.evaluate ⟨number u, number v⟩ = t.exposure • t.fetch x y
  /-- Inside the image, the pixel is the one at the column and row. -/
  pixel : ∀ i j : UInt32, i < t.image.width → j < t.image.height →
    t.fetch (.ofNat i.toNat) (.ofNat j.toNat) = t.image.get i j
  /-- A repeated image has the period of its rows, unless a step crosses an end of the range. -/
  periodic_u : t.border = .tile → ∀ u v : ℝ,
    (t.column (u + 1) ∈ t.filter.range ↔ t.column u ∈ t.filter.range) →
    t.evaluate ⟨number (u + 1), number v⟩ = t.evaluate ⟨number u, number v⟩
  /-- It has the period of its columns likewise. -/
  periodic_v : t.border = .tile → ∀ u v : ℝ,
    (t.row (v + 1) ∈ t.filter.range ↔ t.row v ∈ t.filter.range) →
    t.evaluate ⟨number u, number (v + 1)⟩ = t.evaluate ⟨number u, number v⟩
  /-- A clamped image is constant before the centers of its first pixels. -/
  constant_left : t.border = .clamp → t.filter = .bilinear →
    ∀ u ≤ 1 / (2 * (t.image.width.toNat : ℝ)), ∀ v : ℝ,
      t.evaluate ⟨number u, number v⟩ =
        t.evaluate ⟨number (1 / (2 * t.image.width.toNat)), number v⟩
  /-- It is constant after the centers of its last pixels, up to the end of the range. -/
  constant_right : t.border = .clamp → t.filter = .bilinear →
    ∀ u ≥ 1 - 1 / (2 * (t.image.width.toNat : ℝ)), t.column u ∈ t.filter.range → ∀ v : ℝ,
      t.evaluate ⟨number u, number v⟩ =
        t.evaluate ⟨number (1 - 1 / (2 * t.image.width.toNat)), number v⟩
  constant_top : t.border = .clamp → t.filter = .bilinear →
    ∀ v ≥ 1 - 1 / (2 * (t.image.height.toNat : ℝ)), ∀ u : ℝ,
      t.evaluate ⟨number u, number v⟩ =
        t.evaluate ⟨number u, number (1 - 1 / (2 * t.image.height.toNat))⟩
  constant_bottom : t.border = .clamp → t.filter = .bilinear →
    ∀ v ≤ 1 / (2 * (t.image.height.toNat : ℝ)), t.row v ∈ t.filter.range → ∀ u : ℝ,
      t.evaluate ⟨number u, number v⟩ =
        t.evaluate ⟨number u, number (1 / (2 * t.image.height.toNat))⟩

variable {t}

theorem isReal_fetch (h : ∀ p ∈ t.image.pixels, p.IsReal) (x y : Int64) :
    (t.fetch x y).IsReal :=
  (fetch_mem_or_eq_zero x y).elim (h _) fun hzero =>
    hzero ▸ ⟨0, 0, 0, by simp [Vec3.zero, Vec3.splat]⟩

/-- Coordinates that differ by multiples of the size are the same pixel of a repeated image. -/
theorem resolve_tile_congr {size : UInt32} (h : 0 < size.toNat)
    (hmod : x.toInt % size.toNat = y.toInt % size.toNat) :
    resolve .tile size x = resolve .tile size y := by
  have hx := toNat_resolve_tile x h
  have hy := toNat_resolve_tile y h
  exact UInt32.toNat_inj.1 (by omega)

/-- Coordinates beyond the same edge are the same pixel of a clamped image. -/
theorem resolve_clamp_congr {size : UInt32} (h : 0 < size.toNat)
    (hedge : x.toInt ≤ 0 ∧ y.toInt ≤ 0 ∨ size.toNat - 1 ≤ x.toInt ∧ size.toNat - 1 ≤ y.toInt) :
    resolve .clamp size x = resolve .clamp size y := by
  have hx := toNat_resolve_clamp x h
  have hy := toNat_resolve_clamp y h
  exact UInt32.toNat_inj.1 (by omega)

/-- A coordinate inside the image stays where it is. -/
theorem resolve_ofNat {size i : UInt32} (border : Border) (h : i < size) :
    resolve border size (.ofNat i.toNat) = i := by
  have hi := UInt32.lt_iff_toNat_lt.1 h
  have hmax := i.toNat_lt
  have hword : (Int64.ofNat i.toNat).toInt = i.toNat :=
    Int64.toInt_ofNat_of_lt (by omega)
  refine UInt32.toNat_inj.1 ?_
  cases border with
  | clamp =>
    have := toNat_resolve_clamp (.ofNat i.toNat) (by omega : 0 < size.toNat)
    omega
  | tile =>
    have := toNat_resolve_tile (.ofNat i.toNat) (by omega : 0 < size.toNat)
    rw [hword, Int.emod_eq_of_lt (by omega) (by omega)] at this
    omega

/-- The line has one color wherever the border reads the same pixel. -/
def IsResolved (border : Border) (size : UInt32) (line : Int64 → Color (Exact z)) : Prop :=
  ∀ x y, resolve border size x = resolve border size y → line x = line y

theorem isResolved_row (y : Int64) :
    IsResolved t.border t.image.width fun x => t.fetch x y := by
  intro x x' h
  simp only [fetch, h]

theorem isResolved_column (p : ℝ) :
    IsResolved t.border t.image.height fun y => t.filter.read (fun x => t.fetch x y) p := by
  intro y y' h
  simp only [fetch, h]

namespace IsResolved

variable {size : UInt32} {line : Int64 → Color (Exact z)} {s : ℝ}

theorem read_add_size (h : IsResolved .tile size line) (hline : ∀ n, (line n).IsReal)
    (hsize : 0 < size.toNat) {filter : Filter}
    (hx : s + size.toNat ∈ filter.range ↔ s ∈ filter.range) :
    filter.read line (s + size.toNat) = filter.read line s :=
  Filter.read_add_period hline size.toNat_lt
    (fun x y hmod => h x y (resolve_tile_congr hsize hmod)) hx

/-- Up to half a pixel from its start, a clamped line is constant. -/
theorem read_start (h : IsResolved .clamp size line) (hline : ∀ n, (line n).IsReal)
    (hsize : 0 < size.toNat) (hs : s ≤ 1 / (2 * size.toNat)) :
    Filter.bilinear.read line (s * size.toNat) =
      Filter.bilinear.read line (1 / (2 * size.toNat) * size.toNat) := by
  have hpos : (0 : ℝ) < size.toNat := by exact_mod_cast hsize
  have hstart {s : ℝ} (hs : s ≤ 1 / (2 * size.toNat)) :
      Filter.bilinear.read line (s * size.toNat) = line 0 := by
    rw [le_div_iff₀ (by positivity)] at hs
    exact Filter.read_of_le hline
      (fun n hn => h n 0 (resolve_clamp_congr hsize (.inl ⟨hn, le_rfl⟩))) (by linarith)
  rw [hstart hs, hstart le_rfl]

/-- From half a pixel before its end, a clamped line is constant until the words run over. -/
theorem read_end (h : IsResolved .clamp size line) (hline : ∀ n, (line n).IsReal)
    (hsize : 0 < size.toNat) (hs : 1 - 1 / (2 * size.toNat) ≤ s)
    (hrange : s * size.toNat ∈ Filter.bilinear.range) :
    Filter.bilinear.read line (s * size.toNat) =
      Filter.bilinear.read line ((1 - 1 / (2 * size.toNat)) * size.toNat) := by
  have hpos : (0 : ℝ) < size.toNat := by exact_mod_cast hsize
  have hmax := size.toNat_lt
  have hword : (Int64.ofNat (size.toNat - 1)).toInt = (size.toNat - 1 : ℕ) :=
    Int64.toInt_ofNat_of_lt (by omega)
  have hend {s : ℝ} (hs : 1 - 1 / (2 * size.toNat) ≤ s)
      (hrange : ⌈s * size.toNat - 1 / 2⌉ < 2 ^ 63) :
      Filter.bilinear.read line (s * size.toNat) = line (.ofNat (size.toNat - 1)) := by
    rw [sub_le_comm, le_div_iff₀ (by positivity)] at hs
    refine Filter.read_of_ge (m := size.toNat - 1) hline (fun n hn => ?_) ?_ hrange
    · exact h n _ (resolve_clamp_congr hsize (.inr (by omega)))
    · rw [Nat.cast_pred hsize]
      linarith
  have hcenter : ⌈(1 - 1 / (2 * size.toNat)) * size.toNat - (1 / 2 : ℝ)⌉ < 2 ^ 63 := by
    have hlt : (size.toNat : ℝ) < 2 ^ 32 := by exact_mod_cast hmax
    rw [← Int.le_sub_one_iff, Int.ceil_le, sub_mul, one_mul, div_mul, mul_div_assoc,
      div_self hpos.ne']
    push_cast
    linarith
  rw [hend hs (Filter.mem_range_bilinear.1 hrange).2, hend le_rfl hcenter]

end IsResolved

/-- A full image with real pixels is interpolated at real coordinates. -/
theorem isInterpolated (hfull : t.image.IsFull) (hpixels : ∀ p ∈ t.image.pixels, p.IsReal) :
    t.IsInterpolated := by
  have hreal := isReal_fetch hpixels
  have hline (u : ℝ) (y : Int64) : (t.filter.read (fun x => t.fetch x y) u).IsReal :=
    Filter.isReal_read fun x => hreal x y
  have hrows := isResolved_row (t := t)
  have hcolumns := isResolved_column (t := t)
  constructor
  case mean =>
    intro hfilter u v f g x y
    have hf : 0 ≤ f := Int.fract_nonneg _
    have hg : 0 ≤ g := Int.fract_nonneg _
    have hf' : 0 ≤ 1 - f := sub_nonneg.2 (Int.fract_lt_one _).le
    have hg' : 0 ≤ 1 - g := sub_nonneg.2 (Int.fract_lt_one _).le
    refine ⟨⟨mul_nonneg hf' hg', mul_nonneg hf hg', mul_nonneg hf' hg, mul_nonneg hf hg⟩, by ring,
      ?_⟩
    rw [evaluate_number, hfilter, Filter.read_bilinear, Filter.read_bilinear, Filter.read_bilinear,
      Vec3.mix_mix (hreal _ _) (hreal _ _) (hreal _ _) (hreal _ _)]
  case center =>
    intro x y u v hu hv
    rw [evaluate_number, hu, hv, Filter.read_center (hline _),
      Filter.read_center fun x => hreal x y]
  case pixel =>
    intro i j hi hj
    rw [fetch, resolve_ofNat _ hi, resolve_ofNat _ hj]
  case periodic_u =>
    intro hborder u v hrange
    have hcolumn : t.column (u + 1) = t.column u + t.image.width.toNat := add_one_mul _ _
    have hrow (y : Int64) := (hborder ▸ hrows y).read_add_size (fun x => hreal x y)
      hfull.width_pos (hcolumn ▸ hrange)
    simp only [evaluate_number, hcolumn, hrow]
  case periodic_v =>
    intro hborder u v hrange
    have hrow : t.row v = t.row (v + 1) + t.image.height.toNat := by
      rw [row, row]
      ring
    have hcolumn := (hborder ▸ hcolumns (t.column u)).read_add_size (hline _) hfull.height_pos
      (hrow ▸ hrange.symm)
    rw [evaluate_number, evaluate_number, hrow, hcolumn]
  case constant_left =>
    intro hborder hfilter u hu v
    have hrow (y : Int64) := (hborder ▸ hrows y).read_start (fun x => hreal x y)
      hfull.width_pos hu
    simp only [evaluate_number, hfilter, column, hrow]
  case constant_right =>
    intro hborder hfilter u hu hrange v
    have hrow (y : Int64) := (hborder ▸ hrows y).read_end (fun x => hreal x y)
      hfull.width_pos hu (hfilter ▸ hrange)
    simp only [evaluate_number, hfilter, column, hrow]
  case constant_top =>
    intro hborder hfilter v hv u
    have hcolumn := (hborder ▸ hcolumns (t.column u)).read_start (hline _) hfull.height_pos
      (sub_le_comm.1 hv)
    rw [hfilter] at hcolumn
    rw [evaluate_number, evaluate_number, hfilter, row, row, sub_sub_cancel, hcolumn]
  case constant_bottom =>
    intro hborder hfilter v hv hrange u
    have hcolumn := (hborder ▸ hcolumns (t.column u)).read_end (hline _) hfull.height_pos
      (sub_le_sub_left hv 1) (hfilter ▸ hrange)
    rw [hfilter] at hcolumn
    rw [evaluate_number, evaluate_number, hfilter, row, row, hcolumn]

/-- Whatever the coordinates are, the color of a full image comes from pixels of the image alone.
In exact arithmetic an image with real pixels is interpolated. -/
theorem evaluate_semantics :
    (∀ {α : Type} [Scalar α] (t : ImageTexture α), t.image.IsFull → ∀ uv : Vec2 α,
      t.ReadsInside uv ∧ t.isDefinedAt uv = true ∧
        ∀ t' : ImageTexture α, t.filter = t'.filter →
          (∀ c ∈ neighbors t.filter (t.toPixels uv), t.fetch c.1 c.2 = t'.fetch c.1 c.2) →
          t.lookup (t.toPixels uv) = t'.lookup (t.toPixels uv)) ∧
      ∀ t : ImageTexture (Exact z), t.image.IsFull → (∀ p ∈ t.image.pixels, p.IsReal) →
        t.IsInterpolated :=
  ⟨fun _ h uv => ⟨readsInside h uv, isDefinedAt_of_isFull h uv, fun _ => lookup_congr⟩,
    fun _ => isInterpolated⟩

/-- A black, a gray and a white pixel beside each other. -/
noncomputable def strip (border : Border) (filter : Filter) : ImageTexture (Exact .plus) where
  image := ⟨3, 1, #[.ofReal ⟨0, 0, 0⟩, .ofReal ⟨0.5, 0.5, 0.5⟩, .ofReal ⟨1, 1, 1⟩]⟩
  exposure := 1
  border := border
  filter := filter

section

variable (border : Border) (filter : Filter)

@[simp] theorem width_strip : (strip border filter).image.width.toNat = 3 := rfl

@[simp] theorem height_strip : (strip border filter).image.height.toNat = 1 := rfl

theorem isFull_strip : (strip border filter).image.IsFull :=
  ⟨by simp, by simp, rfl, by simp [strip]⟩

theorem isReal_strip : ∀ p ∈ (strip border filter).image.pixels, p.IsReal := by
  have hreal (v : Vec3 ℝ) : (.ofReal v : Vec3 (Exact .plus)).IsReal := Vec3.isReal_iff.2 ⟨v, rfl⟩
  simp [strip, hreal]

/-- Halfway up, the strip is read along its only row. -/
theorem evaluate_strip (u : ℝ) : (strip border filter).evaluate ⟨number u, number (1 / 2)⟩ =
    filter.read (fun x => (strip border filter).fetch x 0) (u * 3) := by
  have hreal := isReal_fetch (isReal_strip border filter)
  have hrow : (strip border filter).row (1 / 2) = (0 : Int64).toInt + 1 / 2 := by
    rw [row, height_strip, Int64.toInt_zero]
    norm_num
  have hcolumn : (strip border filter).column u = u * 3 := by
    norm_num [column]
  obtain ⟨x, y, t, hread⟩ :
      (filter.read (fun x => (strip border filter).fetch x 0) (u * 3)).IsReal :=
    Filter.isReal_read fun x => hreal x 0
  rw [evaluate_number, hrow, hcolumn,
    Filter.read_center fun y => Filter.isReal_read fun x => hreal x y]
  change (1 : Exact .plus) • filter.read (fun x => (strip border filter).fetch x 0) (u * 3) = _
  simp [hread]

end

/-- Undefined coordinates lead to pixels of the strip as well.  One period on, the repeated strip is
the same, and before the center of its first pixel the clamped one is. -/
theorem evaluate_semantics_strip :
    (strip .tile .bilinear).ReadsInside ⟨undefined, infinity⟩ ∧
      (strip .tile .bilinear).evaluate ⟨number (1 / 3 + 1), number 0⟩ =
        (strip .tile .bilinear).evaluate ⟨number (1 / 3), number 0⟩ ∧
      (strip .clamp .bilinear).evaluate ⟨number (-7), number 2⟩ =
        (strip .clamp .bilinear).evaluate ⟨number (1 / 6), number 2⟩ := by
  obtain ⟨hinside, hexact⟩ := evaluate_semantics (z := .plus)
  have htile := hexact (strip .tile .bilinear) (isFull_strip _ _) (isReal_strip _ _)
  have hclamp := hexact (strip .clamp .bilinear) (isFull_strip _ _) (isReal_strip _ _)
  refine ⟨(hinside _ (isFull_strip _ _) _).1, htile.periodic_u rfl _ _ ?_, ?_⟩
  · rw [column, column, width_strip]
    norm_num [strip, Filter.range]
  · have hleft := hclamp.constant_left rfl rfl (-7) (by norm_num) 2
    norm_num at hleft
    norm_num [hleft]

/-- Far from the image words run over: the repeated strip loses its period, and the clamped one is
no longer constant after its last pixel. -/
theorem evaluate_semantics_overrun :
    (∀ border filter, (strip border filter).image.IsFull ∧
      ∀ p ∈ (strip border filter).image.pixels, p.IsReal) ∧
    (¬∀ u v : ℝ, (strip .tile .nearest).evaluate ⟨number (u + 1), number v⟩ =
      (strip .tile .nearest).evaluate ⟨number u, number v⟩) ∧
    ¬∀ u u' v : ℝ, 1 - 1 / (2 * 3) ≤ u → 1 - 1 / (2 * 3) ≤ u' →
      (strip .clamp .bilinear).evaluate ⟨number u, number v⟩ =
        (strip .clamp .bilinear).evaluate ⟨number u', number v⟩ := by
  refine ⟨fun _ _ => ⟨isFull_strip _ _, isReal_strip _ _⟩, ?_, ?_⟩
  · intro hperiod
    have hfar := Function.Periodic.nat_mul_eq (c := (1 : ℝ))
      (f := fun u => (strip .tile .nearest).evaluate ⟨number u, number (1 / 2)⟩)
      (fun u => hperiod u (1 / 2)) (2 ^ 62)
    have hfloor : ⌊((2 ^ 62 : ℕ) * 1 : ℝ) * 3⌋ = 2 ^ 62 * 3 := by norm_num
    have hgray : (strip .tile .nearest).fetch (nearestWord (2 ^ 62 * 3)) 0 =
      .ofReal ⟨0.5, 0.5, 0.5⟩ := rfl
    have hblack : (strip .tile .nearest).fetch (nearestWord 0) 0 = .ofReal ⟨0, 0, 0⟩ := rfl
    simp only [evaluate_strip, Filter.read_nearest, hfloor, hgray, zero_mul, Int.floor_zero, hblack,
      Vec3.ofReal_inj] at hfar
    norm_num at hfar
  · intro hconstant
    have hfar := hconstant (2 ^ 62) 1 (1 / 2) (by norm_num) (by norm_num)
    have hfloor : ⌊(2 ^ 62 * 3 - 1 / 2 : ℝ)⌋ = 2 ^ 62 * 3 - 1 := by
      rw [Int.floor_eq_iff]
      norm_num
    have hfloor' : ⌊(1 * 3 - 1 / 2 : ℝ)⌋ = 2 := by
      rw [Int.floor_eq_iff]
      norm_num
    have hlast : (strip .clamp .bilinear).fetch (nearestWord (2 ^ 62 * 3 - 1)) 0 =
      .ofReal ⟨1, 1, 1⟩ := rfl
    have hblack : (strip .clamp .bilinear).fetch (nearestWord (2 ^ 62 * 3 - 1) + 1) 0 =
      .ofReal ⟨0, 0, 0⟩ := rfl
    have hwhite : (strip .clamp .bilinear).fetch (nearestWord 2) 0 = .ofReal ⟨1, 1, 1⟩ := rfl
    have hwhite' : (strip .clamp .bilinear).fetch (nearestWord 2 + 1) 0 = .ofReal ⟨1, 1, 1⟩ := rfl
    simp only [evaluate_strip, Filter.read_bilinear, Int.fract, hfloor, hlast, hblack, hfloor',
      hwhite, hwhite', Vec3.mix, Vec3.ofReal, one_eq] at hfar
    norm_num at hfar

end ImageTexture

end Radiance
