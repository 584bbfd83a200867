import Radiance.Raster.FrameBuffer

/-!
# Writing to a frame buffer

A frame buffer has one place for each pixel of its image, so writing a pixel changes that pixel and
no other one, and buffers that agree on all pixels are equal.

## Main definitions

* `FrameBuffer.Has`: a pixel of the image.
* `FrameBuffer.IsFull`: there is a place for each pixel of the image.
* `FrameBuffer.Painted`: some pixels of a buffer got their colors and all others stayed.

## Main statements

* `FrameBuffer.writeBucket?_painted`: a bucket inside the image is written, and nothing else.
* `FrameBuffer.writeAll?_painted`: so are the buckets of a list, one after the other.
* `FrameBuffer.ext_get?`: buffers that agree on all pixels are equal.
* `FrameBuffer.Painted.eq_ofPixels`: an image of which all pixels are painted is determined.
-/

namespace Radiance.FrameBuffer

variable {α : Type} {f g k : FrameBuffer α} {p q : Pixel}

def Has (f : FrameBuffer α) (p : Pixel) : Prop := p.x < f.width ∧ p.y < f.height

/-- There is a place for each pixel of the image. -/
def IsFull (f : FrameBuffer α) : Prop := f.pixels.size = f.width.toNat * f.height.toNat

theorem isFull_black [Scalar α] (width height : UInt32) :
    (black width height : FrameBuffer α).IsFull := by
  simp [IsFull, black]

/-! ## Places -/

theorem offset_lt (hf : f.IsFull) (hp : f.Has p) : f.offset p < f.pixels.size := by
  have hx := UInt32.lt_iff_toNat_lt.1 hp.1
  have hy := UInt32.lt_iff_toNat_lt.1 hp.2
  have hrows : (p.y.toNat + 1) * f.width.toNat ≤ f.height.toNat * f.width.toNat :=
    Nat.mul_le_mul_right _ hy
  rw [Nat.succ_mul, Nat.mul_comm f.height.toNat] at hrows
  rw [hf, offset]
  omega

/-- Different pixels have different places. -/
theorem offset_injective (hp : f.Has p) (hq : f.Has q) (h : f.offset p = f.offset q) : p = q := by
  have hx := UInt32.lt_iff_toNat_lt.1 hp.1
  have hx' := UInt32.lt_iff_toNat_lt.1 hq.1
  have hpos : 0 < f.width.toNat := by omega
  simp only [offset] at h
  have hrow := congrArg (· / f.width.toNat) h
  have hcolumn := congrArg (· % f.width.toNat) h
  simp only [Nat.mul_comm _ f.width.toNat, Nat.mul_add_div hpos, Nat.div_eq_of_lt hx,
    Nat.div_eq_of_lt hx', Nat.add_zero] at hrow
  simp only [Nat.mul_comm _ f.width.toNat, Nat.mul_add_mod, Nat.mod_eq_of_lt hx,
    Nat.mod_eq_of_lt hx'] at hcolumn
  obtain ⟨px, py⟩ := p
  obtain ⟨qx, qy⟩ := q
  rw [Pixel.mk.injEq]
  exact ⟨UInt32.toNat_inj.1 hcolumn, UInt32.toNat_inj.1 hrow⟩

theorem exists_offset_eq (hf : f.IsFull) {i : Nat} (hi : i < f.pixels.size) :
    ∃ p, f.Has p ∧ f.offset p = i := by
  rw [hf] at hi
  have hpos : 0 < f.width.toNat := Nat.pos_of_mul_pos_right (Nat.lt_of_le_of_lt (Nat.zero_le _) hi)
  have hx : i % f.width.toNat < f.width.toNat := Nat.mod_lt _ hpos
  have hy : i / f.width.toNat < f.height.toNat := Nat.div_lt_of_lt_mul hi
  have hx' : (UInt32.ofNat (i % f.width.toNat)).toNat = i % f.width.toNat := by
    rw [UInt32.toNat_ofNat']
    exact Nat.mod_eq_of_lt (Nat.lt_trans hx f.width.toNat_lt)
  have hy' : (UInt32.ofNat (i / f.width.toNat)).toNat = i / f.width.toNat := by
    rw [UInt32.toNat_ofNat']
    exact Nat.mod_eq_of_lt (Nat.lt_trans hy f.height.toNat_lt)
  refine ⟨⟨UInt32.ofNat (i % f.width.toNat), UInt32.ofNat (i / f.width.toNat)⟩, ⟨?_, ?_⟩, ?_⟩
  · rwa [UInt32.lt_iff_toNat_lt, hx']
  · rwa [UInt32.lt_iff_toNat_lt, hy']
  · rw [offset, hx', hy', Nat.mul_comm, Nat.div_add_mod]

/-- Buffers that agree on all pixels are equal. -/
theorem ext_get? (hf : f.IsFull) (hg : g.IsFull) (hwidth : f.width = g.width)
    (hheight : f.height = g.height) (h : ∀ p, f.Has p → f.get? p = g.get? p) : f = g := by
  have hpixels : f.pixels = g.pixels := by
    refine Array.ext_getElem? fun i => ?_
    have hsize : f.pixels.size = g.pixels.size := by rw [hf, hg, hwidth, hheight]
    by_cases hi : i < f.pixels.size
    · obtain ⟨p, hp, rfl⟩ := exists_offset_eq hf hi
      have hoffset : f.offset p = g.offset p := by rw [offset, offset, hwidth]
      have hget := h p hp
      rwa [get?, get?, ← hoffset] at hget
    · rw [Array.getElem?_eq_none (by omega), Array.getElem?_eq_none (by omega)]
  obtain ⟨width, height, pixels⟩ := f
  obtain ⟨width', height', pixels'⟩ := g
  simp only at hwidth hheight hpixels
  rw [hwidth, hheight, hpixels]

/-- The image that shows given colors. -/
def ofPixels (width height : UInt32) (color : Pixel → Color α) : FrameBuffer α :=
  ⟨width, height, Array.ofFn fun k : Fin (width.toNat * height.toNat) =>
    color ⟨UInt32.ofNat (k % width.toNat), UInt32.ofNat (k / width.toNat)⟩⟩

theorem isFull_ofPixels (width height : UInt32) (color : Pixel → Color α) :
    (ofPixels width height color).IsFull := by
  simp [IsFull, ofPixels]

theorem get?_ofPixels {width height : UInt32} (color : Pixel → Color α) (hx : p.x < width)
    (hy : p.y < height) : (ofPixels width height color).get? p = some (color p) := by
  have hlt : (ofPixels width height color).offset p < width.toNat * height.toNat := by
    simpa [ofPixels] using offset_lt (isFull_ofPixels width height color) ⟨hx, hy⟩
  have hx' := UInt32.lt_iff_toNat_lt.1 hx
  simp only [offset, ofPixels] at hlt
  simp only [get?, offset, ofPixels, Array.getElem?_ofFn, hlt, dite_true]
  rw [Nat.mul_comm, Nat.mul_add_mod, Nat.mod_eq_of_lt hx', Nat.mul_add_div (by omega),
    Nat.div_eq_of_lt hx', Nat.add_zero, UInt32.ofNat_toNat, UInt32.ofNat_toNat]

/-! ## Writing -/

/-- Some pixels of a buffer got their colors and all others stayed as they were. -/
structure Painted (color : Pixel → Color α) (ps : List Pixel) (f g : FrameBuffer α) : Prop where
  width_eq : g.width = f.width
  height_eq : g.height = f.height
  size_eq : g.pixels.size = f.pixels.size
  get?_of_mem : ∀ p, f.Has p → p ∈ ps → g.get? p = some (color p)
  get?_of_not_mem : ∀ p, f.Has p → p ∉ ps → g.get? p = f.get? p

variable {color : Pixel → Color α} {ps qs : List Pixel}

namespace Painted

theorem has_iff (h : Painted color ps f g) : g.Has p ↔ f.Has p := by
  rw [Has, Has, h.width_eq, h.height_eq]

theorem isFull (h : Painted color ps f g) (hf : f.IsFull) : g.IsFull := by
  rw [IsFull, h.size_eq, h.width_eq, h.height_eq, hf]

theorem nil (color : Pixel → Color α) (f : FrameBuffer α) : Painted color [] f f :=
  ⟨rfl, rfl, rfl, fun _ _ hp => absurd hp List.not_mem_nil, fun _ _ _ => rfl⟩

/-- Painting some pixels and then others is painting all of them. -/
theorem append (h : Painted color ps f g) (h' : Painted color qs g k) :
    Painted color (ps ++ qs) f k where
  width_eq := h'.width_eq.trans h.width_eq
  height_eq := h'.height_eq.trans h.height_eq
  size_eq := h'.size_eq.trans h.size_eq
  get?_of_mem p hp hmem := by
    by_cases hq : p ∈ qs
    · exact h'.get?_of_mem p (h.has_iff.2 hp) hq
    · rw [h'.get?_of_not_mem p (h.has_iff.2 hp) hq]
      exact h.get?_of_mem p hp ((List.mem_append.1 hmem).resolve_right hq)
  get?_of_not_mem p hp hmem := by
    rw [List.mem_append, not_or] at hmem
    rw [h'.get?_of_not_mem p (h.has_iff.2 hp) hmem.2, h.get?_of_not_mem p hp hmem.1]

/-- An image of which all pixels are painted shows their colors. -/
theorem eq_ofPixels (hf : f.IsFull) (h : Painted color ps f g) (hps : ∀ p, f.Has p → p ∈ ps) :
    g = ofPixels f.width f.height color := by
  refine ext_get? (h.isFull hf) (isFull_ofPixels _ _ _) h.width_eq h.height_eq fun p hp => ?_
  have hp' := h.has_iff.1 hp
  rw [h.get?_of_mem p hp' (hps p hp'), get?_ofPixels color hp'.1 hp'.2]

end Painted

theorem set?_painted (color : Pixel → Color α) (hf : f.IsFull) (hp : f.Has p) :
    ∃ g, f.set? p (color p) = some g ∧ Painted color [p] f g := by
  have hlt := offset_lt hf hp
  refine ⟨{ f with pixels := f.pixels.setIfInBounds (f.offset p) (color p) },
    if_pos hlt, rfl, rfl, by simp, fun q hq hmem => ?_, fun q hq hmem => ?_⟩
  · obtain rfl := List.mem_singleton.1 hmem
    exact Array.getElem?_setIfInBounds_self_of_lt hlt
  · have hne : f.offset p ≠ f.offset q := fun h =>
      hmem (List.mem_singleton.2 (offset_injective hp hq h).symm)
    exact Array.getElem?_setIfInBounds_ne hne

theorem foldlM_set?_painted (color : Pixel → Color α) (hf : f.IsFull)
    (hps : ∀ p ∈ ps, f.Has p) :
    ∃ g, ps.foldlM (fun f p => f.set? p (color p)) f = some g ∧ Painted color ps f g := by
  induction ps generalizing f with
  | nil => exact ⟨f, rfl, .nil color f⟩
  | cons p ps ih =>
    obtain ⟨g, hset, hg⟩ := set?_painted color hf (hps p List.mem_cons_self)
    obtain ⟨k, hrest, hk⟩ := ih (hg.isFull hf) fun q hq =>
      hg.has_iff.2 (hps q (List.mem_cons_of_mem _ hq))
    refine ⟨k, ?_, hg.append hk⟩
    rw [List.foldlM_cons, hset]
    exact hrest

/-- A bucket inside the image is written, and nothing else. -/
theorem writeBucket?_painted (color : Pixel → Color α) {b : Bucket} (hf : f.IsFull)
    (hb : ∀ p ∈ b.pixels, f.Has p) :
    ∃ g, f.writeBucket? b (b.pixels.map color) = some g ∧ Painted color b.pixels f g := by
  obtain ⟨g, hfold, hg⟩ := foldlM_set?_painted color hf hb
  refine ⟨g, ?_, hg⟩
  rw [writeBucket?, Bucket.firstPixels_eq_take, List.length_map, List.take_length, ← hfold,
    ← List.map_prod_left_eq_zip, List.foldlM_map]

/-- The buffer with the results for some buckets written to it in order. -/
def writeAll? (f : FrameBuffer α) (results : List (Bucket × List (Color α))) :
    Option (FrameBuffer α) :=
  results.foldlM (fun f (b, colors) => f.writeBucket? b colors) f

/-- The buckets of a list are written, whatever their order. -/
theorem writeAll?_painted {results : List (Bucket × List (Color α))} (hf : f.IsFull)
    (hresults : ∀ r ∈ results, r.2 = r.1.pixels.map color ∧ ∀ p ∈ r.1.pixels, f.Has p) :
    ∃ g, f.writeAll? results = some g ∧
      Painted color (results.flatMap fun r => r.1.pixels) f g := by
  induction results generalizing f with
  | nil => exact ⟨f, rfl, .nil color f⟩
  | cons r results ih =>
    obtain ⟨b, colors⟩ := r
    obtain ⟨hcolors, hb⟩ := hresults _ List.mem_cons_self
    obtain ⟨g, hwrite, hg⟩ := writeBucket?_painted color hf hb
    obtain ⟨k, hrest, hk⟩ := ih (hg.isFull hf) fun r hr =>
      ⟨(hresults r (List.mem_cons_of_mem _ hr)).1, fun p hp =>
        hg.has_iff.2 ((hresults r (List.mem_cons_of_mem _ hr)).2 p hp)⟩
    refine ⟨k, ?_, hg.append hk⟩
    rw [writeAll?, List.foldlM_cons]
    simp only at hcolors hwrite
    simp only [hcolors, hwrite]
    exact hrest

end Radiance.FrameBuffer
