import Radiance.Description.Decode
import Radiance.Description.Encode
import Radiance.Proofs.Json.Reading

/-!
# Recovery of encoded values

A decoder recovers what a value was made from if it gives it back from the whole value, and gives
nothing at all as soon as some part of the value has become unreadable.  Recovery passes from the
parts to lists, optional values, variants and tables.

## Main definitions

* `Decode.Recovers`: a decoder recovers what a value was made from.

## Main statements

* `Decode.Recovers.list`, `Decode.Recovers.optional`, `Decode.Recovers.table`: recovery of
  compound values.
* `Decode.Recovers.of_isReadable`: recovery by a decoder that wants the whole value readable.
* `Decode.tagged_cons`: the variant of a value whose tag comes first.
-/

namespace Radiance.Decode

variable {β : Type} {limit : Nat} {v : Json} {x : β} {decode : Json → Option β}

/-- A decoder gives back what a value was made from, at least if the value is no deeper than a
limit, and gives nothing if the value is clipped where it loses something. -/
structure Recovers (limit : Nat) (decode : Json → Option β) (v : Json) (x : β) : Prop where
  fits : v.Fits
  eq_some : v.depth ≤ limit → decode v = some x
  depth_le : ∀ {n y}, decode (v.clip n) = some y → v.depth ≤ n

namespace Recovers

/-- A value that is recovered at every limit is recovered. -/
theorem eq (h : ∀ limit, Recovers limit decode v x) : decode v = some x :=
  (h v.depth).eq_some (Nat.le_refl _)

/-- A value without parts has nothing to lose. -/
theorem leaf (hfits : v.Fits) (hdepth : v.depth = 0) (h : decode v = some x) :
    Recovers limit decode v x :=
  ⟨hfits, fun _ => h, fun _ => hdepth ▸ Nat.zero_le _⟩

/-- A value of one level is lost as a whole. -/
theorem flat (hfits : v.Fits) (hdepth : v.depth = 1) (h : decode v = some x)
    (hnone : decode .unreadable = none) : Recovers limit decode v x := by
  refine ⟨hfits, fun _ => h, fun {n y} hy => ?_⟩
  have hn : n ≠ 0 := by
    rintro rfl
    rw [Json.clip_zero (by omega), hnone] at hy
    cases hy
  omega

/-- A record is recovered if its fields are, and every loss in a field is noticed. -/
theorem record {fields : List (String × Json)} (hfits : Json.FieldsFit fields)
    (h : Json.fieldsDepth fields < limit → decode (.obj fields) = some x)
    (hnone : decode .unreadable = none)
    (hdepth : ∀ {n y}, decode (.obj (Json.clipFields n fields)) = some y →
      Json.fieldsDepth fields ≤ n) : Recovers limit decode (.obj fields) x := by
  refine ⟨hfits, fun hle => h hle, fun {n y} hy => ?_⟩
  rw [Json.clip] at hy
  split at hy
  · rw [hnone] at hy
    cases hy
  next hn =>
    have hle := hdepth hy
    rw [Json.depth]
    omega

/-- A value in a single field is recovered with the field around it. -/
theorem single {γ : Type} {outer : Json → Option γ} {f : β → γ} {name : String}
    (h : Recovers limit decode v x) (hnone : outer .unreadable = none)
    (houter : ∀ w, outer (.obj [(name, w)]) = (decode w).map f) :
    Recovers limit outer (.obj [(name, v)]) (f x) := by
  have hdepth : Json.fieldsDepth [(name, v)] = v.depth := by simp [Json.fieldsDepth]
  refine .record ⟨h.fits, trivial⟩ (fun hlt => ?_) hnone fun {n y} hy => ?_
  · rw [houter, h.eq_some (by omega), Option.map_some]
  · rw [Json.clipFields, Json.clipFields, houter] at hy
    obtain ⟨z, hz, -⟩ := Option.map_eq_some_iff.1 hy
    exact hdepth ▸ h.depth_le hz

/-- What is computed from a recovered value is recovered. -/
theorem bind {γ : Type} {f : β → Option γ} {y : γ} (h : Recovers limit decode v x)
    (hf : f x = some y) : Recovers limit (fun v => decode v >>= f) v y := by
  refine ⟨h.fits, fun hle => ?_, fun {n z} hz => ?_⟩
  · rw [h.eq_some hle]
    exact hf
  · obtain ⟨w, hw, -⟩ := Option.bind_eq_some_iff.1 hz
    exact h.depth_le hw

/-- A decoder that wants the whole value readable notices every loss. -/
theorem of_isReadable (hfits : v.Fits) (h : v.depth ≤ limit → decode v = some x)
    (hreadable : ∀ {w y}, decode w = some y → w.isReadable = true) : Recovers limit decode v x :=
  ⟨hfits, h, fun hy => (Json.isReadable_clip_iff hfits).1 (hreadable hy)⟩

end Recovers

/-! ## Lists -/

theorem mapM_map_eq_some {γ : Type} {encode : γ → Json} {decode : Json → Option γ} {xs : List γ}
    (h : ∀ x ∈ xs, decode (encode x) = some x) : (xs.map encode).mapM decode = some xs := by
  induction xs with
  | nil => rfl
  | cons x xs ih =>
    have hrest := ih fun y hy => h y (List.mem_cons_of_mem x hy)
    simp [h x List.mem_cons_self, hrest]

theorem exists_eq_some_of_mapM {items : List Json} {xs : List β} (h : items.mapM decode = some xs) :
    ∀ v ∈ items, ∃ x, decode v = some x := by
  induction items generalizing xs with
  | nil => exact nofun
  | cons v items ih =>
    rw [List.mapM_cons] at h
    obtain ⟨x, hx, hrest⟩ := Option.bind_eq_some_iff.1 h
    obtain ⟨ys, hys, -⟩ := Option.bind_eq_some_iff.1 hrest
    exact List.forall_mem_cons.2 ⟨⟨x, hx⟩, ih hys⟩

/-- A list is recovered from an array if each element is. -/
theorem Recovers.list {encode : β → Json} {xs : List β}
    (h : ∀ x ∈ xs, Recovers limit decode (encode x) x) :
    Recovers limit (Decode.list decode) (.list encode xs) xs where
  fits := by
    rw [Json.list, Json.Fits, Json.itemsFit_iff, List.forall_mem_map]
    exact fun x hx => (h x hx).fits
  eq_some hdepth := by
    rw [Json.list, Json.depth] at hdepth
    have hitems : Json.itemsDepth (xs.map encode) ≤ limit := by omega
    rw [Json.itemsDepth_le_iff, List.forall_mem_map] at hitems
    exact mapM_map_eq_some fun x hx => (h x hx).eq_some (hitems x hx)
  depth_le {n ys} hys := by
    rw [Json.list, Json.clip] at hys
    split at hys
    · cases hys
    next hn =>
      rw [Json.clipItems_eq, List.map_map] at hys
      have hall := exists_eq_some_of_mapM hys
      rw [List.forall_mem_map] at hall
      have hdepth : Json.itemsDepth (xs.map encode) ≤ n - 1 := by
        rw [Json.itemsDepth_le_iff, List.forall_mem_map]
        intro x hx
        obtain ⟨y, hy⟩ := hall x hx
        exact (h x hx).depth_le hy
      rw [Json.list, Json.depth]
      omega

/-! ## Fields -/

-- Proved by rewriting, so that a use of them does not have to unfold the decoder.
theorem required_some (v : Json) : required decode (some v) = decode v := by
  rw [required]

theorem withDefault_some (default : β) (v : Json) :
    withDefault decode default (some v) = decode v := by
  rw [withDefault]

/-! ## Optional values -/

theorem optional_of_ne_null {v : Json} (hv : v ≠ .null) :
    optional decode (some v) = (decode v).map some := by
  cases v with
  | null => exact absurd rfl hv
  | _ => rfl

/-- An optional value is recovered if the value is, and `null` does not decode to one. -/
theorem Recovers.optional {encode : β → Json} {value? : Option β} (hnull : decode .null = none)
    (h : ∀ x ∈ value?, Recovers limit decode (encode x) x) :
    Recovers limit (fun v => Decode.optional decode (some v)) (.opt encode value?) value? := by
  cases value? with
  | none => exact leaf trivial rfl rfl
  | some x =>
    have hx := h x rfl
    change Recovers limit _ (encode x) (some x)
    refine ⟨hx.fits, fun hdepth => ?_, fun {n y} hy => ?_⟩
    · have hsome := hx.eq_some hdepth
      have hne : encode x ≠ .null := by
        intro heq
        rw [heq, hnull] at hsome
        cases hsome
      exact (optional_of_ne_null hne).trans (by rw [hsome, Option.map_some])
    · by_cases hnone : (encode x).clip n = .null
      · rw [Json.eq_null_of_clip hnone]
        exact Nat.zero_le n
      · have hmap := (optional_of_ne_null hnone).symm.trans hy
        obtain ⟨z, hz, -⟩ := Option.map_eq_some_iff.1 hmap
        exact hx.depth_le hz

/-! ## Variants -/

theorem isReadable_of_tagged {nested : Bool} {names : List String} {r : String × Json}
    (h : tagged nested names v = some r) : v.isReadable = true := by
  unfold tagged at h
  split at h
  next hv => exact hv
  next hv => exact hv
  next => cases h

/-- A decoder that starts with the variant of a value wants the whole value readable. -/
theorem isReadable_of_tagged_bind {nested : Bool} {names : List String}
    {f : String × Json → Option β} (h : tagged nested names v >>= f = some x) :
    v.isReadable = true :=
  have ⟨_, htagged, _⟩ := Option.bind_eq_some_iff.1 h
  isReadable_of_tagged htagged

/-- The variant of a value whose tag comes first, and what is left of it. -/
theorem tagged_cons {nested : Bool} {names : List String} {tag : String}
    {fields : List (String × Json)} (hfits : (Json.obj (("type", .str tag) :: fields)).Fits)
    (htag : tag ∈ names) (hfields : "type" ∉ fields.map (·.1)) :
    tagged nested names (.obj (("type", .str tag) :: fields)) = some (tag, .obj fields) := by
  have hother : ∀ field ∈ fields, field.1 ≠ "type" := fun field hmem heq =>
    hfields (heq ▸ List.mem_map_of_mem hmem)
  have hnone : fields.filter (·.1 = "type") = [] := by simpa using hother
  have hall : fields.filter (·.1 ≠ "type") = fields := by simpa using hother
  simp only [tagged, hfits.isReadable, List.filter_cons, hnone, hall]
  simp [variant, htag]

/-- A variant is recovered if its fields are. -/
theorem Recovers.tagged {nested : Bool} {names : List String} {tag : String}
    {fields : List (String × Json)} {f : String × Json → Option β}
    (hfits : Json.FieldsFit fields) (htag : tag ∈ names) (hfields : "type" ∉ fields.map (·.1))
    (h : Json.fieldsDepth fields < limit → f (tag, .obj fields) = some x) :
    Recovers limit (fun v => Decode.tagged nested names v >>= f)
      (.obj (("type", .str tag) :: fields)) x := by
  have hfits' : (Json.obj (("type", .str tag) :: fields)).Fits := ⟨trivial, hfits⟩
  refine .of_isReadable hfits' (fun hdepth => ?_) isReadable_of_tagged_bind
  rw [tagged_cons hfits' htag hfields]
  simp only [Json.depth, Json.fieldsDepth, Nat.zero_max] at hdepth
  exact h hdepth

/-! ## Tables -/

/-- A key beyond all others goes to the end. -/
theorem insert_of_forall_lt {key : String} {entries : List (String × β)}
    (h : ∀ entry ∈ entries, entry.1 < key) : insert key x entries = entries ++ [(key, x)] := by
  induction entries with
  | nil => rfl
  | cons entry entries ih =>
    have hlt := h entry List.mem_cons_self
    have hne : key ≠ entry.1 := fun heq => String.lt_irrefl _ (heq ▸ hlt)
    rw [insert, if_neg (String.lt_asymm hlt), if_neg hne,
      ih fun e he => h e (List.mem_cons_of_mem entry he)]
    rfl

/-- What was put into a table in the order of its keys is recovered entry by entry. -/
theorem foldlM_insert {encode : β → Json} {entries done : List (String × β)}
    (hsorted : (done ++ entries).Pairwise fun a b => a.1 < b.1)
    (h : ∀ entry ∈ entries, decode (encode entry.2) = some entry.2) :
    (entries.map fun entry => (entry.1, encode entry.2)).foldlM
        (fun entries (key, v) => (decode v).map fun value => insert key value entries) done =
      some (done ++ entries) := by
  induction entries generalizing done with
  | nil => simp
  | cons entry entries ih =>
    have hlast : ∀ e ∈ done, e.1 < entry.1 := fun e he =>
      (List.pairwise_append.1 hsorted).2.2 e he entry List.mem_cons_self
    rw [List.append_cons] at hsorted
    have hrest := ih hsorted fun e he => h e (List.mem_cons_of_mem entry he)
    simpa [h entry List.mem_cons_self, insert_of_forall_lt hlast] using hrest

theorem exists_eq_some_of_foldlM {fields : List (String × Json)}
    {done entries : List (String × β)}
    (h : fields.foldlM (fun entries (key, v) =>
      (decode v).map fun value => insert key value entries) done = some entries) :
    ∀ field ∈ fields, ∃ x, decode field.2 = some x := by
  induction fields generalizing done with
  | nil => exact nofun
  | cons field fields ih =>
    rw [List.foldlM_cons] at h
    obtain ⟨next, hnext, hrest⟩ := Option.bind_eq_some_iff.1 h
    obtain ⟨x, hx, -⟩ := Option.map_eq_some_iff.1 hnext
    exact List.forall_mem_cons.2 ⟨⟨x, hx⟩, ih hrest⟩

/-- A table in the order of its keys is recovered from an object if each entry is. -/
theorem Recovers.table {encode : β → Json} {entries : List (String × β)}
    (hsorted : entries.Pairwise fun a b => a.1 < b.1)
    (h : ∀ entry ∈ entries, Recovers limit decode (encode entry.2) entry.2) :
    Recovers limit (Decode.table decode)
      (.obj (entries.map fun entry => (entry.1, encode entry.2))) entries where
  fits := by
    rw [Json.Fits, Json.fieldsFit_iff, List.forall_mem_map]
    exact fun entry hentry => (h entry hentry).fits
  eq_some hdepth := by
    rw [Json.depth] at hdepth
    have hfields :
        Json.fieldsDepth (entries.map fun entry => (entry.1, encode entry.2)) ≤ limit := by
      omega
    rw [Json.fieldsDepth_le_iff, List.forall_mem_map] at hfields
    exact foldlM_insert hsorted fun entry hentry =>
      (h entry hentry).eq_some (hfields entry hentry)
  depth_le {n ys} hys := by
    rw [Json.clip] at hys
    split at hys
    · cases hys
    next hn =>
      rw [Json.clipFields_eq, List.map_map] at hys
      have hall := exists_eq_some_of_foldlM hys
      rw [List.forall_mem_map] at hall
      have hdepth :
          Json.fieldsDepth (entries.map fun entry => (entry.1, encode entry.2)) ≤ n - 1 := by
        rw [Json.fieldsDepth_le_iff, List.forall_mem_map]
        intro entry hentry
        obtain ⟨y, hy⟩ := hall entry hentry
        exact (h entry hentry).depth_le hy
      rw [Json.depth]
      omega

end Radiance.Decode
