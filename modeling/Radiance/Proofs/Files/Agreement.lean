import Radiance.Assets

/-!
# Paths with the same components

Files that have been read are found again by the components of their paths.  Not all paths with the
same components can be followed: one that ends in a slash does not lead to a file.  But all that can
be followed lead to the same place, so all meshes and images read from them are the same.

## Main definitions

* `Assets.Agree`: what is read from paths with the same components is the same.

## Main statements

* `FileTree.find_agree`: paths with the same components do not lead to different files.
* `FileTree.agree_assets`: the assets in a tree of files agree.
-/

namespace Radiance

/-- What is read from paths with the same components is the same. -/
structure Assets.Agree {α : Type} (assets : Assets α) : Prop where
  mesh : ∀ {p q : String} {m n : Mesh α}, PathName.components p = PathName.components q →
    assets.mesh p = .ok m → assets.mesh q = .ok n → m = n
  image : ∀ {p q : String} {i j : Image α}, PathName.components p = PathName.components q →
    assets.image p = .ok i → assets.image q = .ok j → i = j

namespace PathName

/-! ## Components -/

theorem not_mem_of_mem_splitOn {α : Type} [BEq α] [LawfulBEq α] {sep : α} {l piece : List α}
    (h : piece ∈ l.splitOn sep) : sep ∉ piece := by
  induction l generalizing piece with
  | nil => simp_all
  | cons x l ih =>
    rw [List.splitOn_cons_eq_if_modifyHead] at h
    obtain ⟨first, rest, hl⟩ := List.exists_cons_of_ne_nil (List.splitOn_ne_nil sep l)
    rw [hl] at h ih
    grind [List.modifyHead]

/-- The pieces of a path are the names between its slashes. -/
theorem ne_slash_of_mem_segments {path piece : String} (h : piece ∈ segments path) :
    piece ≠ "/" := by
  rintro rfl
  obtain ⟨chars, hmem, hchars⟩ := List.mem_map.1 h
  apply not_mem_of_mem_splitOn hmem
  rw [← String.toList_ofList (l := chars), hchars]
  decide

/-- The pieces of a path that lead somewhere. -/
def names (path : String) : List String := (segments path).filter fun s => s ≠ "" && s ≠ "."

theorem isAbsolute_iff (path : String) : isAbsolute path = true ↔ "/" ∈ components path := by
  have hnames : "/" ∉ names path := fun h =>
    ne_slash_of_mem_segments (List.mem_filter.1 h).1 rfl
  change _ ↔ "/" ∈ _ ++ names path
  split
  next habsolute => simpa
  next hrelative => split <;> simpa [hnames] using hrelative

/-- The marks of where a path starts apart, its components are the pieces that lead somewhere. -/
theorem filter_components (path : String) :
    (components path).filter (fun s => s ≠ "/" && s ≠ ".") = names path := by
  have hnames : (names path).filter (fun s => s ≠ "/" && s ≠ ".") = names path := by
    refine List.filter_eq_self.2 fun s hs => ?_
    have hslash := ne_slash_of_mem_segments (List.mem_filter.1 hs).1
    grind [names]
  change (_ ++ names path).filter _ = _
  rw [List.filter_append, hnames]
  split
  · simp
  · split <;> simp

end PathName

namespace FileTree

open PathName (components names)

/-! ## Places -/

theorem foldl_next_names (path : String) (place : List String) :
    (names path).foldl next place = (PathName.segments path).foldl next place := by
  rw [names, List.foldl_filter]
  congr
  funext place piece
  grind [next]

/-- Paths with the same components are to the same place. -/
theorem place_congr {p q : String} (h : components p = components q) : place p = place q := by
  have hroot : root p = root q := by
    have := PathName.isAbsolute_iff p
    have := PathName.isAbsolute_iff q
    grind [root]
  rw [place, place, ← foldl_next_names, ← foldl_next_names, ← PathName.filter_components,
    ← PathName.filter_components, h, hroot]

/-- A path that can be followed leads to its place, and a path that cannot leads to no file. -/
theorem follow_spec (t : FileTree) (start pieces : List String) :
    (∀ names, t.follow start pieces = .ok names → names = pieces.foldl next start) ∧
      ∀ content, t.follow start pieces ≠ .error (.file content) := by
  induction pieces generalizing start with
  | nil => simp [follow]
  | cons piece rest ih =>
    rw [follow]
    split
    · split
      · simp
      · exact ih (next start piece)
    · simp
    next _ hfile => exact ⟨nofun, fun content h => hfile content (Except.error.inj h)⟩

theorem entry_place_of_find {t : FileTree} {path : String} {content : FileContent}
    (h : t.find path = .file content) : t.entry (place path) = .file content := by
  unfold find locate at h
  obtain ⟨hok, herror⟩ := t.follow_spec (root path) (PathName.segments path)
  cases hfault : fault? path with
  | some e => grind [fault?]
  | none =>
    rw [hfault] at h
    cases hfollow : t.follow (root path) (PathName.segments path) with
    | ok names =>
      rw [hfollow] at h
      rw [place, ← hok names hfollow]
      exact h
    | error e =>
      rw [hfollow] at h
      exact absurd (hfollow.trans (congrArg _ h)) (herror content)

/-- Paths with the same components do not lead to different files. -/
theorem find_agree {t : FileTree} {p q : String} {c c' : FileContent}
    (h : components p = components q) (hp : t.find p = .file c) (hq : t.find q = .file c') :
    c = c' := by
  have hentry := entry_place_of_find hp
  rw [place_congr h, entry_place_of_find hq] at hentry
  cases hentry
  rfl

/-! ## Assets of files -/

theorem mesh_of_readMesh {t : FileTree} {path : String} {m : Mesh Float32}
    (h : t.readMesh path = .ok m) : ∃ text models, t.find path = .file (.text text) ∧
      Wavefront.models text = .ok models ∧ Mesh.ofModels path models = .ok m := by
  unfold readMesh readGeometry readText at h
  split at h
  next models hmodels =>
    split at hmodels
    next text htext =>
      split at htext
      next content hfind =>
        cases htext
        exact ⟨text, models, hfind, hmodels, h⟩
      all_goals cases htext
    all_goals cases hmodels
  all_goals cases h

/-- The path of a mesh is only in the errors. -/
theorem ofModels_agree {α : Type} [Scalar α] {p q : String} {models : List (ObjectModel α)}
    {m n : Mesh α} (hp : Mesh.ofModels p models = .ok m) (hq : Mesh.ofModels q models = .ok n) :
    m = n := by
  unfold Mesh.ofModels at hp hq
  grind

theorem image_of_readImage {t : FileTree} {path : String} {i : Image Float32}
    (h : t.readImage path = .ok i) : ∃ content, t.find path = .file content ∧
      match content with
      | .text _ => False
      | .display width height _ pixels => i = ⟨width, height, pixels.map fun (r, g, b) =>
          ⟨linearOfByte r, linearOfByte g, linearOfByte b⟩⟩
      | .linear width height pixels => i = ⟨width, height, pixels⟩ := by
  unfold readImage at h
  grind

/-- The assets in a tree of files agree. -/
theorem agree_assets (t : FileTree) : t.assets.Agree where
  mesh := by
    intro p q m n h hp hq
    obtain ⟨text, models, hfind, hmodels, hm⟩ := mesh_of_readMesh hp
    obtain ⟨text', models', hfind', hmodels', hn⟩ := mesh_of_readMesh hq
    cases find_agree h hfind hfind'
    cases hmodels.symm.trans hmodels'
    exact ofModels_agree hm hn
  image := by
    intro p q i j h hp hq
    obtain ⟨content, hfind, hi⟩ := image_of_readImage hp
    obtain ⟨content', hfind', hj⟩ := image_of_readImage hq
    cases find_agree h hfind hfind'
    cases content with
    | text content => exact hi.elim
    | display width height hasAlpha pixels => exact hi.trans hj.symm
    | linear width height pixels => exact hi.trans hj.symm

end FileTree

end Radiance
