import Radiance.Files.Picture
import Radiance.Shape.Wavefront

/-!
# Assets

The files a scene refers to, and the images that several textures share.

## Main definitions

* `Assets`: texts, meshes and images by their paths; `FileTree.assets` takes them from files.
* `ImageCache`: images that have been read, so that each is read once.
-/

namespace Radiance

/-- Where texts, meshes and images come from. -/
structure Assets (α : Type) where
  /-- The text at a path, or why it cannot be read. -/
  text : String → Except String String
  mesh : String → Except MeshError (Mesh α)
  image : String → Except TextureError (Image α)

/-- The text of a file. -/
def FileTree.readScene (t : FileTree) (path : String) : Except String String :=
  match t.readText path with
  | .ok content => .ok content
  | .error failure => .error failure.message

/-- The text of a geometry file, or what is wrong with the file. -/
def FileTree.readGeometry (t : FileTree) (path : String) : Except Wavefront.Error String :=
  match t.readText path with
  | .ok content => .ok content
  | .error .directory => .error .readLine
  | .error .notText => .error .readLine
  | .error _ => .error .openFile

/-- The mesh of a geometry file. -/
def FileTree.readMesh (t : FileTree) (path : String) : Except MeshError (Mesh Float32) :=
  match t.readGeometry path >>= Wavefront.models with
  | .ok models => Mesh.ofModels path models
  | .error .overflow => .error (.overflow path)
  | .error e => .error (.unreadable path e.message)

/-- The assets in a tree of files. -/
def FileTree.assets (t : FileTree) : Assets Float32 := ⟨t.readScene, t.readMesh, t.readImage⟩

/-! ## Shared images -/

/-- Images that have been read, by the components of their paths. -/
structure ImageCache (α : Type) where
  /-- The directory that relative paths are read from. -/
  base : Option String := none
  images : List (List String × Image α) := []
  deriving Repr, DecidableEq, Inhabited

namespace ImageCache

variable {α : Type}

def size (c : ImageCache α) : Nat := c.images.length

def isEmpty (c : ImageCache α) : Bool := c.images.isEmpty

/-- The path that is read for a name. -/
def resolve (c : ImageCache α) (name : String) : String :=
  match c.base with
  | none => name
  | some base => PathName.join base name

/-- What names one and the same image have in common. -/
def key (c : ImageCache α) (name : String) : List String := PathName.components (c.resolve name)

/-- The image of a name, if it has been read. -/
def find? (c : ImageCache α) (name : String) : Option (Image α) := c.images.lookup (c.key name)

/-- How many images had been read before that of a name. -/
def place? (c : ImageCache α) (name : String) : Option Nat :=
  c.images.findIdx? (·.1 = c.key name)

/-- Keeps the image of a name. -/
def insert (c : ImageCache α) (name : String) (image : Image α) : ImageCache α :=
  { c with images := c.images ++ [(c.key name, image)] }

/-- The image of a name, read only if it has not been read before. -/
def load (c : ImageCache α) (read : String → Except TextureError (Image α)) (name : String) :
    Except TextureError (Image α × ImageCache α) :=
  match c.find? name with
  | some image => .ok (image, c)
  | none =>
    match read (c.resolve name) with
    | .ok image => .ok (image, c.insert name image)
    | .error e => .error e

end ImageCache

end Radiance
