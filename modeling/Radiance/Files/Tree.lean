import Radiance.Files.PathName
import Radiance.Vector

/-!
# Trees of files

Files as a value.  Image files are given by their pixels: how a format stores them is not modelled.

## Main definitions

* `FileTree`: files and directories by their names.
* `FileTree.find`: what stands at a path.
* `FileTree.makeDirectory`, `FileTree.write?`: the tree after a directory or a file is made.
-/

namespace Radiance

/-- What a file holds. -/
inductive FileContent
  | text (content : String)
  /-- Pixels encoded for display, a byte for each of red, green and blue, and one of full opacity if
  the file has an alpha channel. -/
  | display (width height : UInt32) (hasAlpha : Bool) (pixels : Array (UInt8 × UInt8 × UInt8))
  /-- Linear pixels. -/
  | linear (width height : UInt32) (pixels : Array (Color Float32))
  deriving Inhabited

/-- What stands at a path. -/
inductive FileEntry
  | file (content : FileContent)
  | directory
  | missing
  /-- The path goes through a file. -/
  | blocked
  /-- The path, or a name in it, has too many bytes. -/
  | tooLong
  /-- The path holds the character of code zero, which ends a path for the system. -/
  | cutShort
  deriving Inhabited

/-- Files and directories by their names.  The names of an absolute path start with a slash, those
of other paths at the working directory. -/
structure FileTree where
  files : List (List String × FileContent) := []
  directories : List (List String) := []
  deriving Inhabited

namespace FileTree

/-- The place where a path starts. -/
def root (path : String) : List String := if PathName.isAbsolute path then ["/"] else []

/-- The place that a piece of a path leads to: two dots lead to the directory above. -/
def next (names : List String) (piece : String) : List String :=
  if piece = "" ∨ piece = "." then names
  else if piece = ".." then
    if names = ["/"] then names
    else if names.all (· = "..") then names ++ [".."]
    else names.dropLast
  else names ++ [piece]

/-- The place of a path, whatever stands there. -/
def place (path : String) : List String := (PathName.segments path).foldl next (root path)

/-- What stands at a place. -/
def entry (t : FileTree) (names : List String) : FileEntry :=
  match t.files.find? (·.1 = names) with
  | some (_, content) => .file content
  | none =>
    if names = ["/"] ∨ names.all (· = "..") ∨ t.directories.any (fun d => names.isPrefixOf d) ∨
        t.files.any (fun f => names.isPrefixOf f.1) then .directory
    else .missing

/-- The most bytes in a name. -/
def maxName : Nat := 255

/-- The most bytes in a path. -/
def maxPath : Nat := 4095

/-- Follows the pieces of a path from a place; all but the last have to lead to directories. -/
def follow (t : FileTree) : List String → List String → Except FileEntry (List String)
  | names, [] => .ok names
  | names, piece :: rest =>
    match t.entry names with
    | .directory =>
      if maxName < piece.utf8ByteSize then .error .tooLong else t.follow (next names piece) rest
    | .file _ => .error .blocked
    | e => .error e

/-- What makes a path unfit to name anything. -/
def fault? (path : String) : Option FileEntry :=
  if path.toList.contains '\x00' then some .cutShort
  else if maxPath < path.utf8ByteSize then some .tooLong
  else none

/-- The place that a path leads to. -/
def locate (t : FileTree) (path : String) : Except FileEntry (List String) :=
  match fault? path with
  | some e => .error e
  | none => t.follow (root path) (PathName.segments path)

/-- What stands at a path. -/
def find (t : FileTree) (path : String) : FileEntry :=
  match t.locate path with
  | .ok names => t.entry names
  | .error e => e

/-- The tree with a directory at a place, unless a file stands there. -/
def ensure? (t : FileTree) (names : List String) : Option FileTree :=
  match t.entry names with
  | .directory => some t
  | .missing => some { t with directories := names :: t.directories }
  | _ => none

/-- The tree with a directory and those on the way to it, as far as they can be made, and whether
all could. -/
def makeDirectory (t : FileTree) (path : String) : FileTree × Bool :=
  if (fault? path).isSome then (t, false) else go t (root path) (PathName.segments path)
where
  go (t : FileTree) (names : List String) (pieces : List String) : FileTree × Bool :=
    match t.ensure? names, pieces with
    | none, _ => (t, false)
    | some t, [] => (t, true)
    | some t, piece :: rest =>
      if maxName < piece.utf8ByteSize then (t, false) else go t (next names piece) rest

/-- The tree with a file put at a path, whose directory has to be there. -/
def write? (t : FileTree) (path : String) (content : FileContent) : Option FileTree :=
  match t.locate path with
  | .error _ => none
  | .ok names =>
    match t.entry names with
    | .directory => none
    | _ => some { t with files := (names, content) :: t.files.filter (·.1 ≠ names) }

/-- Why a text cannot be read. -/
inductive ReadFailure
  | missing
  | directory
  | blocked
  | tooLong
  | cutShort
  | notText
  deriving Repr, DecidableEq, Inhabited

/-- The text of a file. -/
def readText (t : FileTree) (path : String) : Except ReadFailure String :=
  match t.find path with
  | .file (.text content) => .ok content
  | .file _ => .error .notText
  | .directory => .error .directory
  | .missing => .error .missing
  | .blocked => .error .blocked
  | .tooLong => .error .tooLong
  | .cutShort => .error .cutShort

end FileTree

/-- The system's words for a failure to read. -/
def FileTree.ReadFailure.message : FileTree.ReadFailure → String
  | missing => "No such file or directory (os error 2)"
  | directory => "Is a directory (os error 21)"
  | blocked => "Not a directory (os error 20)"
  | tooLong => "File name too long (os error 36)"
  | cutShort => "file name contained an unexpected NUL byte"
  | notText => "stream did not contain valid UTF-8"

end Radiance
