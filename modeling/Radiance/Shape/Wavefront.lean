import Radiance.Numeral
import Radiance.Shape.Mesh
import Std.Data.HashMap

/-!
# Wavefront geometry files

Reading of polygon files line by line.  Faces are kept as they are read and turned into triangles
when their object ends; each object numbers the vertices it uses anew.

## Main definitions

* `Wavefront.words`: the words of a line.
* `Wavefront.State.line`: the effect of a line.
* `Wavefront.models`: the objects of a file.
* `Mesh.ofModels`: all objects of a file as one mesh.
-/

namespace Radiance

/-- One object of a geometry file: the numbers of its vertices, three for each position and normal
and two for each pair of texture coordinates, and triangles as runs of three vertex numbers.
Texture coordinates and normals may be given for fewer vertices than there are. -/
structure ObjectModel (α : Type) where
  positions : Array α := #[]
  texcoords : Array α := #[]
  normals : Array α := #[]
  indices : Array UInt32 := #[]
  deriving Repr, DecidableEq, Inhabited

def ObjectModel.vertexCount {α : Type} (o : ObjectModel α) : Nat := o.positions.size / 3

/-- The vectors whose components stand one after the other in an array; what is left over at its end
makes no vector. -/
def Vec3.triples {α : Type} (xs : Array α) : Array (Vec3 α) :=
  Array.ofFn fun k : Fin (xs.size / 3) => ⟨xs[3 * k.val], xs[3 * k.val + 1], xs[3 * k.val + 2]⟩

/-- The pairs whose components stand one after the other in an array. -/
def Vec2.pairs {α : Type} (xs : Array α) : Array (Vec2 α) :=
  Array.ofFn fun k : Fin (xs.size / 2) => ⟨xs[2 * k.val], xs[2 * k.val + 1]⟩

namespace Mesh

/-- The parts of a mesh while objects are added to it.  Normals and texture coordinates are those of
the objects that give them for each of their vertices. -/
structure Parts (α : Type) where
  positions : Array (Vec3 α) := #[]
  normals : Array (Vec3 α) := #[]
  uvs : Array (Vec2 α) := #[]
  indices : Array Nat := #[]
  /-- Whether every object has given normals for each of its vertices. -/
  allNormals : Bool := true
  /-- Whether every object has given texture coordinates for each of its vertices. -/
  allUvs : Bool := true
  deriving Repr, DecidableEq, Inhabited

variable {α : Type}

/-- The vertices of an object are numbered on from those that are there, in words of 32 bits. -/
def Parts.add (m : Parts α) (o : ObjectModel α) : Parts α :=
  let offset := UInt32.ofNat m.positions.size
  let hasNormals : Bool := o.normals.size = 3 * o.vertexCount
  let hasUvs : Bool := o.texcoords.size = 2 * o.vertexCount
  { positions := m.positions ++ Vec3.triples o.positions
    normals := if hasNormals then m.normals ++ Vec3.triples o.normals else m.normals
    uvs := if hasUvs then m.uvs ++ Vec2.pairs o.texcoords else m.uvs
    indices := m.indices ++ o.indices.map fun i => (i + offset).toNat
    allNormals := m.allNormals && hasNormals
    allUvs := m.allUvs && hasUvs }

/-- All objects of a file as one mesh.  Normals and texture coordinates are kept only if every
object gives them for each of its vertices. -/
def ofModels [Scalar α] (path : String) (models : List (ObjectModel α)) :
    Except MeshError (Mesh α) :=
  let m := models.foldl Parts.add {}
  if m.indices.isEmpty then .error (.empty path)
  else
    ofParts m.positions m.indices (if m.allNormals then some m.normals else none)
      (if m.allUvs then some m.uvs else none)

end Mesh

namespace Wavefront

/-- What is wrong with a geometry file. -/
inductive Error
  | openFile
  | readLine
  | position
  | zeroScale
  | color
  | texcoord
  | normal
  | face
  | material
  | polygon
  | vertexBounds
  | texcoordBounds
  | normalBounds
  | colorBounds
  /-- The place of a normal leaves the range of a word, which ends the program. -/
  | overflow
  deriving Repr, DecidableEq, Inhabited

def Error.message : Error → String
  | openFile => "open file failed"
  | readLine => "read error"
  | position => "position parse error"
  | zeroScale => "scaling (w) by zero"
  | color => "color parse error (too many or too few components)"
  | texcoord => "texcoord parse error"
  | normal => "normal parse error"
  | face => "face parse error"
  | material => "material parse error"
  | polygon => "invalid polygon"
  | vertexBounds => "face vertex index out of bounds"
  | texcoordBounds => "face texcoord index out of bounds"
  | normalBounds => "face normal index out of bounds"
  | colorBounds => "face vertex color index out of bounds"
  | overflow => "face normal index overflow"

/-! ## Words -/

/-- Whether a character separates words. -/
def isBlank (c : Char) : Bool :=
  let n := c.toNat
  (9 ≤ n && n ≤ 13) || n = 0x20 || n = 0x85 || n = 0xA0 || n = 0x1680 ||
    (0x2000 ≤ n && n ≤ 0x200A) || n = 0x2028 || n = 0x2029 || n = 0x202F || n = 0x205F || n = 0x3000

/-- The words of a line, with the letters of the current word in reverse. -/
def wordsFrom (current : List Char) : List Char → List (List Char)
  | [] => if current.isEmpty then [] else [current.reverse]
  | c :: rest =>
    if isBlank c then
      if current.isEmpty then wordsFrom [] rest else current.reverse :: wordsFrom [] rest
    else wordsFrom (c :: current) rest

/-- The parts of a text between the places where a character stands. -/
def parts (separator : Char) (text : String) : List String :=
  (text.toList.splitOn separator).map String.ofList

/-- The words of a line. -/
def words (line : String) : List String := (wordsFrom [] line.toList).map String.ofList

/-- The numbers of the first words of a line, if there are as many as asked for. -/
def numbers? (count : Nat) (ws : List String) : Option (List Float32) :=
  if ws.length < count then none else (ws.take count).mapM Numeral.number?

/-! ## Faces -/

/-- What a corner of a face names, counted from zero: a vertex, texture coordinates and a normal.
Minus one stands for nothing. -/
structure Corner where
  vertex : Int := -1
  texcoord : Int := -1
  normal : Int := -1
  deriving Repr, DecidableEq, Hashable, Inhabited

/-- What has been read of a file. -/
structure State where
  positions : Array (Vec3 Float32) := #[]
  texcoords : Array (Vec2 Float32) := #[]
  normals : Array (Vec3 Float32) := #[]
  /-- How many color channels have been given, three for a vertex. -/
  channels : Nat := 0
  /-- The faces of the current object. -/
  faces : Array (List Corner) := #[]
  models : Array (ObjectModel Float32) := #[]
  deriving Inhabited

/-- A number of the file as a place counted from zero: negative numbers count back from the
`count` read so far. -/
def place (count : Nat) (n : Int) : Int := if n < 0 then count + n else n - 1

/-- Fills in one part of a corner. -/
def State.part (s : State) (c : Corner) (i : Nat) (text : String) : Option Corner :=
  if text = "" then some c
  else do
    let n ← Numeral.integer? text
    match i with
    | 0 => some { c with vertex := place s.positions.size n }
    | 1 => some { c with texcoord := place s.texcoords.size n }
    | 2 => some { c with normal := place s.normals.size n }
    | _ => none

/-- A corner: up to three numbers between slashes, any of which may be left out. -/
def State.corner? (s : State) (word : String) : Option Corner :=
  (parts '/' word).zipIdx.foldlM (fun c (text, i) => s.part c i text) {}

/-- The triangles of a face: a single corner and a pair are filled up with their last corner, and
larger faces become fans around the first. -/
def triangles : List Corner → Option (List (Corner × Corner × Corner))
  | [] => none
  | [a] => some [(a, a, a)]
  | [a, b] => some [(a, b, b)]
  | a :: b :: rest => some (((b :: rest).zip rest).map fun (b, c) => (a, b, c))

/-- The object under construction, with the number of each corner already used. -/
structure Builder where
  model : ObjectModel Float32 := {}
  seen : Std.HashMap Corner Nat := {}

/-- An element by its place, if it is in range. -/
def at? {β : Type} (xs : Array β) (i : Int) : Option β := if i < 0 then none else xs[i.toNat]?

/-- A channel of the normals, counted through all of them. -/
def channel? (normals : Array (Vec3 Float32)) (i : UInt64) : Option Float32 :=
  normals[(i / 3).toNat]?.map fun n => if i % 3 = 0 then n.x else if i % 3 = 1 then n.y else n.z

/-- A normal by its place, which is counted in channels and in words: a place beyond a third of the
words starts again at the first channels. -/
def normalAt (normals : Array (Vec3 Float32)) (place : Int) : Except Error (Vec3 Float32) :=
  let first := 3 * UInt64.ofInt place
  if 3 * normals.size ≤ (first + 2).toNat then .error .normalBounds
  else
    match channel? normals first, channel? normals (first + 1), channel? normals (first + 2) with
    | some x, some y, some z => .ok ⟨x, y, z⟩
    | _, _, _ => .error .overflow

/-- Adds a corner to the object: a known corner by its number, a new one with its vertex. -/
def State.addCorner (s : State) (b : Builder) (c : Corner) : Except Error Builder := do
  match b.seen[c]? with
  | some n =>
    return { b with model := { b.model with indices := b.model.indices.push (.ofNat n) } }
  | none =>
    let some p := at? s.positions c.vertex | throw .vertexBounds
    let texcoords ←
      if s.texcoords.isEmpty ∨ c.texcoord = -1 then pure b.model.texcoords
      else
        match at? s.texcoords c.texcoord with
        | some t => pure (b.model.texcoords ++ #[t.x, t.y])
        | none => throw .texcoordBounds
    let normals ←
      if s.normals.isEmpty ∨ c.normal = -1 then pure b.model.normals
      else do
        let n ← normalAt s.normals c.normal
        pure (b.model.normals ++ #[n.x, n.y, n.z])
    if s.channels ≠ 0 ∧ (s.channels : Int) ≤ 3 * c.vertex + 2 then throw .colorBounds
    let n := b.seen.size
    return {
      model :=
        { positions := b.model.positions ++ #[p.x, p.y, p.z]
          texcoords
          normals
          indices := b.model.indices.push (.ofNat n) }
      seen := b.seen.insert c n }

/-- Adds a face to the object. -/
def State.addFace (s : State) (b : Builder) (face : List Corner) : Except Error Builder := do
  let some ts := triangles face | throw .polygon
  ts.foldlM (fun b (p, q, r) => do s.addCorner (← s.addCorner (← s.addCorner b p) q) r) b

/-- Ends the current object, if it has faces. -/
def State.close (s : State) : Except Error State := do
  if s.faces.isEmpty then return s
  else
    let b ← s.faces.foldlM s.addFace {}
    return { s with models := s.models.push b.model, faces := #[] }

/-! ## Lines -/

/-- How many words from the first on are numbers. -/
def leadingNumbers (ws : List String) : Nat :=
  (ws.takeWhile fun word => (Numeral.number? word).isSome).length

/-- The effect of a vertex line: three coordinates, then nothing, a divisor or the three channels of
a color.  A color ends at the first word that is not a number. -/
def State.vertex (s : State) (ws : List String) : Except Error State := do
  match numbers? 3 ws, ws.drop 3 with
  | some [x, y, z], [] => return { s with positions := s.positions.push ⟨x, y, z⟩ }
  | some [x, y, z], [word] =>
    let some w := Numeral.number? word | throw .position
    if w == 0 then throw .zeroScale
    else return { s with positions := s.positions.push ⟨x / w, y / w, z / w⟩ }
  | some [x, y, z], rest =>
    if rest.length = 3 then
      return { s with
        positions := s.positions.push ⟨x, y, z⟩
        channels := s.channels + leadingNumbers rest }
    else throw .color
  | _, _ => throw .position

/-- Keeps a face for the end of its object. -/
def State.face (s : State) (ws : List String) : Except Error State :=
  match ws.mapM s.corner? with
  | some corners => .ok { s with faces := s.faces.push corners }
  | none => .error .face

/-- Whether a line says more after its first space. -/
def saysMore (line : String) : Bool := (line.toList.dropWhile (· ≠ ' ')).any fun c => !isBlank c

/-- The effect of a line, which its first word decides; unknown lines have none. -/
def State.line (s : State) (line : String) : Except Error State :=
  match words line with
  | "v" :: ws => s.vertex ws
  | "vt" :: ws =>
    match numbers? 2 ws with
    | some [u, v] => .ok { s with texcoords := s.texcoords.push ⟨u, v⟩ }
    | _ => .error .texcoord
  | "vn" :: ws =>
    match numbers? 3 ws with
    | some [x, y, z] => .ok { s with normals := s.normals.push ⟨x, y, z⟩ }
    | _ => .error .normal
  | "f" :: ws => s.face ws
  | "l" :: ws => s.face ws
  | "o" :: _ => s.close
  | "g" :: _ => s.close
  | "usemtl" :: _ => if saysMore line then .ok s else .error .material
  | _ => .ok s

/-- The objects of a file. -/
def models (text : String) : Except Error (List (ObjectModel Float32)) := do
  let s ← (parts '\n' text).foldlM State.line {}
  return (← s.close).models.toList

end Wavefront

end Radiance
