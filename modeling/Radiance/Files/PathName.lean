/-!
# Paths

Paths as text, with slashes between their names.

## Main definitions

* `PathName.join`: a path read from a directory.
* `PathName.parent?`, `PathName.fileName?`, `PathName.ending?`: the parts of a path.
* `PathName.components`: what paths to the same file have in common.
-/

namespace Radiance

namespace PathName

def isAbsolute (path : String) : Bool := path.toList.head? = some '/'

/-- A path read from a directory: an absolute path stands alone. -/
def join (base path : String) : String :=
  if isAbsolute path ∨ base = "" then path
  else if base.toList.getLast? = some '/' then base ++ path
  else base ++ "/" ++ path

/-- The pieces of a path between slashes. -/
def segments (path : String) : List String := (path.toList.splitOn '/').map String.ofList

/-- The names of a path: empty pieces and dots after the first piece are dropped.  Two paths with
the same components are the same path. -/
def components (path : String) : List String :=
  let start :=
    if isAbsolute path then ["/"]
    else if (segments path).head? = some "." then ["."]
    else []
  start ++ (segments path).filter fun s => s ≠ "" && s ≠ "."

/-- A path without slashes and dots at its end. -/
def trimEnd (reversed : List Char) : List Char :=
  match reversed with
  | '/' :: rest => trimEnd rest
  | '.' :: '/' :: rest => trimEnd ('/' :: rest)
  | rest => rest

/-- The path of the directory that holds a path; the root and the empty path have none. -/
def parent? (path : String) : Option String :=
  match trimEnd path.toList.reverse with
  | [] => none
  | reversed =>
    match trimEnd (reversed.dropWhile (· ≠ '/')) with
    | [] => some (if isAbsolute path then "/" else "")
    | rest => some (String.ofList rest.reverse)

/-- The last name of a path. -/
def fileName? (path : String) : Option String :=
  match (components path).getLast? with
  | none => none
  | some name => if name = ".." ∨ name = "/" ∨ name = "." then none else some name

/-- What follows the last dot of the last name, in lower case; a dot in front does not count. -/
def ending? (path : String) : Option String := do
  let name ← fileName? path
  let reversed := name.toList.reverse
  match reversed.dropWhile (· ≠ '.') with
  | [] => none
  | [_] => none
  | _ => some (String.ofList ((reversed.takeWhile (· ≠ '.')).reverse.map Char.toLower))

end PathName

end Radiance
