import Transclusion.Text.Fields

/-!
# File paths

Paths as texts. Nothing is normalized: a path is kept as it was put together, and what it denotes
is up to the files (`FileTree`).

* `join` — a path continued by another;
* `components` — the steps a path consists of;
* `relativeTo?` — a path seen from a directory above it;
* `ancestors` — a path and the directories above it.
-/

namespace Transclusion.FilePath

/-- The text of a path between its slashes. -/
def parts (path : String) : List String :=
  (Text.fields '/' path.toList).map String.ofList

/-- Whether a path starts at the root. -/
def isAbsolute (path : String) : Bool :=
  path.toList.head? = some '/'

/-- A path continued by another. A slash is put between them unless there is one or the left side
is empty; an absolute right side stands alone. -/
def join (left right : String) : String :=
  if isAbsolute right then right
  else if left = "" || left.toList.getLast? = some '/' then left ++ right
  else left ++ "/" ++ right

/-- Parts that stay in a directory. -/
def isIdle (part : String) : Bool :=
  part = "" || part = "."

/-- The parts of a relative path that are components: empty ones are none, and a point is one only
at the start. -/
def componentParts : List String → List String
  | "." :: rest => "." :: rest.filter (!isIdle ·)
  | all => all.filter (!isIdle ·)

/-- The steps a path consists of; that of the root is a slash. -/
def components (path : String) : List String :=
  if isAbsolute path then "/" :: (parts path).filter (!isIdle ·)
  else componentParts (parts path)

/-- Parts joined to a path. -/
def ofParts (all : List String) : String :=
  String.ofList (Text.unite ['/'] (all.map String.toList))

/-- Drops parts up to and with the given number of components. -/
def dropComponents : Nat → Bool → List String → List String
  | 0, _, all => all
  | _ + 1, _, [] => []
  | n + 1, first, part :: rest =>
      if part = "" || (part = "." && !first) then dropComponents (n + 1) false rest
      else dropComponents n false rest

/-- Parts without the idle ones at the end. -/
def dropIdleEnd (all : List String) : List String :=
  (all.reverse.dropWhile isIdle).reverse

/-- A path seen from a directory, if its components start with those of the directory: what follows
them, without idle parts at either end. -/
def relativeTo? (directory path : String) : Option String :=
  let base := components directory
  let steps := components path
  if base.isPrefixOf steps then
    if base = [] then some (ofParts (dropIdleEnd (parts path)))
    else
      let rooted := isAbsolute path
      let all := if rooted then (parts path).drop 1 else parts path
      let count := if rooted then base.length - 1 else base.length
      some (ofParts (dropIdleEnd ((dropComponents count (!rooted) all).dropWhile isIdle)))
  else none

/-- A path seen from a directory where it lies below, and as it stands elsewhere. -/
def relativeTo (directory path : String) : String :=
  (relativeTo? directory path).getD path

/-- The paths that a list of components spells from its longest start to its shortest. -/
def ancestorsOf (steps : List String) : List (List String) :=
  (List.range steps.length).map fun n => steps.take (steps.length - n)

/-- A path and the directories above it that have a name, nearest first. -/
def ancestors (path : String) : List String :=
  match components path with
  | "/" :: steps => (ancestorsOf steps).map fun steps => "/" ++ ofParts steps
  | steps => (ancestorsOf steps).map ofParts

/-- The path of the directory that a path stands in; empty where it has no name. -/
def parent (path : String) : String :=
  (ancestors path)[1]?.getD ""

end Transclusion.FilePath
