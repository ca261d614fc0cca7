import Transclusion.FilePath

/-!
# File trees

The files that a program works on, as a value: directories with named entries, files with bytes,
and symbolic links. Reading a path gives what the operating system would give, and changing one
gives the tree afterwards, errors included.

1. A path is followed part by part from the current directory, or from the root if it is absolute
   (`FileTree.followFrom`). A link is replaced by its target, seen from the directory it stands in;
   forty links may be followed.
2. What a path denotes is a *place*: the names on the way from the root, no link among them. So two
   paths denote the same thing exactly if their places are equal.
3. Changes run in `FileTree.Change`, which keeps what was done before an error.
-/

namespace Transclusion

/-- Something in a file tree. -/
inductive FileNode
  | file (bytes : ByteArray)
  | directory (entries : List (String × FileNode))
  | link (target : String)

instance : Inhabited FileNode := ⟨.directory []⟩

/-- The names on the way from the root to something. -/
abbrev Place := List String

namespace FileNode

/-- The entry of a name. -/
def lookup (name : String) : List (String × FileNode) → Option FileNode
  | [] => none
  | (k, node) :: rest => if k = name then some node else lookup name rest

/-- Puts a node under a name, in place of the one there, or takes the name away. -/
def assign (name : String) (node : Option FileNode) :
    List (String × FileNode) → List (String × FileNode)
  | [] => (node.map fun node => (name, node)).toList
  | (k, old) :: rest =>
      if k = name then (node.map fun node => (name, node)).toList ++ rest
      else (k, old) :: assign name node rest

/-- What stands at a place below a node. -/
def at? (node : FileNode) : Place → Option FileNode
  | [] => some node
  | name :: place =>
      match node with
      | .directory entries =>
          match lookup name entries with
          | some child => child.at? place
          | none => none
      | _ => none

/-- A node with something else, or nothing, at a place below it. Where the way to the place does not
lead through directories the node stays as it is. -/
def put (node : FileNode) (new : Option FileNode) : Place → FileNode
  | [] => new.getD node
  | [name] =>
      match node with
      | .directory entries => .directory (assign name new entries)
      | _ => node
  | name :: place =>
      match node with
      | .directory entries =>
          match lookup name entries with
          | some child => .directory (assign name (some (child.put new place)) entries)
          | none => node
      | _ => node

end FileNode

/-- A tree of files with a current directory. -/
structure FileTree where
  root : FileNode
  current : Place
  deriving Inhabited

namespace FileTree

/-- Why a path cannot be read or changed. -/
inductive Error
  | notFound
  | alreadyExists
  | notADirectory
  | isADirectory
  | invalidArgument
  | nameTooLong
  | tooManyLinks
  /-- A path with a NUL character, which no system takes. -/
  | nulInPath
  /-- A text that is not UTF-8. -/
  | invalidText
  deriving DecidableEq, Repr

/-- The sentence that reports an error. -/
def Error.message : Error → String
  | notFound => "No such file or directory (os error 2)"
  | alreadyExists => "File exists (os error 17)"
  | notADirectory => "Not a directory (os error 20)"
  | isADirectory => "Is a directory (os error 21)"
  | invalidArgument => "Invalid argument (os error 22)"
  | nameTooLong => "File name too long (os error 36)"
  | tooManyLinks => "Too many levels of symbolic links (os error 40)"
  | nulInPath => "file name contained an unexpected NUL byte"
  | invalidText => "stream did not contain valid UTF-8"

/-! ## Following paths -/

/-- What a path leads to. -/
inductive Spot
  /-- Something at a place. -/
  | taken (place : Place)
  /-- A directory without an entry of the name; `slashed` if a slash follows the name. -/
  | free (directory : Place) (name : String) (slashed : Bool)
  deriving DecidableEq, Repr

/-- Follows the parts of a path from a place. With `through`, a link at the very end is followed
too. At most `links` links may be followed. -/
def followFrom (root : FileNode) (through : Bool) (links : Nat) (place : Place) :
    List String → Except Error Spot
  | [] => .ok (.taken place)
  | part :: todo =>
      match root.at? place with
      | none => .error .notFound
      | some (.directory entries) =>
          if FilePath.isIdle part then followFrom root through links place todo
          else if part = ".." then followFrom root through links place.dropLast todo
          else if 255 < part.utf8ByteSize then .error .nameTooLong
          else
            match FileNode.lookup part entries with
            | none =>
                if todo.all (· = "") then .ok (.free place part (!todo.isEmpty))
                else .error .notFound
            | some (.link target) =>
                if todo.isEmpty && !through then .ok (.taken (place ++ [part]))
                else if links = 0 then .error .tooManyLinks
                else
                  followFrom root through (links - 1)
                    (if FilePath.isAbsolute target then [] else place)
                    (FilePath.parts target ++ todo)
            | some _ => followFrom root through links (place ++ [part]) todo
      | some _ => .error .notADirectory
termination_by todo => (links, todo.length)

/-- How many links may be followed on the way to one thing. -/
def linkLimit : Nat := 40

/-- A path has fewer bytes than this. -/
def pathLimit : Nat := 4096

/-- What a path leads to. -/
def follow (tree : FileTree) (through : Bool) (path : String) : Except Error Spot :=
  if path = "" then .error .notFound
  else if path.toList.contains '\x00' then .error .nulInPath
  else if pathLimit ≤ path.utf8ByteSize then .error .nameTooLong
  else
    followFrom tree.root through linkLimit (if FilePath.isAbsolute path then [] else tree.current)
      (FilePath.parts path)

/-- The place that a path denotes. -/
def place (tree : FileTree) (path : String) : Except Error Place :=
  match tree.follow true path with
  | .ok (.taken place) => .ok place
  | .ok (.free ..) => .error .notFound
  | .error error => .error error

/-- What a path denotes. It is no link. -/
def node (tree : FileTree) (path : String) : Except Error FileNode :=
  match tree.place path with
  | .ok place =>
      match tree.root.at? place with
      | some node => .ok node
      | none => .error .notFound
  | .error error => .error error

/-! ## Reading -/

/-- Whether something is at a path. -/
def exists? (tree : FileTree) (path : String) : Bool :=
  match tree.node path with
  | .ok _ => true
  | .error _ => false

def isFile (tree : FileTree) (path : String) : Bool :=
  match tree.node path with
  | .ok (.file _) => true
  | _ => false

def isDirectory (tree : FileTree) (path : String) : Bool :=
  match tree.node path with
  | .ok (.directory _) => true
  | _ => false

def read (tree : FileTree) (path : String) : Except Error ByteArray :=
  match tree.node path with
  | .ok (.file bytes) => .ok bytes
  | .ok _ => .error .isADirectory
  | .error error => .error error

def readText (tree : FileTree) (path : String) : Except Error String :=
  match tree.read path with
  | .ok bytes =>
      match String.fromUTF8? bytes with
      | some text => .ok text
      | none => .error .invalidText
  | .error error => .error error

/-- The names in the directory at a path, in the order in which the system lists them. -/
def list (tree : FileTree) (path : String) : Except Error (List String) :=
  match tree.node path with
  | .ok (.directory entries) => .ok (entries.map Prod.fst)
  | .ok _ => .error .notADirectory
  | .error error => .error error

/-! ## Changing -/

/-- Changes to a tree that may end in an error; what was done before it stays done. -/
abbrev Change := ExceptT Error (StateM FileTree)

/-- Puts something, or nothing, at a place. -/
def put (tree : FileTree) (place : Place) (node : Option FileNode) : FileTree :=
  { tree with root := tree.root.put node place }

def makeDirectory (path : String) : Change Unit := do
  match ← (← get).follow false path with
  | .taken _ => throw .alreadyExists
  | .free directory name _ => modify (·.put (directory ++ [name]) (some (.directory [])))

/-- Makes the first of some directories, given from the innermost outwards, and those of the others
that are missing. A path that leads to a directory counts as made. -/
def makeDirectoriesFrom : List String → Change Unit
  | [] => pure ()
  | path :: outer => do
      try makeDirectory path
      catch error =>
        if error = .notFound then
          makeDirectoriesFrom outer
          try makeDirectory path
          catch error => unless (← get).isDirectory path do throw error
        else unless (← get).isDirectory path do throw error

/-- Makes a directory and the missing ones above it. -/
def makeDirectories (path : String) : Change Unit :=
  makeDirectoriesFrom (FilePath.ancestors path)

/-- Writes a file, in place of the one there. -/
def write (path : String) (bytes : ByteArray) : Change Unit := do
  match ← (← get).follow true path with
  | .taken place =>
      match (← get).root.at? place with
      | some (.directory _) => throw .isADirectory
      | _ => modify (·.put place (some (.file bytes)))
  | .free directory name slashed =>
      if slashed then throw .isADirectory
      else modify (·.put (directory ++ [name]) (some (.file bytes)))

/-- Removes a directory with all that is in it, or a link to one. A directory cannot be removed as
its own current directory: it is emptied first, and then it is an error. -/
def removeAll (path : String) : Change Unit := do
  match ← (← get).follow false path with
  | .free .. => throw .notFound
  | .taken place =>
      let named := (FilePath.dropIdleEnd (FilePath.parts path)).length =
        ((FilePath.parts path).reverse.dropWhile (· = "")).length
      match (← get).root.at? place with
      | some (.directory _) =>
          modify (·.put place (some (.directory [])))
          if named then modify (·.put place none) else throw .invalidArgument
      | _ => modify (·.put place none)

end FileTree

end Transclusion
