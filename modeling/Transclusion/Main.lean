import Transclusion.CommandLine.Run

/-!
# The program

Takes from the disk what a command line needs, as a `FileTree`; runs the command line on it; and
brings the disk to the state of the tree afterwards.
-/

namespace Transclusion.Disk

/-- What is at a path, links not followed. -/
def kindAt (path : String) : IO (Option IO.FS.FileType) := do
  try return some (← ((← IO.currentDir) / path).symlinkMetadata).type
  catch _ => return none

/-- The path without links that a path leads to; none if it leads nowhere. -/
def realPath? (path : String) : IO (Option String) := do
  try return some (← IO.FS.realPath path).toString
  catch _ => return none

/-- What is at a path with all that is below it, and where the links in it lead. -/
partial def capture (path : String) : IO (Option FileNode × List String) := do
  match ← kindAt path with
  | none => return (none, [])
  | some .dir =>
      let mut entries := []
      let mut targets := []
      for entry in ← ((← IO.currentDir) / path).readDir do
        let (node, more) ← capture (FilePath.join path entry.fileName)
        entries := entries ++ (node.map fun node => (entry.fileName, node)).toList
        targets := targets ++ more
      return (some (.directory entries), targets)
  | some .symlink =>
      match ← realPath? path with
      | some target => return (some (.link target), [target])
      | none => return (some (.link (path ++ " (missing)")), [])
  | some _ => return (some (.file (← IO.FS.readBinFile path)), [])

/-- A tree with something at an absolute path. -/
def place (tree : FileTree) (path : String) (node : FileNode) : FileTree :=
  let change : FileTree.Change Unit := do
    FileTree.makeDirectories (FilePath.parent path)
    modify (·.put ((FilePath.components path).drop 1) (some node))
  (change.run.run tree).2

/-- A tree with what is at some paths, and where the links there lead; `done` are the paths that
were taken before. -/
partial def take (tree : FileTree) (done : List String) : List String → IO FileTree
  | [] => return tree
  | path :: rest => do
      let given := FilePath.join (← IO.currentDir).toString path
      match ← realPath? given with
      | none => take tree done rest
      | some real =>
          if done.any fun path => (FilePath.relativeTo? path real).isSome then take tree done rest
          else
            let (node, targets) ← capture real
            let tree := match node with
              | some node => place tree real node
              | none => tree
            let tree := if FilePath.components given = FilePath.components real
                || (FilePath.components given).contains ".." then tree
              else place tree given (.link real)
            take tree (real :: done) (targets ++ rest)

/-- The part of the disk that a command line needs. -/
def forArguments (arguments : List String) : IO FileTree := do
  let current := (← IO.currentDir).toString
  let start : FileTree := ⟨.directory [], (FilePath.components current).drop 1⟩
  let start := ((FileTree.makeDirectories current).run.run start).2
  match Arguments.parse arguments with
  | .error _ => return start
  | .ok arguments =>
      let root := arguments.path.getD current
      let files ← take start [] (Config.places.map (FilePath.join root))
      match Config.load files root with
      | .error _ => return files
      | .ok config =>
          take files [] ([config.sourceDirectory root, config.destinationDirectory root]
            ++ (config.stageOptions root).sourceRoot.toList)

/-- Removes what is at a path. -/
def remove (path : String) : IO Unit := do
  match ← kindAt path with
  | none => pure ()
  | some .dir => IO.FS.removeDirAll path
  | some _ => IO.FS.removeFile path

/-- Turns what is at a path into something else, where the two differ. -/
partial def update (path : String) : Option FileNode → Option FileNode → IO Unit
  | none, none => pure ()
  | some _, none => remove path
  | some (.directory before), some (.directory after) => do
      for (name, _) in before do
        if (FileNode.lookup name after).isNone then remove (FilePath.join path name)
      for (name, node) in after do
        update (FilePath.join path name) (FileNode.lookup name before) (some node)
  | _, some (.directory after) => do
      IO.FS.createDirAll path
      for (name, node) in after do
        update (FilePath.join path name) none (some node)
  | some (.file before), some (.file after) => do
      if before != after then IO.FS.writeBinFile path after
  | _, some (.file after) => IO.FS.writeBinFile path after
  | _, some (.link _) => pure ()

end Transclusion.Disk

open Transclusion in
/-- Runs a command line on the disk. -/
def main (arguments : List String) : IO UInt32 := do
  let colors := (← IO.getEnv "NO_COLOR").isNone
  let files ← Disk.forArguments arguments
  let some result := CommandLine.run arguments colors files
    | throw (IO.userError "the run does not end")
  Disk.update "/" (some files.root) (some result.files.root)
  for line in result.printed do
    match line with
    | .out text => IO.println text
    | .err text => IO.eprintln text
  return result.status.toUInt32
