import Transclusion.FileTree.Walk
import Transclusion.Ignore
import Transclusion.MetadataTree

/-!
# Source trees

The files of a directory as documents and assets, under keys that are their paths seen from the
directory.

* `SourceTree.load` — from a directory: texts become documents, other files assets, and the front
  matter of markdown files becomes metadata;
* `SourceTree.write` — to a directory: metadata is written as front matter.
-/

namespace Transclusion

/-- Documents, and the bytes of files that are no texts. -/
structure SourceTree where
  documents : DocumentSet
  assets : KeyMap ByteArray

/-- Which files of a directory are left out. -/
structure LoadOptions where
  /-- Patterns as in an ignore file. -/
  exclude : List String := []
  /-- The ignore file of the directory does not count. -/
  disableGitignore : Bool := false
  deriving DecidableEq, Repr, Inhabited

namespace SourceTree

/-- The tree without files. -/
def empty : SourceTree := ⟨.empty, .empty⟩

/-! ## Loading -/

def ignoreFileName : String := ".gitignore"

/-- The rules in the ignore file of a directory, if it can be read and its rules can be used. -/
def ignoreFileRules (files : FileTree) (directory : String) : IgnoreRules :=
  match files.read (FilePath.join directory ignoreFileName) with
  | .ok bytes =>
      let rules := IgnoreRules.ofFile directory bytes
      if rules.tooDeep?.isSome then ⟨directory, []⟩ else rules
  | .error _ => ⟨directory, []⟩

/-- The rules that the patterns of a configuration make. -/
def excludeRules (directory : String) (patterns : List String) : Except Error IgnoreRules :=
  match IgnoreRules.ofPatterns directory patterns with
  | .error (pattern, error) =>
      .error (.invalidConfig s!"invalid exclude pattern \x60{pattern}\x60: {error.message}")
  | .ok rules =>
      match rules.tooDeep? with
      | some glob =>
          .error (.invalidConfig s!"failed to build exclude rules: {glob.nestingMessage}")
      | none => .ok rules

/-- The files of a directory, in the order of their paths. -/
def sources (files : FileTree) (directory : String) (options : LoadOptions) :
    Except Error (List String) := do
  let ignored :=
    if options.disableGitignore then ⟨directory, []⟩ else ignoreFileRules files directory
  let excluded ← excludeRules directory options.exclude
  return files.filesBelow
    (fun path isDirectory =>
      ignored.ignores path isDirectory || excluded.ignores path isDirectory)
    directory

/-- The key of a file below a directory. -/
def keyOf (directory path : String) : String :=
  Key.ofPath (FilePath.relativeTo directory path)

/-- The document that a text is. Front matter is split off markdown. -/
def documentOf (key text : String) : Except Error Document :=
  if Key.markdownSuffix.toList.isSuffixOf key.toList then
    match FrontMatter.parse text with
    | .error error => .error (.invalidFrontMatter key key error.message)
    | .ok parsed => .ok ⟨parsed.body, parsed.metadata⟩
  else .ok ⟨text, .empty⟩

/-- A tree with one more file. -/
def insert (tree : SourceTree) (key : String) (bytes : ByteArray) : Except Error SourceTree :=
  match String.fromUTF8? bytes with
  | none => .ok { tree with assets := tree.assets.insert key bytes }
  | some text => do
      return { tree with documents := tree.documents.insert key (← documentOf key text) }

/-- A tree with the files at some paths. -/
def insertAll (files : FileTree) (directory : String) (tree : SourceTree) :
    List String → Except Error SourceTree
  | [] => .ok tree
  | path :: paths =>
      match files.read path with
      | .error error => .error (.io error.message)
      | .ok bytes => do
          insertAll files directory (← tree.insert (keyOf directory path) bytes) paths

/-- The files of a directory. What is no directory has none. -/
def load (files : FileTree) (directory : String) (options : LoadOptions) :
    Except Error SourceTree := do
  insertAll files directory empty (← sources files directory options)

/-! ## Writing -/

/-- Writing that may end in an error; what was written before it stays. -/
abbrev Writing := ExceptT Error (StateM FileTree)

/-- A change of the files as a part of writing. -/
def change (action : FileTree.Change α) : Writing α :=
  ExceptT.mk do
    match ← action.run with
    | .ok a => return .ok a
    | .error error => return .error (.io error.message)

/-- Writes a file, and makes the directories it stands in. -/
def writeFile (path : String) (bytes : ByteArray) : Writing Unit :=
  change do
    FileTree.makeDirectories (FilePath.parent path)
    FileTree.write path bytes

/-- Writes the documents, then the assets. -/
def writeAll (tree : SourceTree) (directory : String) : Writing Unit := do
  for (key, document) in tree.documents.toList do
    let text ← ExceptT.mk (pure (document.render key))
    writeFile (FilePath.join directory key) text.toUTF8
  for (key, bytes) in tree.assets.toList do
    writeFile (FilePath.join directory key) bytes

/-- Writes a tree to a directory, which may be removed first. Gives the number of files. -/
def write (tree : SourceTree) (directory : String) (clean : Bool) : Writing Nat := do
  if clean && (← get).isDirectory directory then change (FileTree.removeAll directory)
  tree.writeAll directory
  return tree.documents.size + tree.assets.size

end SourceTree

end Transclusion
