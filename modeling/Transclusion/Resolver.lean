import Transclusion.Directive
import Transclusion.FileTree
import Transclusion.MetadataTree
import Transclusion.Text.Quoted

/-!
# Resolvers

A resolver answers a reference with the fragments that take its place. It may also not apply, and
then the next one in the chain is asked; an error ends the search.

* `Reference`, `Fragment`, `Resolution` — the question and the answer;
* `Resolver` — by exact key, by directory, from files, by the target's own text, or by a function;
* `resolve` — the first answer of a chain.

None of the first four answers a URL.
-/

namespace Transclusion

/-- A directive's target as seen from the document that contains it. -/
structure Reference where
  target : String
  label : String
  secondary : Option String
  /-- The key of the document that contains the directive. -/
  source : String
  deriving DecidableEq, Repr

namespace Reference

/-- Whether the target is a URL. -/
def isRemote (r : Reference) : Bool :=
  isRemoteTarget r.target

/-- The key that the target denotes, if it does not climb above the root. -/
def joined? (r : Reference) : Option String :=
  Key.join r.source r.target

/-- The key that a local target denotes; none for the root itself. -/
def localKey? (r : Reference) : Option String :=
  if r.isRemote then none else r.joined?.filter (· ≠ "")

end Reference

/-- A piece of resolved content. -/
structure Fragment where
  /-- The key of the document it comes from; none for text that is put in as it stands. -/
  key : Option String
  content : String
  /-- The metadata split off the content. -/
  metadata : Metadata := .empty
  deriving DecidableEq, Repr

/-- The fragments that take the place of a directive, and the name of the resolver that gave
them. -/
structure Resolution where
  resolver : String
  fragments : List Fragment
  deriving DecidableEq, Repr

/-! ## Fragments of documents -/

/-- A fragment with its front matter laid over the given metadata, and only the body as its
content. -/
def Fragment.extracted (source key text : String) (metadata : Metadata) : Except Error Fragment :=
  match FrontMatter.parse text with
  | .error error => .error (.invalidFrontMatter source key error.message)
  | .ok parsed => .ok ⟨some key, parsed.body, Metadata.merge metadata parsed.metadata⟩

/-- A fragment as it would read in a file: its metadata stands in the front matter. -/
def Fragment.whole (source key text : String) (metadata : Metadata) : Except Error Fragment :=
  if metadata = .empty then .ok ⟨some key, text, .empty⟩
  else
    match FrontMatter.parse text with
    | .error error => .error (.invalidFrontMatter source key error.message)
    | .ok parsed =>
        .ok ⟨some key,
          FrontMatter.serialize parsed.body (Metadata.merge metadata parsed.metadata), .empty⟩

/-- The fragment of a document of the set, for the document at `source`. -/
def Document.fragment (document : Document) (extract : Bool) (source key : String) :
    Except Error Fragment :=
  if extract then Fragment.extracted source key document.content document.metadata
  else Fragment.whole source key document.content document.metadata

/-! ## Resolvers -/

/-- A way to answer references. `extract` tells whether front matter is split off the fragments. -/
inductive Resolver
  /-- The document with the key of the target, or with that key and the markdown suffix. -/
  | exact (extract : Bool)
  /-- All documents in the directory of the target that the filter lets through, in key order. -/
  | folder (extract : Bool) (filter : String → Bool)
  /-- The file of the target below a directory, or the file with the markdown suffix. A missing file
  is an error, or is left to the resolvers behind. -/
  | files (root : String) (extract missingIsError : Bool)
  /-- The text of the target itself. -/
  | fallback
  /-- Whatever a function makes of the reference. -/
  | custom (name : String)
      (answer : DocumentSet → Reference → Except Error (Option Resolution))

namespace Resolver

/-- The name of a resolver, as it appears in comments. -/
def name : Resolver → String
  | exact _ => "exact"
  | folder .. => "folder"
  | files .. => "filesystem"
  | fallback => "fallback"
  | custom name _ => name

/-- A chain by the names of its resolvers, on one line. -/
def listing (chain : List Resolver) : String :=
  "ResolverChain \x7b resolvers: ["
    ++ String.intercalate ", " (chain.map fun resolver => Text.quote Text.listingStyle resolver.name)
    ++ "] \x7d"

/-- Whether all keys a resolver gives are keys of the set. -/
def staysInSet : Resolver → Bool
  | exact _ | folder .. | fallback => true
  | files .. | custom .. => false

/-- The keys under which a target is looked up: as it is, and with the markdown suffix. -/
def candidates (key : String) : List String :=
  [key, key ++ Key.markdownSuffix]

/-- The document of the set that a local target names. -/
def resolveExact (documents : DocumentSet) (extract : Bool) (r : Reference) :
    Except Error (Option Resolution) :=
  match r.localKey? with
  | none => .ok none
  | some key =>
      match (candidates key).find? documents.contains with
      | none => .ok none
      | some key =>
          match documents.get? key with
          | none => .ok none
          | some document => do
              return some ⟨"exact", [← document.fragment extract r.source key]⟩

/-- The keys in the directory of a target that the filter lets through. -/
def folderKeys (documents : DocumentSet) (filter : String → Bool) (directory : String) :
    List String :=
  (documents.keysUnder directory).filter filter

/-- The fragments of the documents at some keys of the set. -/
def fragments (documents : DocumentSet) (extract : Bool) (source : String) (keys : List String) :
    Except Error (List Fragment) :=
  (keys.filterMap fun key => (documents.get? key).map fun document => (key, document)).mapM
    fun (key, document) => document.fragment extract source key

/-- The documents in the directory that a local target names, if there are any. -/
def resolveFolder (documents : DocumentSet) (extract : Bool) (filter : String → Bool)
    (r : Reference) : Except Error (Option Resolution) :=
  if r.isRemote then .ok none
  else
    match r.joined? with
    | none => .ok none
    | some directory =>
        match folderKeys documents filter directory with
        | [] => .ok none
        | keys => do return some ⟨"folder", ← fragments documents extract r.source keys⟩

/-- The file below `root` that a local target names. -/
def resolveFile (tree : FileTree) (root : String) (extract missingIsError : Bool) (r : Reference) :
    Except Error (Option Resolution) :=
  match r.localKey? with
  | none => .ok none
  | some joined =>
      match (candidates joined).find? fun key => tree.isFile (FilePath.join root key) with
      | some key =>
          match tree.readText (FilePath.join root key) with
          | .error error => .error (.io error.message)
          | .ok text => do
              let fragment ←
                if extract then Fragment.extracted r.source key text .empty
                else pure ⟨some key, text, .empty⟩
              return some ⟨"filesystem", [fragment]⟩
      | none =>
          if missingIsError then
            .error (.missingSourceFile r.source r.target (FilePath.join root joined))
          else .ok none

/-- The text of a local target. -/
def resolveFallback (r : Reference) : Except Error (Option Resolution) :=
  .ok (if r.isRemote then none else some ⟨"fallback", [⟨none, r.target, .empty⟩]⟩)

/-- What a resolver makes of a reference. -/
def resolve (tree : FileTree) (documents : DocumentSet) (r : Reference) :
    Resolver → Except Error (Option Resolution)
  | exact extract => resolveExact documents extract r
  | folder extract filter => resolveFolder documents extract filter r
  | files root extract missingIsError => resolveFile tree root extract missingIsError r
  | fallback => resolveFallback r
  | custom _ answer => answer documents r

/-- The first answer of a chain of resolvers. -/
def resolveChain (tree : FileTree) (documents : DocumentSet) (r : Reference) :
    List Resolver → Except Error (Option Resolution)
  | [] => .ok none
  | resolver :: chain =>
      match resolver.resolve tree documents r with
      | .error error => .error error
      | .ok (some resolution) => .ok (some resolution)
      | .ok none => resolveChain tree documents r chain

end Resolver

end Transclusion
