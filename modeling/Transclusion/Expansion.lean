import Transclusion.Obstacle
import Transclusion.Permalink
import Transclusion.Resolver

/-!
# Expansion

The content of a document with every directive replaced by what it refers to, and that again, until
no local directive is left. On the way the keys and the metadata of all fragments are gathered.

* `Engine.expand` — the expansion of a content as if it stood at a key;
* `Engine.expandFully` — the same inside an expansion, `path` being the documents on the way from
  the outermost one;
* `Engine.expandContent` — the same with a limit to the number of levels.

## Whether it ends

A fragment from a document on the path is an error, so the keys on a path are different. A chain
that stays in the document set can therefore lead no deeper than the set has keys, below the
outermost document, and that depth is tried first. A chain that leads on to ever new keys never
ends.
-/

namespace Transclusion

/-- How substituted content is rendered. -/
structure ExpandOptions where
  /-- Every fragment follows a comment that names its key. -/
  comments : Bool := false
  /-- The comments also name the target, the resolver and the calling document. -/
  verbose : Bool := false
  /-- Permalinks are written out before a content is scanned. -/
  permalink : Bool := false
  deriving DecidableEq, Repr

/-- A content without local directives, and what was pulled in for it. -/
structure Expansion where
  content : String
  /-- The metadata of all fragments. -/
  tree : MetadataTree
  /-- The keys of all fragments, in the order of their first appearance. -/
  resolved : List String
  deriving DecidableEq, Repr

/-- What has been gathered from fragments so far. -/
structure Gathered where
  tree : MetadataTree
  resolved : List String
  deriving DecidableEq, Repr

namespace Gathered

/-- Nothing. -/
def empty : Gathered := ⟨.empty, []⟩

/-- Notes a fragment: its metadata in the tree, and its key if it is new. -/
def record (g : Gathered) (key : String) (metadata : Metadata) : Gathered :=
  ⟨g.tree.insert key metadata, if g.resolved.contains key then g.resolved else g.resolved ++ [key]⟩

end Gathered

/-- Everything an expansion reads. -/
structure Engine where
  files : FileTree
  documents : DocumentSet
  chain : List Resolver
  options : ExpandOptions

namespace Engine

/-- What the chain makes of a directive in the document at `context`. -/
def resolve (engine : Engine) (context : String) (d : Directive) :
    Except Error (Option Resolution) :=
  Resolver.resolveChain engine.files engine.documents ⟨d.target, d.label, d.secondary, context⟩
    engine.chain

/-- The content that is scanned for directives. -/
def scanned (engine : Engine) (context content : String) : String :=
  if engine.options.permalink then Permalink.retarget engine.documents context content
  else content

/-- The comment in front of a fragment. -/
def marker (engine : Engine) (context target resolver key : String) : String :=
  if !engine.options.comments then ""
  else if engine.options.verbose then
    s!"<!-- transclude: {key} (target: {target}, resolver: {resolver}, from: {context}) -->\n"
  else s!"<!-- transclude: {key} -->\n"

/-- How the content of a fragment is expanded: given the path to it, its key and its content. -/
abbrev Expander := List String → String → String → Gathered → Except Obstacle (String × Gathered)

/-- The text that takes the place of a fragment. -/
def substitute (engine : Engine) (expand : Expander) (path : List String) (context : String)
    (d : Directive) (resolver : String) (fragment : Fragment) (g : Gathered) :
    Except Obstacle (String × Gathered) :=
  match fragment.key with
  | none => .ok (fragment.content, g)
  | some key =>
      if path.contains key then
        .error (.error (.cyclicTransclusion context d.target (path ++ [key])))
      else do
        let (text, g) ← expand (path ++ [key]) key fragment.content (g.record key fragment.metadata)
        return (engine.marker context d.target resolver key ++ text, g)

/-- The text that takes the place of some fragments in a row. -/
def substituteAll (engine : Engine) (expand : Expander) (path : List String) (context : String)
    (d : Directive) (resolver : String) :
    List Fragment → Gathered → Except Obstacle (String × Gathered)
  | [], g => .ok ("", g)
  | fragment :: fragments, g => do
      let (text, g) ← substitute engine expand path context d resolver fragment g
      let (rest, g) ← substituteAll engine expand path context d resolver fragments g
      return (text ++ rest, g)

/-- The text that takes the place of a directive. A URL that no resolver claims stays as it is
written. -/
def replace (engine : Engine) (expand : Expander) (path : List String) (context : String)
    (d : Directive) (g : Gathered) : Except Obstacle (String × Gathered) := do
  match ← (engine.resolve context d).mapError .error with
  | some resolution =>
      substituteAll engine expand path context d resolution.resolver resolution.fragments g
  | none =>
      if d.isRemote then return (d.source, g)
      else throw (.error (.unresolvedTarget context d.target))

/-- The text of some parts of an outline and of what stands behind them. -/
def replaceAll (engine : Engine) (expand : Expander) (path : List String) (context : String)
    (tail : List Char) :
    List (List Char × Directive) → Gathered → Except Obstacle (String × Gathered)
  | [], g => .ok (String.ofList tail, g)
  | (gap, d) :: parts, g => do
      let (text, g) ← replace engine expand path context d g
      let (rest, g) ← replaceAll engine expand path context tail parts g
      return (String.ofList gap ++ text ++ rest, g)

/-- The expansion of a content, at most `depth` levels deep. -/
def expandContent (engine : Engine) : (depth : Nat) → Expander
  | 0, _, _, _, _ => .error .endless
  | depth + 1, path, key, content, g =>
      let outline := Outline.ofText (engine.scanned key content)
      replaceAll engine (expandContent engine depth) path key outline.tail outline.parts g

/-- The expansion of a content, as deep as it leads. One level for the content and one for each
document is enough if all fragments are documents of the set. -/
def expandFully (engine : Engine) : Expander :=
  fun path key content g =>
    unlimited (fun depth => expandContent engine depth path key content g)
      (engine.documents.size + 1)

/-- The expansion of a content as if it stood at `key`: relative targets start from the directory of
`key`, and `key` itself counts as being expanded. -/
def expand (engine : Engine) (key content : String) : Except Obstacle Expansion := do
  let (content, g) ← expandFully engine [key] key content .empty
  return ⟨content, g.tree, g.resolved⟩

/-- The expansion of the document at `key`; none if there is no such document. -/
def expandDocument (engine : Engine) (key : String) : Except Obstacle (Option Expansion) :=
  match engine.documents.get? key with
  | none => .ok none
  | some document => do return some (← engine.expand key document.content)

end Engine

end Transclusion
