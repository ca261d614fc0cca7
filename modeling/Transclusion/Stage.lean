import Transclusion.Expansion
import Transclusion.Glob.Nesting
import Transclusion.Glob.Parser
import Transclusion.Report

/-!
# Stages

A stage expands all documents of a set whose keys match a pattern.

1. Every document is expanded from the set as it was before the run, so what becomes of one does not
   depend on the others (`Stage.outcome`).
2. The new documents are put into the set together, at the end (`Stage.update`).
3. A document that fails either ends the run, and the set stays as it was, or is reported and left
   alone (`ErrorPolicy`). Behind a document whose expansion does not end, a run comes to nothing.
-/

namespace Transclusion

/-! ## Options -/

/-- What a run does about a document that fails. -/
inductive ErrorPolicy
  /-- The run fails with it. -/
  | failFast
  /-- The document is reported, and the others are processed. -/
  | collect
  deriving DecidableEq, Repr, Inhabited

/-- Why a run goes no further than a document that comes to the outcome. -/
def ErrorPolicy.obstacle? : ErrorPolicy → Outcome → Option Obstacle
  | _, .endless => some .endless
  | failFast, .failed error => some (.error error)
  | _, _ => none

/-- Where the metadata of fragments is written. -/
inductive MetadataOutput
  | metadata
  | content
  | both
  deriving DecidableEq, Repr, Inhabited

namespace MetadataOutput

/-- Whether the metadata of the document takes them. -/
def writesMetadata : MetadataOutput → Bool
  | metadata | both => true
  | content => false

/-- Whether the front matter in the content takes them. -/
def writesContent : MetadataOutput → Bool
  | content | both => true
  | metadata => false

/-- Writes the metadata of fragments into the document at `key`, under a reserved field. -/
def attach (output : MetadataOutput) (reserved key : String) (tree : MetadataTree)
    (document : Document) : Except Error Document := do
  let metadata ←
    if output.writesMetadata then tree.attach reserved key document.metadata
    else pure document.metadata
  let content ←
    if output.writesContent then tree.attachToContent reserved key document.content
    else pure document.content
  return ⟨content, metadata⟩

end MetadataOutput

/-- How a stage works. -/
structure StageOptions where
  /-- The documents that are processed, and that a directory is taken to consist of. -/
  pattern : String := "**/*.md"
  /-- Permalinks are written out before a content is scanned. -/
  permalink : Bool := false
  /-- Every fragment follows a comment that names its key. -/
  comments : Bool := false
  /-- Front matter is split off the fragments and gathered. -/
  frontmatter : Bool := false
  /-- The comments also name the target, the resolver and the calling document. -/
  verbose : Bool := false
  /-- A target that nothing answers to stands for its own text. -/
  fallback : Bool := false
  errorPolicy : ErrorPolicy := .failFast
  /-- Documents with missing files are left alone instead of failing. -/
  skipMissing : Bool := false
  /-- The metadata field that takes the metadata of fragments. -/
  metadataKey : String := "transclusions"
  output : MetadataOutput := .metadata
  /-- A directory with files for targets that the set lacks. -/
  sourceRoot : Option String := none
  deriving DecidableEq, Repr, Inhabited

namespace StageOptions

/-- How substituted content is rendered. -/
def expandOptions (options : StageOptions) : ExpandOptions :=
  ⟨options.comments, options.verbose, options.permalink⟩

/-- The chain of resolvers that serves the options: exact keys, directories, files if there is a
directory for them, and the text of the target if that is allowed. -/
def chain (options : StageOptions) (filter : String → Bool) : List Resolver :=
  [.exact options.frontmatter, .folder options.frontmatter filter]
    ++ (options.sourceRoot.map fun root =>
          Resolver.files root options.frontmatter (!options.fallback)).toList
    ++ if options.fallback then [.fallback] else []

end StageOptions

/-- A pattern of document keys. -/
def documentPattern (text : String) : Except Error Glob :=
  match Glob.parse {} text with
  | .error error => .error (.invalidPattern text (error.message text))
  | .ok glob =>
      if glob.isTooDeep then .error (.invalidPattern text glob.nestingMessage) else .ok glob

/-! ## Runs -/

/-- Options with what is made of them. -/
structure Stage where
  options : StageOptions
  pattern : Glob
  chain : List Resolver

namespace Stage

/-- The stage that asks a given chain. -/
def withChain (options : StageOptions) (chain : List Resolver) : Except Error Stage := do
  return ⟨options, ← documentPattern options.pattern, chain⟩

/-- The stage that asks the chain its options call for. -/
def ofOptions (options : StageOptions) : Except Error Stage := do
  let pattern ← documentPattern options.pattern
  return ⟨options, pattern, options.chain pattern.isMatch⟩

/-- Whether the document at `key` is processed. -/
def isEligible (stage : Stage) (key : String) : Bool :=
  stage.pattern.isMatch key

/-- What the stage expands with. -/
def engine (stage : Stage) (files : FileTree) (documents : DocumentSet) : Engine :=
  ⟨files, documents, stage.chain, stage.options.expandOptions⟩

/-- The document that takes the place of the one at `key`; none if there is nothing to change. -/
def transclude (stage : Stage) (files : FileTree) (documents : DocumentSet) (key : String)
    (document : Document) : Except Obstacle (Option Document) := do
  let expansion ← (stage.engine files documents).expand key document.content
  if expansion.tree.isEmpty && expansion.content = document.content then
    return none
  let expanded : Document := ⟨expansion.content, document.metadata⟩
  if stage.options.frontmatter then
    let attached :=
      stage.options.output.attach stage.options.metadataKey key expansion.tree expanded
    return some (← attached.mapError .error)
  return some expanded

/-- What becomes of the document at `key`. -/
def outcome (stage : Stage) (files : FileTree) (documents : DocumentSet) (key : String)
    (document : Document) : Outcome :=
  match stage.transclude files documents key document with
  | .ok (some document) => .transcluded document
  | .ok none => .unchanged
  | .error (.error error) =>
      if error.isMissingSource && stage.options.skipMissing then .skipped error else .failed error
  | .error .endless => .endless

/-- What becomes of the eligible documents of a set, in key order. -/
def outcomes (stage : Stage) (files : FileTree) (documents : DocumentSet) :
    List (String × Outcome) :=
  (documents.toList.filter fun (key, _) => stage.isEligible key).map fun (key, document) =>
    (key, stage.outcome files documents key document)

/-- A set with the documents that came out of a run. -/
def update (documents : DocumentSet) (outcomes : List (String × Outcome)) : DocumentSet :=
  outcomes.foldl (fun documents (key, outcome) =>
    match outcome.document? with
    | some document => documents.insert key document
    | none => documents) documents

/-- Why a run with such outcomes has no report: it goes no further than the first of them that is an
obstacle. -/
def ending? (policy : ErrorPolicy) (outcomes : List (String × Outcome)) : Option Obstacle :=
  outcomes.findSome? fun (_, outcome) => policy.obstacle? outcome

/-- Expands the eligible documents of a set: the report and the set afterwards, or the obstacle that
the run does not pass. -/
def run (stage : Stage) (files : FileTree) (documents : DocumentSet) :
    Except Obstacle (Report × DocumentSet) :=
  let outcomes := stage.outcomes files documents
  match ending? stage.options.errorPolicy outcomes with
  | some obstacle => .error obstacle
  | none => .ok (Report.ofOutcomes outcomes, update documents outcomes)

end Stage

end Transclusion
