import Transclusion.Directive
import Transclusion.Document
import Transclusion.Key

/-!
# Permalinks

Authors who link to pages leave out the `.md` of a target, or name the directory of an
`index.md`. Retargeting turns such targets into the document they denote, so that resolution finds
it by its exact key.

* `discover` — the target to write in place of a permalink;
* `retarget` — a text with all its permalinks written out.
-/

namespace Transclusion.Permalink

def withoutTrailingSlashes (target : String) : String :=
  String.ofList (target.toList.reverse.dropWhile (· = '/')).reverse

/-- The key of the document that stands for a directory. -/
def indexKey (directory : String) : String :=
  if directory = "" then Key.indexName else directory ++ "/" ++ Key.indexName

/-- The target to write in place of `target` in the document at `source`: with the markdown
suffix if that makes it a key of the set, else with the name of an index document. None for a
URL, for a target above the root, for a target that already is a key, and when neither
document exists. A target that ends in `/` names a directory and takes no suffix. -/
def discover (documents : DocumentSet) (source target : String) : Option String :=
  if isRemoteTarget target then none
  else
    match Key.join source target with
    | none => none
    | some joined =>
        if documents.contains joined then none
        else if target.toList.getLast? ≠ some '/' ∧
            documents.contains (joined ++ Key.markdownSuffix) then
          some (target ++ Key.markdownSuffix)
        else if documents.contains (indexKey joined) then
          some (withoutTrailingSlashes target ++ "/" ++ Key.indexName)
        else none

/-- A directive with its target written out, or as it stands. -/
def retargetDirective (documents : DocumentSet) (source : String) (d : Directive) : String :=
  match discover documents source d.target with
  | some target => d.withTarget target
  | none => d.source

/-- The content of the document at `source` with every permalink written out. All other text is
kept as it stands. -/
def retarget (documents : DocumentSet) (source content : String) : String :=
  let outline := Outline.ofText content
  String.ofList
    (outline.parts.flatMap
        (fun part => part.1 ++ (retargetDirective documents source part.2).toList) ++
      outline.tail)

end Transclusion.Permalink
