import Transclusion.Text.Fields

/-!
# Document keys

A document key is a text of segments separated by `/`, such as `docs/guide/intro.md`. A key is
*normalized* when it is not empty and none of its segments is empty, `.` or `..`; the keys of a
well-kept document set are normalized, and `join` keeps them so.

* `parent` — the directory part of a key;
* `segments` — the non-empty segments of a key;
* `join source target` — the key a target denotes when it stands in the document at `source`;
  none when the target climbs above the root;
* `ofPath` — the key of a file path.
-/

namespace Transclusion.Key

/-- The suffix of markdown documents, which a target may leave out. -/
def markdownSuffix : String := ".md"

/-- The name of the document that stands for its directory. -/
def indexName : String := "index.md"

/-- The text before the last `/`; nothing when there is none. -/
def parentChars (key : List Char) : List Char :=
  Text.unite ['/'] (Text.fields '/' key).dropLast

/-- The directory part of a key. -/
def parent (key : String) : String :=
  String.ofList (parentChars key.toList)

/-- The non-empty parts of a text between its slashes. -/
def segmentChars (key : List Char) : List (List Char) :=
  (Text.fields '/' key).filter (· ≠ [])

/-- The non-empty segments of a key. -/
def segments (key : String) : List String :=
  (segmentChars key.toList).map String.ofList

/-- One step of a walk through directories: an empty segment and `.` stay, `..` leaves the
current directory, and any other segment enters one. There is no way out of the root. -/
def step (directory : List (List Char)) (segment : List Char) : Option (List (List Char)) :=
  if segment = [] ∨ segment = ['.'] then some directory
  else if segment = ['.', '.'] then
    if directory = [] then none else some directory.dropLast
  else some (directory ++ [segment])

/-- The segments of the directory a target starts from, and the target without its leading `/`:
a target that starts with `/` starts from the root. -/
def origin (source target : List Char) : List (List Char) × List Char :=
  match target with
  | '/' :: rooted => ([], rooted)
  | _ => (segmentChars (parentChars source), target)

/-- The segments that a target reaches from the document at `source`. -/
def joinChars (source target : List Char) : Option (List (List Char)) :=
  (Text.fields '/' (origin source target).2).foldlM step (origin source target).1

/-- The key that a target denotes in the document at `source`: the walk starts in the directory
of `source`, or at the root when the target starts with `/`. None when it climbs above the
root. -/
def join (source target : String) : Option String :=
  (joinChars source.toList target.toList).map fun segments =>
    String.ofList (Text.unite ['/'] segments)

/-- The key of a file path: a backslash counts as a separator. -/
def ofPath (path : String) : String :=
  String.ofList (path.toList.map fun c => if c = '\\' then '/' else c)

/-- The segment is the name of something below its directory. -/
def IsName (segment : List Char) : Prop :=
  segment ≠ [] ∧ segment ≠ ['.'] ∧ segment ≠ ['.', '.'] ∧ '/' ∉ segment

/-- The key is a non-empty sequence of names. -/
def Normalized (key : String) : Prop :=
  key ≠ "" ∧ ∀ segment ∈ Text.fields '/' key.toList, IsName segment

instance (segment : List Char) : Decidable (IsName segment) :=
  inferInstanceAs (Decidable (_ ∧ _ ∧ _ ∧ _))

instance (key : String) : Decidable (Normalized key) :=
  inferInstanceAs (Decidable (_ ∧ _))

end Transclusion.Key
