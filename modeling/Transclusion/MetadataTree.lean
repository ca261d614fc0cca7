import Transclusion.Document
import Transclusion.Error
import Transclusion.FrontMatter
import Transclusion.Key

/-!
# Metadata trees

The metadata of transcluded fragments, nested by the segments of their keys: fragments
`section/f.md` and `section/g.md` give one field `section` with the fields `f.md` and `g.md`.

* `MetadataTree.insert`, `MetadataTree.get?` — recording and looking up a fragment;
* `MetadataTree.attach` — the tree laid into the reserved field of a document's metadata;
* `MetadataTree.attachToContent` — the same for the front matter at the start of a text.
-/

namespace Transclusion

/-- The metadata of fragments under the segments of their keys. -/
@[ext]
structure MetadataTree extends Metadata
  deriving DecidableEq, Repr

namespace MetadataTree

/-- The tree without fragments. -/
def empty : MetadataTree := ⟨.empty⟩

instance : Inhabited MetadataTree := ⟨empty⟩

/-- Whether nothing was recorded. -/
def isEmpty (tree : MetadataTree) : Bool :=
  tree.fields.isEmpty

/-- The fields of a mapping; another value has none. -/
def fieldsOf : Option Value → Mapping
  | some (.map fields) => fields
  | _ => []

/-- Lays a mapping over what stands at the end of a path. Whatever else than a mapping is on the way
gives way to one. -/
def insertAt (fields : Mapping) (level : Mapping) : List String → Mapping
  | [] => level
  | [leaf] => level.insert leaf (Mapping.overlay (level.get? leaf) (.map fields))
  | segment :: path =>
      level.insert segment (.map (insertAt fields (fieldsOf (level.get? segment)) path))

theorem fieldsOf_map (fields : Mapping) : fieldsOf (some (.map fields)) = fields := rfl

theorem fieldsOf_of_ne_map {value : Option Value} (h : ∀ fields, value ≠ some (.map fields)) :
    fieldsOf value = [] := by
  unfold fieldsOf
  split
  · exact absurd rfl (h _)
  · rfl

theorem insertAt_cons {fields level : Mapping} {segment : String} {path : List String}
    (h : path ≠ []) :
    insertAt fields level (segment :: path) =
      level.insert segment (.map (insertAt fields (fieldsOf (level.get? segment)) path)) := by
  obtain ⟨next, path, rfl⟩ := List.exists_cons_of_ne_nil h
  rfl

theorem distinct_fieldsOf {value : Option Value} (h : ∀ v, value = some v → v.Distinct) :
    (fieldsOf value).Distinct := by
  by_cases hmap : ∃ fields, value = some (.map fields)
  · obtain ⟨fields, rfl⟩ := hmap
    exact Value.distinct_map.mp (h _ rfl)
  · rw [fieldsOf_of_ne_map fun fields heq => hmap ⟨fields, heq⟩]
    exact Mapping.distinct_nil

theorem distinct_insertAt {fields level : Mapping} (hfields : fields.Distinct)
    (hlevel : level.Distinct) (path : List String) : (insertAt fields level path).Distinct := by
  induction path generalizing level with
  | nil => exact hlevel
  | cons segment path ih =>
    by_cases hlast : path = []
    · subst hlast
      exact hlevel.insert (Mapping.distinct_overlay (fun v hv => hlevel.get? hv)
        (Value.distinct_map.mpr hfields)) _
    · rw [insertAt_cons hlast]
      exact hlevel.insert (Value.distinct_map.mpr
        (ih (distinct_fieldsOf fun v hv => hlevel.get? hv))) _

/-- Records the metadata of the fragment at `key`. Empty metadata is not recorded, and a fragment
recorded again is merged. -/
def insert (tree : MetadataTree) (key : String) (metadata : Metadata) : MetadataTree :=
  if metadata = .empty then tree
  else
    ⟨insertAt metadata tree.fields (Key.segments key),
      distinct_insertAt metadata.distinct tree.distinct (Key.segments key)⟩

/-- The value at the end of a path. -/
def valueAt? (level : Mapping) : List String → Option Value
  | [] => none
  | [leaf] => level.get? leaf
  | segment :: path =>
      match level.get? segment with
      | some (.map fields) => valueAt? fields path
      | _ => none

/-- The value recorded at the path that a key spells. -/
def get? (tree : MetadataTree) (key : String) : Option Value :=
  valueAt? tree.fields (Key.segments key)

/-- Lays a tree into the reserved field of the metadata of `document`: over the mapping there, or as
a new field. Anything else there is a conflict. Other fields are not touched, and an empty tree
changes nothing. -/
def attach (tree : MetadataTree) (reserved document : String) (metadata : Metadata) :
    Except Error Metadata :=
  if tree.isEmpty then .ok metadata
  else
    match hget : metadata.fields.get? reserved with
    | none =>
      .ok (metadata.insert reserved (.map tree.fields) (Value.distinct_map.mpr tree.distinct))
    | some (.map existing) =>
        .ok (metadata.insert reserved (.map (Mapping.merge existing tree.fields))
          (Value.distinct_map.mpr ((metadata.distinct.of_get?_map hget).merge tree.distinct)))
    | some _ => .error (.reservedKeyConflict document reserved)

/-- Lays a tree into the front matter at the start of the content of `document`, which gets a block
if it has none. -/
def attachToContent (tree : MetadataTree) (reserved document content : String) :
    Except Error String :=
  if tree.isEmpty then .ok content
  else
    match FrontMatter.parse content with
    | .error error => .error (.invalidFrontMatter document document error.message)
    | .ok parsed => do
        let metadata ← tree.attach reserved document parsed.metadata
        return FrontMatter.serialize parsed.body metadata

end MetadataTree

/-- The text of the document at `key` as a file: its metadata as front matter, with any front matter
that its content opens with laid over them. -/
def Document.render (document : Document) (key : String) : Except Error String :=
  if document.metadata = .empty then .ok document.content
  else
    match FrontMatter.parse document.content with
    | .error error => .error (.invalidFrontMatter key key error.message)
    | .ok parsed =>
        .ok (FrontMatter.serialize parsed.body
          (Metadata.merge document.metadata parsed.metadata))

end Transclusion
