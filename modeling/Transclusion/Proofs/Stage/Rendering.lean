import Transclusion.Proofs.FrontMatter
import Transclusion.Proofs.MetadataTree
import Transclusion.Proofs.Stage.Outcomes

/-!
# The file of a document with the metadata of fragments

The metadata of fragments go into the metadata of a document, into the front matter of its content,
or into both. When the document is written to a file, its metadata and that front matter are merged,
and the file is the same.

* `MetadataOutput.render_attach` — the file for any output.

In the content the tree is written as a text and read again, so it must read back. That is asked of
the header as it stands in the file. A text that ends in a break other than a newline gets a newline
there, and that can be a break more to the value before it: then the outputs differ
(`MetadataOutput.render_attach_ne`).
-/

namespace Transclusion

open MetadataTree

namespace FrontMatter

theorem parse_of_not_isPresent {text : String} (h : ¬ isPresent text) :
    parse text = .ok ⟨text, .empty⟩ := by
  rw [isPresent, Bool.not_eq_true, Option.isSome_eq_false_iff, Option.isNone_iff_eq_none] at h
  rw [parse, h]

end FrontMatter

/-! ## Files -/

/-- The file of a document without front matter in its content. -/
theorem Document.render_of_not_isPresent {body : String} (hbody : ¬ FrontMatter.isPresent body)
    (metadata : Metadata) (key : String) :
    (⟨body, metadata⟩ : Document).render key = .ok (FrontMatter.serialize body metadata) := by
  rw [Document.render]
  by_cases hnone : metadata = .empty
  · subst hnone
    rfl
  · rw [if_neg hnone, FrontMatter.parse_of_not_isPresent hbody]
    simp

/-- The file of a document with front matter that reads back in its content: it is merged into the
metadata. -/
theorem Document.render_serialize {header : Metadata} (hne : header ≠ .empty)
    (hback : FrontMatter.ReadsBack header) (body : String) (metadata : Metadata) (key : String) :
    (⟨FrontMatter.serialize body header, metadata⟩ : Document).render key =
      .ok (FrontMatter.serialize body (Metadata.merge metadata header)) := by
  rw [Document.render]
  by_cases hnone : metadata = .empty
  · subst hnone
    rw [Metadata.empty_merge]
    rfl
  · rw [if_neg hnone, FrontMatter.parse_serialize hne hback]

namespace MetadataOutput

variable {tree : MetadataTree} {reserved body : String} {metadata : Metadata}

/-- Whatever the output, the file is the body with the tree merged into the metadata in front of it.
The field is free or holds a mapping, the body has no front matter of its own, and what the content
has then reads back. -/
theorem render_attach (output : MetadataOutput) (key : String)
    (hfree : ¬ metadata.Occupied reserved) (hbody : ¬ FrontMatter.isPresent body)
    (htree : ¬ tree.isEmpty) (hback : FrontMatter.ReadsBack (tree.under reserved)) :
    (do
      let document ← output.attach reserved key tree ⟨body, metadata⟩
      document.render key) =
      .ok (FrontMatter.serialize body (Metadata.merge metadata (tree.under reserved))) := by
  have hmetadata : tree.attach reserved key metadata =
      .ok (Metadata.merge metadata (tree.under reserved)) :=
    (MetadataTree.attach_eq_ok htree).mpr ⟨hfree, rfl⟩
  have hcontent : tree.attachToContent reserved key body =
      .ok (FrontMatter.serialize body (tree.under reserved)) := by
    have hempty : ¬ Metadata.empty.Occupied reserved := by
      rintro ⟨value, hget, -⟩
      exact nomatch hget
    have hheader : tree.attach reserved key .empty = .ok (tree.under reserved) :=
      (MetadataTree.attach_eq_ok htree).mpr ⟨hempty, (Metadata.empty_merge _).symm⟩
    rw [attachToContent, if_neg htree, FrontMatter.parse_of_not_isPresent hbody]
    simp only [hheader]
    rfl
  cases output with
  | metadata =>
    simp only [attach, writesMetadata, writesContent, hmetadata]
    exact Document.render_of_not_isPresent hbody _ key
  | content =>
    simp only [attach, writesMetadata, writesContent, hcontent]
    exact Document.render_serialize (under_ne_empty tree reserved) hback body metadata key
  | both =>
    simp only [attach, writesMetadata, writesContent, hmetadata, hcontent]
    -- the tree is merged in a second time
    have hfile := Document.render_serialize (under_ne_empty tree reserved) hback body
      (Metadata.merge metadata (tree.under reserved)) key
    rw [Metadata.merge_merge_self] at hfile
    exact hfile

/-- A field with the metadata of another fragment, and both places written. -/
theorem render_attach_both :
    let tree : MetadataTree := ⟨[("f.md", .map [("t", .bool true)])], by decide⟩
    let metadata : Metadata := ⟨[("tr", .map [("g.md", .null)]), ("z", .int 1)], by decide⟩
    ¬ metadata.Occupied "tr" ∧ ¬ FrontMatter.isPresent "B" ∧ ¬ tree.isEmpty ∧
    FrontMatter.ReadsBack (tree.under "tr") ∧
    (do
      let document ← MetadataOutput.both.attach "tr" "p.md" tree ⟨"B", metadata⟩
      document.render "p.md") =
      .ok "---\ntr:\n  g.md: null\n  f.md:\n    t: true\nz: 1\n---\nB" := by
  intro tree metadata
  have hfree : ¬ metadata.Occupied "tr" := by
    rintro ⟨value, hget, hother⟩
    obtain rfl := Option.some.inj hget
    exact hother _ rfl
  have hbody : ¬ FrontMatter.isPresent "B" := by decide
  have htree : ¬ tree.isEmpty := by decide
  have hback : FrontMatter.ReadsBack (tree.under "tr") :=
    ⟨by decide +kernel, by decide +kernel⟩
  refine ⟨hfree, hbody, htree, hback, ?_⟩
  rw [render_attach .both "p.md" hfree hbody htree hback]
  decide +kernel

/-- A text that is written as a literal block and ends in a line separator. All metadata read back
from the YAML texts they are written as. But in the header of the content that text comes last, so a
newline is added behind it, and read again it has one newline more. -/
theorem render_attach_ne :
    let tree : MetadataTree := ⟨[("f.md", .map [("k", .str "a\n\u2028")])], by decide⟩
    let metadata : Metadata := ⟨[("tr", .map []), ("z", .int 1)], by decide⟩
    let file (output : MetadataOutput) : Except Error String := do
      let document ← output.attach "tr" "p.md" tree ⟨"B", metadata⟩
      document.render "p.md"
    metadata.fields.get? "tr" = some (.map []) ∧ ¬ FrontMatter.isPresent "B" ∧ ¬ tree.isEmpty ∧
    (∀ m ∈ [metadata, tree.toMetadata, tree.under "tr",
        metadata.merge (tree.under "tr")],
      Yaml.read (Yaml.write m) = .ok (.map m) ∧
        ∀ cs ∈ Text.fields '\n' (Yaml.write m).toList, ¬ FrontMatter.isClosing cs) ∧
    file .metadata = .ok "---\ntr:\n  f.md:\n    k: |+\n      a\n\u2028z: 1\n---\nB" ∧
    file .content = .ok "---\ntr:\n  f.md:\n    k: |+\n      a\n\u2028\nz: 1\n---\nB" ∧
    file .both = file .content := by
  decide +kernel

end MetadataOutput

end Transclusion
