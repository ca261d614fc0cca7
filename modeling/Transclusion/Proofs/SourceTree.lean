import Transclusion.Proofs.Resolver
import Transclusion.Proofs.Stage.Rendering
import Transclusion.SourceTree

/-!
# Writing a document and loading it again

* `SourceTree.documentOf_render_iff` — when a document comes back from the file it is written to.

Of a document that is loaded, front matter was split off once. Its text may open with another block,
and in a file that block cannot be told from the metadata of the document: writing merges it into
them. So a document comes back exactly if its text has no front matter of its own.
-/

namespace Transclusion

namespace FrontMatter

/-- A body is shorter than the text it is split off, by the first line at least. -/
theorem length_lt_of_split? {cs header body : List Char} (h : split? cs = some (header, body)) :
    body.length < cs.length := by
  rw [split?] at h
  split at h
  · exact nomatch h
  · next newline rest hrest =>
    split at h
    · have hbody := (suffix_of_splitHeader? h).length_le
      have hcs := (hrest ▸ suffix_afterLine cs : newline :: rest <:+ cs).length_le
      rw [List.length_cons] at hcs
      omega
    · exact nomatch h

/-- A text with front matter is not its own body. -/
theorem body_ne_of_isPresent {text : String} {parsed : Parsed} (hpresent : isPresent text)
    (h : parse text = .ok parsed) : parsed.body ≠ text := by
  intro heq
  rw [isPresent, Option.isSome_iff_exists] at hpresent
  obtain ⟨⟨header, body⟩, hsplit⟩ := hpresent
  rw [parse, hsplit] at h
  obtain ⟨metadata, -, rfl⟩ := map_eq_ok.mp h
  have hlength := length_lt_of_split? hsplit
  rw [← heq, String.toList_ofList] at hlength
  exact Nat.lt_irrefl _ hlength

end FrontMatter

namespace SourceTree

variable {key : String} {document : Document}

/-- Markdown is loaded as what it reads as, without its front matter. -/
theorem documentOf_eq_ok_iff (hkey : Key.markdownSuffix.toList.isSuffixOf key.toList)
    {text : String} :
    documentOf key text = .ok document ↔
      FrontMatter.parse text = .ok ⟨document.content, document.metadata⟩ := by
  rw [documentOf, if_pos hkey]
  cases FrontMatter.parse text with
  | error error => simp
  | ok parsed =>
    obtain ⟨body, metadata⟩ := parsed
    obtain ⟨content, others⟩ := document
    simp

/-- A document whose text has no front matter comes back from its file. -/
theorem documentOf_render_of_not_isPresent
    (hkey : Key.markdownSuffix.toList.isSuffixOf key.toList)
    (hback : document.metadata ≠ .empty → FrontMatter.ReadsBack document.metadata)
    (habsent : ¬ FrontMatter.isPresent document.content) :
    ∃ file, document.render key = .ok file ∧ documentOf key file = .ok document := by
  obtain ⟨content, metadata⟩ := document
  refine ⟨_, Document.render_of_not_isPresent habsent metadata key, ?_⟩
  rw [documentOf_eq_ok_iff hkey]
  by_cases hnone : metadata = .empty
  · subst hnone
    exact FrontMatter.parse_of_not_isPresent habsent
  · exact FrontMatter.parse_serialize hnone (hback hnone) content

/-- A document whose text has front matter does not come back: in its file that is merged into the
metadata, and what is loaded has a shorter text. -/
theorem not_documentOf_render_of_isPresent
    (hkey : Key.markdownSuffix.toList.isSuffixOf key.toList)
    (hback : ∀ metadata, document.frontMatter = .ok metadata → metadata ≠ .empty →
      FrontMatter.ReadsBack metadata)
    (hpresent : FrontMatter.isPresent document.content) {file : String}
    (hrender : document.render key = .ok file) : documentOf key file ≠ .ok document := by
  rw [Ne, documentOf_eq_ok_iff hkey]
  intro hload
  unfold Document.render at hrender
  split at hrender
  · -- without metadata the file is the text itself
    cases hrender
    exact FrontMatter.body_ne_of_isPresent hpresent hload rfl
  · next hsome =>
    split at hrender
    · exact nomatch hrender
    · next parsed hparsed =>
      cases hrender
      have hmerged : document.frontMatter =
          .ok (Metadata.merge document.metadata parsed.metadata) := by
        rw [Document.frontMatter, hparsed]
        rfl
      have hne := Metadata.merge_ne_empty hsome parsed.metadata
      rw [FrontMatter.parse_serialize hne (hback _ hmerged hne)] at hload
      have hbody := (FrontMatter.Parsed.mk.inj (Except.ok.inj hload)).1
      exact FrontMatter.body_ne_of_isPresent hpresent hparsed hbody

/-- A document that was loaded can be written to a file that loads as the same document exactly if
its text has no front matter of its own. What is written in front of it then reads back. -/
theorem documentOf_render_iff (hkey : Key.markdownSuffix.toList.isSuffixOf key.toList)
    {text : String} (hload : documentOf key text = .ok document)
    (hback : ∀ metadata, document.frontMatter = .ok metadata → metadata ≠ .empty →
      FrontMatter.ReadsBack metadata) :
    (∃ file, document.render key = .ok file ∧ documentOf key file = documentOf key text) ↔
      ¬ FrontMatter.isPresent document.content := by
  rw [hload]
  constructor
  · intro hcomesBack hpresent
    obtain ⟨file, hrender, hfile⟩ := hcomesBack
    exact not_documentOf_render_of_isPresent hkey hback hpresent hrender hfile
  · intro habsent
    refine documentOf_render_of_not_isPresent hkey (fun hne => ?_) habsent
    refine hback _ ?_ hne
    rw [Document.frontMatter, FrontMatter.parse_of_not_isPresent habsent]
    rfl

/-- Blanks behind the marks, lines that end in carriage returns, no newline at the end, and a body
that begins with a mark that nothing closes. -/
theorem documentOf_render_iff_open_body :
    let text := "--- \na: 1\r\nb: [x, null]\r\n...\t\n---\r\nB"
    let document : Document :=
      ⟨"---\r\nB", ⟨[("a", .int 1), ("b", .list [.str "x", .null])], by decide⟩⟩
    Key.markdownSuffix.toList.isSuffixOf "p.md".toList ∧
    documentOf "p.md" text = .ok document ∧
    (∀ metadata, document.frontMatter = .ok metadata → metadata ≠ .empty →
      FrontMatter.ReadsBack metadata) ∧
    ¬ FrontMatter.isPresent document.content ∧
    ∃ file, document.render "p.md" = .ok file ∧
      documentOf "p.md" file = documentOf "p.md" text := by
  intro text document
  have hload : documentOf "p.md" text = .ok document := by decide +kernel
  have hmerged : document.frontMatter = .ok document.metadata := by decide +kernel
  have hback : ∀ metadata, document.frontMatter = .ok metadata → metadata ≠ .empty →
      FrontMatter.ReadsBack metadata := by
    intro metadata h _
    obtain rfl := Except.ok.inj (hmerged.symm.trans h)
    exact ⟨by decide +kernel, by decide +kernel⟩
  have habsent : ¬ FrontMatter.isPresent document.content := by decide +kernel
  exact ⟨by decide, hload, hback, habsent,
    (documentOf_render_iff (by decide) hload hback).mpr habsent⟩

/-- Texts that load, but not from the files of their documents: one with a second block, which is
merged into the metadata; one where that block is no YAML, so that there is no file; and one with
metadata whose last break is none of a line, which gets a newline behind it. All metadata read back
from the YAML texts they are written as. -/
theorem documentOf_render_ne :
    let twice : Document := ⟨"---\nb: 2\n---\nB", ⟨[("a", .int 1)], by decide⟩⟩
    let broken : Document := ⟨"---\n[\n---\nB", twice.metadata⟩
    let separated : Document := ⟨"B", ⟨[("k", .str "a\n\u2028")], by decide⟩⟩
    (∀ m ∈ [twice.metadata, twice.metadata.merge ⟨[("b", .int 2)], by decide⟩, separated.metadata],
      Yaml.read (Yaml.write m) = .ok (.map m) ∧
        ∀ cs ∈ Text.fields '\n' (Yaml.write m).toList, ¬ FrontMatter.isClosing cs) ∧
    documentOf "p.md" "---\na: 1\n---\n---\nb: 2\n---\nB" = .ok twice ∧
    twice.render "p.md" = .ok "---\na: 1\nb: 2\n---\nB" ∧
    documentOf "p.md" "---\na: 1\nb: 2\n---\nB" =
      .ok ⟨"B", ⟨[("a", .int 1), ("b", .int 2)], by decide⟩⟩ ∧
    documentOf "p.md" "---\na: 1\n---\n---\n[\n---\nB" = .ok broken ∧
    (broken.render "p.md").isOk = false ∧
    documentOf "p.md" "---\nk: \"a\\n\\L\"\n---\nB" = .ok separated ∧
    separated.render "p.md" = .ok "---\nk: |+\n  a\n\u2028\n---\nB" ∧
    documentOf "p.md" "---\nk: |+\n  a\n\u2028\n---\nB" =
      .ok ⟨"B", ⟨[("k", .str "a\n\u2028\n")], by decide⟩⟩ := by
  decide +kernel

end SourceTree

end Transclusion
