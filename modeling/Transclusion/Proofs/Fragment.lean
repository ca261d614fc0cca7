import Transclusion.Proofs.FrontMatter
import Transclusion.Proofs.Mapping
import Transclusion.Proofs.Resolver

/-!
# The fragment of a document, whole and taken apart

The fragment of a document is built in one of two ways: whole, with all metadata in front of its
body, or taken apart into body and metadata. Each has its own path from the document to the
fragment, and each of them treats metadata and front matter in its own way.

* `Document.FragmentsAgree` — both ways tell the same: the whole text is taken apart into the body
  and the metadata of the other fragment, or it cannot be read for the same reason;
* `Document.fragmentsAgree_iff` — when they do.

They can only come apart where metadata are written as a text, and that text is not read back as it
stands in the fragment (`Document.fragments_disagree`).
-/

namespace Transclusion

namespace Document

variable {document : Document}

/-- The two ways to build the fragment of a document tell the same. -/
structure FragmentsAgree (document : Document) (source key : String) : Prop where
  /-- Where the document can be taken apart, so can its whole text, with the same outcome. -/
  splits : ∀ apart, document.fragment true source key = .ok apart →
    ∃ whole, document.fragment false source key = .ok whole ∧
      FrontMatter.parse whole.content = .ok ⟨apart.content, apart.metadata⟩
  /-- Where it cannot, there is no whole text either, or it cannot be taken apart for the same
  reason. -/
  unreadable : ∀ e, document.fragment true source key = .error e →
    document.fragment false source key = .error e ∨
      ∃ whole error, document.fragment false source key = .ok whole ∧
        FrontMatter.parse whole.content = .error error ∧
        e = .invalidFrontMatter source key error.message

/-! ## What the fragments are -/

section Fragments

variable (source key : String)

theorem fragment_true_of_parse {parsed : FrontMatter.Parsed}
    (h : FrontMatter.parse document.content = .ok parsed) :
    document.fragment true source key =
      .ok ⟨some key, parsed.body, Metadata.merge document.metadata parsed.metadata⟩ := by
  rw [fragment, if_pos rfl, Fragment.extracted, h]

theorem fragment_true_of_parse_error {error : FrontMatter.Error}
    (h : FrontMatter.parse document.content = .error error) :
    document.fragment true source key = .error (.invalidFrontMatter source key error.message) := by
  rw [fragment, if_pos rfl, Fragment.extracted, h]

/-- Without metadata the whole fragment is the text as it is. -/
theorem fragment_false_of_no_metadata (h : document.metadata = .empty) :
    document.fragment false source key = .ok ⟨some key, document.content, .empty⟩ := by
  rw [fragment, if_neg Bool.false_ne_true, Fragment.whole, h]
  rfl

/-- With metadata it is the body with all metadata in front of it. -/
theorem fragment_false_of_parse {parsed : FrontMatter.Parsed} (hsome : document.metadata ≠ .empty)
    (h : FrontMatter.parse document.content = .ok parsed) :
    document.fragment false source key =
      .ok ⟨some key, FrontMatter.serialize parsed.body
        (Metadata.merge document.metadata parsed.metadata), .empty⟩ := by
  rw [fragment, if_neg Bool.false_ne_true, Fragment.whole, if_neg hsome, h]

theorem fragment_false_of_parse_error {error : FrontMatter.Error}
    (hsome : document.metadata ≠ .empty)
    (h : FrontMatter.parse document.content = .error error) :
    document.fragment false source key =
      .error (.invalidFrontMatter source key error.message) := by
  rw [fragment, if_neg Bool.false_ne_true, Fragment.whole, if_neg hsome, h]

end Fragments

/-! ## When they agree -/

variable {source key : String}

/-- Without metadata the text is taken apart as it is, in both ways. -/
theorem fragmentsAgree_of_no_metadata (hnone : document.metadata = .empty) :
    document.FragmentsAgree source key := by
  have hwhole := fragment_false_of_no_metadata source key hnone
  cases hparse : FrontMatter.parse document.content with
  | error error =>
    have hapart := fragment_true_of_parse_error source key hparse
    constructor
    · intro apart h
      exact nomatch hapart.symm.trans h
    · intro e h
      obtain rfl := Except.error.inj (hapart.symm.trans h)
      exact .inr ⟨_, error, hwhole, hparse, rfl⟩
  | ok parsed =>
    have hapart := fragment_true_of_parse source key hparse
    constructor
    · intro apart h
      obtain rfl := Except.ok.inj (hapart.symm.trans h)
      refine ⟨_, hwhole, ?_⟩
      rw [hnone, Metadata.empty_merge]
      exact hparse
    · intro e h
      exact nomatch hapart.symm.trans h

/-- A text that cannot be taken apart is the same error in both ways, if there are metadata. -/
theorem fragmentsAgree_of_parse_error {error : FrontMatter.Error}
    (hsome : document.metadata ≠ .empty)
    (hparse : FrontMatter.parse document.content = .error error) :
    document.FragmentsAgree source key := by
  have hapart := fragment_true_of_parse_error source key hparse
  constructor
  · intro apart h
    exact nomatch hapart.symm.trans h
  · intro e h
    rw [fragment_false_of_parse_error source key hsome hparse, ← hapart]
    exact .inl h

/-- With metadata all depends on what is written in front of the body. -/
theorem fragmentsAgree_iff_parse_serialize {parsed : FrontMatter.Parsed}
    (hsome : document.metadata ≠ .empty)
    (hparse : FrontMatter.parse document.content = .ok parsed) :
    document.FragmentsAgree source key ↔
      FrontMatter.parse (FrontMatter.serialize parsed.body
          (Metadata.merge document.metadata parsed.metadata)) =
        .ok ⟨parsed.body, Metadata.merge document.metadata parsed.metadata⟩ := by
  have hapart := fragment_true_of_parse source key hparse
  have hwhole := fragment_false_of_parse source key hsome hparse
  constructor
  · intro hagree
    obtain ⟨whole, h, hsplit⟩ := hagree.splits _ hapart
    obtain rfl := Except.ok.inj (hwhole.symm.trans h)
    exact hsplit
  · intro hsplit
    constructor
    · intro apart h
      obtain rfl := Except.ok.inj (hapart.symm.trans h)
      exact ⟨_, hwhole, hsplit⟩
    · intro e h
      exact nomatch hapart.symm.trans h

/-- The fragment of a document that is taken apart and the whole one agree exactly if the metadata
that are written in front of a body read back as they stand there. Only a document with metadata has
any written, and only if its text can be read. -/
theorem fragmentsAgree_iff
    (hopen : document.metadata ≠ .empty → ∀ metadata, document.frontMatter = .ok metadata →
      FrontMatter.LeavesOpen (Yaml.write metadata)) :
    document.FragmentsAgree source key ↔
      (document.metadata ≠ .empty → ∀ metadata, document.frontMatter = .ok metadata →
        Yaml.read (FrontMatter.withNewline (Yaml.write metadata)) = .ok (.map metadata)) := by
  by_cases hnone : document.metadata = .empty
  · exact iff_of_true (fragmentsAgree_of_no_metadata hnone) fun hsome => absurd hnone hsome
  · cases hparse : FrontMatter.parse document.content with
    | error error =>
      refine iff_of_true (fragmentsAgree_of_parse_error hnone hparse) fun _ metadata h => ?_
      rw [frontMatter, hparse] at h
      cases h
    | ok parsed =>
      have hfront : document.frontMatter =
          .ok (Metadata.merge document.metadata parsed.metadata) := by
        rw [frontMatter, hparse]
        rfl
      have hne := Metadata.merge_ne_empty hnone parsed.metadata
      rw [fragmentsAgree_iff_parse_serialize hnone hparse,
        FrontMatter.parse_serialize_eq_ok_iff hne (hopen hnone _ hfront)]
      constructor
      · intro hread _ metadata h
        obtain rfl := Except.ok.inj (hfront.symm.trans h)
        exact hread
      · intro h
        exact h hnone _ hfront

/-- Metadata and front matter that meet in a mapping, and a body that opens with another block. -/
theorem fragmentsAgree_iff_nested :
    let document : Document :=
      ⟨"---\nm: \x7bb: 2\x7d\nt: null\n---\n---\nc: 3\n...\nB",
        ⟨[("m", .map [("a", .int 1)]), ("t", .bool true)], by decide⟩⟩
    let merged : Metadata :=
      ⟨[("m", .map [("a", .int 1), ("b", .int 2)]), ("t", .null)], by decide⟩
    (document.metadata ≠ .empty → ∀ metadata, document.frontMatter = .ok metadata →
      FrontMatter.LeavesOpen (Yaml.write metadata)) ∧
    document.fragment true "p.md" "f.md" = .ok ⟨some "f.md", "---\nc: 3\n...\nB", merged⟩ ∧
    (document.fragment false "p.md" "f.md").map Fragment.content =
      .ok "---\nm:\n  a: 1\n  b: 2\nt: null\n---\n---\nc: 3\n...\nB" ∧
    document.FragmentsAgree "p.md" "f.md" := by
  intro document merged
  have hmerged : document.frontMatter = .ok merged := by decide +kernel
  have hopen : document.metadata ≠ .empty → ∀ metadata, document.frontMatter = .ok metadata →
      FrontMatter.LeavesOpen (Yaml.write metadata) := by
    intro _ metadata h
    obtain rfl := Except.ok.inj (hmerged.symm.trans h)
    decide +kernel
  refine ⟨hopen, by decide +kernel, by decide +kernel, (fragmentsAgree_iff hopen).mpr ?_⟩
  intro _ metadata h
  obtain rfl := Except.ok.inj (hmerged.symm.trans h)
  decide +kernel

/-- Metadata that read back from the YAML text they are written as, but not from a fragment, where a
newline is put behind a text that ends in a line separator. -/
theorem fragments_disagree :
    let document : Document := ⟨"B", ⟨[("k", .str "a\n\u2028")], by decide⟩⟩
    document.frontMatter = .ok document.metadata ∧
    Yaml.read (Yaml.write document.metadata) = .ok (.map document.metadata) ∧
    FrontMatter.LeavesOpen (Yaml.write document.metadata) ∧
    document.fragment true "p.md" "f.md" = .ok ⟨some "f.md", "B", document.metadata⟩ ∧
    document.fragment false "p.md" "f.md" =
      .ok ⟨some "f.md", "---\nk: |+\n  a\n\u2028\n---\nB", .empty⟩ ∧
    FrontMatter.parse "---\nk: |+\n  a\n\u2028\n---\nB" =
      .ok ⟨"B", ⟨[("k", .str "a\n\u2028\n")], by decide⟩⟩ ∧
    ¬ document.FragmentsAgree "p.md" "f.md" := by
  intro document
  have hapart : document.fragment true "p.md" "f.md" =
      .ok ⟨some "f.md", "B", document.metadata⟩ := by decide +kernel
  have hwhole : document.fragment false "p.md" "f.md" =
      .ok ⟨some "f.md", "---\nk: |+\n  a\n\u2028\n---\nB", .empty⟩ := by decide +kernel
  have hparse : FrontMatter.parse "---\nk: |+\n  a\n\u2028\n---\nB" =
      .ok ⟨"B", ⟨[("k", .str "a\n\u2028\n")], by decide⟩⟩ := by decide +kernel
  refine ⟨by decide +kernel, by decide +kernel, by decide +kernel, hapart, hwhole, hparse, ?_⟩
  intro hagree
  obtain ⟨whole, h, hsplit⟩ := hagree.splits _ hapart
  obtain rfl := Except.ok.inj (hwhole.symm.trans h)
  exact absurd (hparse.symm.trans hsplit) (by decide)

end Document

end Transclusion
