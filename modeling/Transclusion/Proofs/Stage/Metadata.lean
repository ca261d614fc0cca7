import Transclusion.Proofs.Expansion.Gathering
import Transclusion.Proofs.Stage.Transaction

/-!
# Metadata of fragments in the documents of a run

Where front matter is split off, the metadata of the documents that a document pulls in end up under
its reserved field.

* `Stage.map_transclude` — transclusion is expansion, and then the tree is laid into the document;
* `Engine.Gathers` — which metadata a document has after a run, and `Stage.run_gathers` — that it
  does;
* `MetadataOutput.attach_eq_conflict`, `Stage.reservedKeyConflict_iff` — when a document whose
  reserved field holds something else than a mapping is left alone. A stage that writes only the
  content looks for that field in the content only (`Stage.content_output_replaces_occupied_field`).
-/

namespace Transclusion

open MetadataTree

/-! ## Documents -/

/-- A tree without fragments changes nothing. -/
theorem MetadataOutput.attach_of_isEmpty (output : MetadataOutput) (reserved key : String)
    {tree : MetadataTree} (h : tree.isEmpty) (document : Document) :
    output.attach reserved key tree document = .ok document := by
  rw [attach_eq_ok, MetadataTree.attach_of_isEmpty h, attachToContent, if_pos h]
  simp

/-- What a document's metadata are after a run, given what its content pulls in. -/
structure Engine.Gathers (engine : Engine) (reserved key content : String)
    (before after : Metadata) : Prop where
  /-- All that is pulled in has metadata that can be read. -/
  readable : ∀ k, engine.PullsIn (start key content) k →
    ∃ metadata, engine.Pulls (start key content) k metadata
  unchanged : (∀ k metadata, engine.Pulls (start key content) k metadata → metadata = .empty) →
    after = before
  /-- Other fields have their values and their order. -/
  others : after.fields.filter (·.1 ≠ reserved) = before.fields.filter (·.1 ≠ reserved)
  /-- The metadata of what is pulled in are merged into what was at the path that the key spells. -/
  gathered : ∀ k metadata, engine.Pulls (start key content) k metadata → metadata ≠ .empty →
    valueAt? after (reserved :: Key.segments k) =
      some (.map (Mapping.merge
        (fieldsOf (valueAt? before (reserved :: Key.segments k))) metadata))
  /-- Other paths lead to what they led to. -/
  elsewhere : ∀ path, path ≠ [] →
    (∀ k metadata, engine.Pulls (start key content) k metadata → metadata ≠ .empty →
      Diverge (Key.segments k) path) →
    valueAt? after (reserved :: path) = valueAt? before (reserved :: path)
  /-- So does the path that the key of the document itself spells. -/
  own : valueAt? after (reserved :: Key.segments key) =
    valueAt? before (reserved :: Key.segments key)

namespace Engine

variable {engine : Engine} {key content : String}

section Gathers

variable (hstays : engine.chain.all Resolver.staysInSet)
  (hextracts : engine.chain.all Resolver.extracts)
  (hnormalized : ∀ k ∈ engine.documents.keys, Key.Normalized k)
  (hapart : Key.Apart engine.documents.keys)

/-- A document that is pulled in is one of the set. -/
theorem Pulls.mem_keys {v : Visit} {k : String} {metadata : Metadata}
    (h : engine.Pulls v k metadata) : k ∈ engine.documents.keys := by
  obtain ⟨-, document, hdocument, -⟩ := h
  exact KeyMap.mem_keys_iff.mpr ⟨document, hdocument⟩

theorem Pulls.unique {v w : Visit} {k : String} {metadata metadata' : Metadata}
    (h : engine.Pulls v k metadata) (h' : engine.Pulls w k metadata') : metadata = metadata' := by
  obtain ⟨-, document, hdocument, hfront⟩ := h
  obtain ⟨-, document', hdocument', hfront'⟩ := h'
  obtain rfl := Option.some.inj (hdocument.symm.trans hdocument')
  exact Except.ok.inj (hfront.symm.trans hfront')

include hnormalized hapart in
/-- Two documents that are pulled in are one, or their keys spell diverging paths. -/
theorem Pulls.eq_or_diverge {v w : Visit} {k k' : String} {metadata metadata' : Metadata}
    (h : engine.Pulls v k metadata) (h' : engine.Pulls w k' metadata') :
    (k, metadata) = (k', metadata') ∨ Diverge (Key.segments k) (Key.segments k') := by
  by_cases heq : k = k'
  · subst heq
    exact .inl (by rw [h.unique h'])
  · exact .inr (Key.diverge_segments hnormalized hapart h.mem_keys h'.mem_keys heq)

include hstays hextracts hnormalized hapart

/-- The metadata that the tree of an expansion is laid into gather what the content pulls in. -/
theorem gathers_of_attach (hkey : key ∈ engine.documents.keys) {e : Expansion}
    (he : engine.expand key content = .ok e) {reserved : String} {before after : Metadata}
    (hattach : e.tree.attach reserved key before = .ok after) :
    engine.Gathers reserved key content before after := by
  obtain ⟨ps, hps, rfl⟩ := expand_eq_ok.mp he
  rw [tree_expansionOf] at hattach
  have hrecords : ∀ k metadata, (k, metadata) ∈ Piece.records ps ↔
      engine.Pulls (start key content) k metadata := fun k metadata =>
    mem_records_iff (v := start key content) hstays hextracts hps
  have hothers : ∀ k metadata, engine.Pulls (start key content) k metadata →
      ∀ entry ∈ Piece.records ps, entry.2 ≠ .empty →
        entry = (k, metadata) ∨ Diverge (Key.segments entry.1) (Key.segments k) :=
    fun k metadata hpulls entry hentry _ =>
      ((hrecords _ _).mp hentry).eq_or_diverge hnormalized hapart hpulls
  have hown : ∀ entry ∈ Piece.records ps, entry.2 ≠ .empty →
      Diverge (Key.segments entry.1) (Key.segments key) := fun entry hentry _ =>
    Key.diverge_segments hnormalized hapart ((hrecords _ _).mp hentry).mem_keys hkey
      (ne_of_mem_records hps hentry)
  exact
    { readable := fun k => exists_pulls hstays hextracts
      unchanged := fun hnone => attach_insertAll_of_forall_eq_empty
        (fun entry hentry => hnone _ _ ((hrecords _ _).mp hentry)) hattach
      others := filter_attach hattach
      gathered := fun k metadata hpulls hne => valueAt?_attach_of_mem hattach
        (Key.segments_ne_nil (hnormalized _ hpulls.mem_keys)) ((hrecords _ _).mpr hpulls) hne
        (hothers k metadata hpulls)
      elsewhere := fun path hpath hdiverge => valueAt?_attach_of_diverge hattach hpath
        fun entry hentry hne => hdiverge _ _ ((hrecords _ _).mp hentry) hne
      own := valueAt?_attach_of_diverge hattach
        (Key.segments_ne_nil (hnormalized key hkey)) hown }

end Gathers

end Engine

namespace Stage

variable {stage : Stage} {files : FileTree} {documents : DocumentSet}

/-- Where front matter is split off, transclusion is expansion, and then the tree is laid into the
document. -/
theorem map_transclude (hfrontmatter : stage.options.frontmatter) (files : FileTree)
    (documents : DocumentSet) (key : String) (document : Document) :
    (stage.transclude files documents key document).map (·.getD document) = (do
      let e ← (stage.engine files documents).expand key document.content
      (stage.options.output.attach stage.options.metadataKey key e.tree
        ⟨e.content, document.metadata⟩).mapError .error) := by
  rw [transclude]
  cases (stage.engine files documents).expand key document.content with
  | error error => rfl
  | ok e =>
    simp only [bind, Except.bind, hfrontmatter, if_true]
    split
    · next hsame =>
      rw [Bool.and_eq_true, decide_eq_true_eq] at hsame
      rw [MetadataOutput.attach_of_isEmpty _ _ _ hsame.1, hsame.2]
      rfl
    · cases stage.options.output.attach stage.options.metadataKey key e.tree
        ⟨e.content, document.metadata⟩ <;> rfl

/-- Where front matter is split off, a stage with the chain its options call for splits it off all
fragments. -/
theorem extracts_of_ofOptions {options : StageOptions}
    (hstage : Stage.ofOptions options = .ok stage) (hfrontmatter : options.frontmatter) :
    stage.chain.all Resolver.extracts := by
  obtain ⟨pattern, -, hstage⟩ := bind_eq_ok.mp hstage
  cases hstage
  rw [StageOptions.chain, hfrontmatter]
  cases options.sourceRoot <;> cases options.fallback <;> rfl

theorem options_of_ofOptions {options : StageOptions}
    (hstage : Stage.ofOptions options = .ok stage) : stage.options = options := by
  obtain ⟨pattern, -, hstage⟩ := bind_eq_ok.mp hstage
  cases hstage
  rfl

/-- A document that neither failed nor was skipped, and what it is after a run. -/
theorem exists_finished {report : Report} {after : DocumentSet}
    (hrun : stage.run files documents = .ok (report, after)) {key : String}
    (hkey : key ∈ report.transcluded ∨ key ∈ report.unchanged) :
    ∃ document answer, documents.get? key = some document ∧
      stage.transclude files documents key document = .ok answer ∧
      after.get? key = some (answer.getD document) := by
  obtain ⟨-, rfl, rfl⟩ := run_eq_ok.mp hrun
  obtain ⟨outcome, hmem, hdone⟩ : ∃ outcome, (key, outcome) ∈ stage.outcomes files documents ∧
      ((∃ new, outcome = .transcluded new) ∨ outcome = .unchanged) := by
    rcases hkey with hkey | hkey
    · obtain ⟨new, hnew⟩ := Report.mem_transcluded.mp hkey
      exact ⟨_, hnew, .inl ⟨new, rfl⟩⟩
    · exact ⟨_, Report.mem_unchanged.mp hkey, .inr rfl⟩
  obtain ⟨document, hget, heligible, rfl⟩ := mem_outcomes.mp hmem
  obtain ⟨answer, htransclude, hfinished⟩ := exists_transclude heligible hdone
  refine ⟨document, answer, hget, htransclude, ?_⟩
  rw [get?_update, hget, Option.map_some, hfinished]

/-- After a run that writes the metadata of documents, a document that was processed has those of
all it pulls in under the reserved field, each at the path that its key spells, merged into what was
there. Nothing else of its metadata changes. -/
theorem run_gathers {options : StageOptions} (hstage : Stage.ofOptions options = .ok stage)
    (hfrontmatter : options.frontmatter) (houtput : options.output.writesMetadata)
    (hroot : options.sourceRoot = none)
    (hnormalized : ∀ k ∈ documents.keys, Key.Normalized k) (hapart : Key.Apart documents.keys)
    {report : Report} {after : DocumentSet}
    (hrun : stage.run files documents = .ok (report, after)) {key : String}
    (hkey : key ∈ report.transcluded ∨ key ∈ report.unchanged) :
    ∃ document document', documents.get? key = some document ∧
      after.get? key = some document' ∧
      (stage.engine files documents).Gathers options.metadataKey key document.content
        document.metadata document'.metadata := by
  obtain rfl := options_of_ofOptions hstage
  obtain ⟨document, answer, hget, htransclude, hafter⟩ := exists_finished hrun hkey
  refine ⟨document, answer.getD document, hget, hafter, ?_⟩
  have hmap := map_transclude hfrontmatter files documents key document
  rw [htransclude] at hmap
  obtain ⟨e, he, hattach⟩ := bind_eq_ok.mp hmap.symm
  have hmetadata := (MetadataOutput.attach_eq_ok.mp (mapError_eq_ok.mp hattach)).1
  rw [if_pos houtput] at hmetadata
  exact Engine.gathers_of_attach (staysInSet_of_ofOptions hstage hroot)
    (extracts_of_ofOptions hstage hfrontmatter) hnormalized hapart
    (KeyMap.mem_keys_iff.mpr ⟨document, hget⟩) he hmetadata

/-- A document that pulls in one directly and by way of another, and has a field for fragments
already. -/
theorem run_gathers_nested :
    let before : DocumentSet := .ofList
      [("a/x.md", ⟨"---\nt: true\n---\nX", ⟨[("s", .int 1)], by decide⟩⟩),
        ("b.md", ⟨":[](a/x.md)", .empty⟩),
        ("p.md", ⟨":[](b.md) :[](a/x.md)",
          ⟨[("transclusions", .map [("a", .map [("x.md", .map [("s", .int 0), ("u", .null)])]),
            ("q.md", .str "kept")]), ("w", .str "W")], by decide⟩⟩)]
    let metadata : Metadata :=
      ⟨[("transclusions", .map [("a", .map [("x.md", .map
          [("s", .int 1), ("u", .null), ("t", .bool true)])]), ("q.md", .str "kept")]),
        ("w", .str "W")], by decide⟩
    ∃ stage report after, Stage.ofOptions { frontmatter := true } = .ok stage ∧
      stage.run default before = .ok (report, after) ∧ "p.md" ∈ report.transcluded ∧
      (∀ k ∈ before.keys, Key.Normalized k) ∧ Key.Apart before.keys ∧
      after.get? "p.md" = some ⟨"X X", metadata⟩ ∧
      ∃ document document', before.get? "p.md" = some document ∧
        after.get? "p.md" = some document' ∧
        (stage.engine default before).Gathers "transclusions" "p.md" document.content
          document.metadata document'.metadata := by
  intro before metadata
  have hnormalized : ∀ k ∈ before.keys, Key.Normalized k := by decide +kernel
  have hapart : Key.Apart before.keys := by decide +kernel
  have hruns : (do
      let stage ← (Stage.ofOptions { frontmatter := true }).mapError Obstacle.error
      let result ← stage.run default before
      return (result.1.transcluded, result.2.get? "p.md")) =
      .ok (["b.md", "p.md"], some ⟨"X X", metadata⟩) := by decide +kernel
  obtain ⟨stage, hstage, hruns⟩ := bind_eq_ok.mp hruns
  have hstage := mapError_eq_ok.mp hstage
  obtain ⟨⟨report, after⟩, hrun, hafter⟩ := bind_eq_ok.mp hruns
  obtain ⟨hreport, hp⟩ := Prod.mk.inj (Except.ok.inj hafter)
  have hkey : "p.md" ∈ report.transcluded := by
    rw [hreport]
    decide
  exact ⟨stage, report, after, hstage, hrun, hkey, hnormalized, hapart, hp,
    run_gathers hstage rfl rfl rfl hnormalized hapart hrun (.inl hkey)⟩

end Stage

/-! ## Occupied fields -/

/-- A tree that holds something conflicts with a content whose front matter can be read and has the
field occupied. -/
theorem MetadataTree.attachToContent_eq_conflict {tree : MetadataTree} (h : ¬ tree.isEmpty)
    (reserved document content : String) :
    tree.attachToContent reserved document content =
        .error (.reservedKeyConflict document reserved) ↔
      ∃ parsed, FrontMatter.parse content = .ok parsed ∧ parsed.metadata.Occupied reserved := by
  rw [attachToContent, if_neg h]
  cases FrontMatter.parse content with
  | error error => simp
  | ok parsed =>
    simp only [Except.ok.injEq, exists_eq_left', bind_eq_error]
    constructor
    · rintro (hconflict | ⟨metadata, -, hok⟩)
      · exact (attach_eq_error.mp hconflict).2.1
      · cases hok
    · exact fun hoccupied => .inl (attach_eq_error.mpr ⟨h, hoccupied, rfl⟩)

/-- A document with an occupied field has a conflict if its metadata are written, or if the front
matter in its content has the field occupied as well. -/
theorem MetadataOutput.attach_eq_conflict (output : MetadataOutput) {tree : MetadataTree}
    (h : ¬ tree.isEmpty) {reserved : String} (key : String) {document : Document}
    (hoccupied : document.metadata.Occupied reserved) :
    output.attach reserved key tree document = .error (.reservedKeyConflict key reserved) ↔
      output.writesMetadata ∨
      ∃ parsed, FrontMatter.parse document.content = .ok parsed ∧
        parsed.metadata.Occupied reserved := by
  have hmetadata : tree.attach reserved key document.metadata =
      .error (.reservedKeyConflict key reserved) := attach_eq_error.mpr ⟨h, hoccupied, rfl⟩
  cases output with
  | metadata => simp [attach, writesMetadata, hmetadata, bind, Except.bind]
  | both => simp [attach, writesMetadata, hmetadata, bind, Except.bind]
  | content =>
    rw [← attachToContent_eq_conflict h reserved key document.content]
    simp [attach, writesMetadata, writesContent, bind_eq_error, pure, Except.pure]

namespace Stage

/-- A document whose reserved field holds something else than a mapping, and that a fragment with
metadata is put into, fails with that conflict and is left alone exactly if its metadata are
written, or if the front matter in the content it expands to has the field occupied as well. -/
theorem reservedKeyConflict_iff {options : StageOptions}
    (hstage : Stage.ofOptions options = .ok stage) (hfrontmatter : options.frontmatter)
    {key : String} {document : Document} (hget : documents.get? key = some document) {e : Expansion}
    (he : (stage.engine files documents).expand key document.content = .ok e)
    (htree : ¬ e.tree.isEmpty) (hoccupied : document.metadata.Occupied options.metadataKey) :
    (stage.outcome files documents key document =
        .failed (.reservedKeyConflict key options.metadataKey) ∧
      ∀ report after, stage.run files documents = .ok (report, after) →
        after.get? key = some document) ↔
    options.output.writesMetadata ∨
      ∃ parsed, FrontMatter.parse e.content = .ok parsed ∧
        parsed.metadata.Occupied options.metadataKey := by
  obtain rfl := options_of_ofOptions hstage
  have hmap := map_transclude hfrontmatter files documents key document
  rw [he] at hmap
  let expanded : Document := ⟨e.content, document.metadata⟩
  have hattach : stage.options.output.attach stage.options.metadataKey key e.tree expanded =
      .error (.reservedKeyConflict key stage.options.metadataKey) ↔ _ :=
    MetadataOutput.attach_eq_conflict stage.options.output htree key hoccupied
  have htransclude : stage.transclude files documents key document =
      .error (.error (.reservedKeyConflict key stage.options.metadataKey)) ↔
      stage.options.output.attach stage.options.metadataKey key e.tree expanded =
        .error (.reservedKeyConflict key stage.options.metadataKey) := by
    rw [← map_eq_error (f := (·.getD document)), hmap]
    simp only [bind, Except.bind, mapError_eq_error, Obstacle.error.injEq, exists_eq_right',
      expanded]
  rw [← hattach, ← htransclude, outcome_eq_failed]
  constructor
  · exact fun h => h.1.1
  · intro h
    refine ⟨⟨h, fun hmissing => nomatch hmissing.1⟩, fun report after hrun => ?_⟩
    obtain ⟨-, -, rfl⟩ := run_eq_ok.mp hrun
    have hfinished : stage.finished files documents key document = document := by
      rw [finished, outcome, h]
      split <;> rfl
    rw [get?_update, hget, Option.map_some, hfinished]

/-- A stage that writes both places meets the conflict and leaves the document alone. -/
theorem reservedKeyConflict_iff_both :
    let document : Document := ⟨":[](f.md)", ⟨[("transclusions", .int 1)], by decide⟩⟩
    let documents : DocumentSet := .ofList
      [("f.md", ⟨"F", ⟨[("t", .bool true)], by decide⟩⟩), ("p.md", document)]
    let e : Expansion := ⟨"F", ⟨[("f.md", .map [("t", .bool true)])], by decide⟩, ["f.md"]⟩
    let options : StageOptions := { frontmatter := true, output := .both, errorPolicy := .collect }
    ∃ stage report after, Stage.ofOptions options = .ok stage ∧
      documents.get? "p.md" = some document ∧
      (stage.engine default documents).expand "p.md" document.content = .ok e ∧
      ¬ e.tree.isEmpty ∧ document.metadata.Occupied "transclusions" ∧
      stage.run default documents = .ok (report, after) ∧
      stage.outcome default documents "p.md" document =
        .failed (.reservedKeyConflict "p.md" "transclusions") ∧
      after.get? "p.md" = some document := by
  intro document documents e options
  have hget : documents.get? "p.md" = some document := by decide +kernel
  have hruns : (do
      let stage ← (Stage.ofOptions options).mapError Obstacle.error
      let e ← (stage.engine default documents).expand "p.md" document.content
      let result ← stage.run default documents
      return (e, result.1.isOk)) = .ok (e, false) := by decide +kernel
  obtain ⟨stage, hstage, hruns⟩ := bind_eq_ok.mp hruns
  have hstage := mapError_eq_ok.mp hstage
  obtain ⟨e', he, hruns⟩ := bind_eq_ok.mp hruns
  obtain ⟨⟨report, after⟩, hrun, hend⟩ := bind_eq_ok.mp hruns
  obtain ⟨rfl, -⟩ := Prod.mk.inj (Except.ok.inj hend)
  have htree : ¬ e.tree.isEmpty := by decide
  have hoccupied : document.metadata.Occupied "transclusions" := ⟨.int 1, rfl, nofun⟩
  have hconflict := (reservedKeyConflict_iff hstage rfl hget he htree hoccupied).mpr (.inl rfl)
  exact ⟨stage, report, after, hstage, hget, he, htree, hoccupied, hrun, hconflict.1,
    hconflict.2 report after hrun⟩

/-- A stage that writes only the content does not look at the metadata. The document is transcluded,
and its file has the tree in the place of the value that the field held. -/
theorem content_output_replaces_occupied_field :
    let document : Document := ⟨":[](f.md)", ⟨[("transclusions", .int 1)], by decide⟩⟩
    let documents : DocumentSet := .ofList
      [("f.md", ⟨"F", ⟨[("t", .bool true)], by decide⟩⟩), ("p.md", document)]
    let options : StageOptions := { frontmatter := true, output := .content }
    document.metadata.Occupied options.metadataKey ∧
    ∃ stage e report after document', Stage.ofOptions options = .ok stage ∧
      (stage.engine default documents).expand "p.md" document.content = .ok e ∧
      ¬ e.tree.isEmpty ∧
      stage.run default documents = .ok (report, after) ∧ report.failures = [] ∧
      after.get? "p.md" = some document' ∧ document' ≠ document ∧
      document'.render "p.md" = .ok "---\ntransclusions:\n  f.md:\n    t: true\n---\nF" := by
  intro document documents options
  have hoccupied : document.metadata.Occupied options.metadataKey := ⟨.int 1, rfl, nofun⟩
  let document' : Document :=
    ⟨"---\ntransclusions:\n  f.md:\n    t: true\n---\nF", document.metadata⟩
  have hruns : (do
      let stage ← (Stage.ofOptions options).mapError Obstacle.error
      let e ← (stage.engine default documents).expand "p.md" document.content
      let result ← stage.run default documents
      return (e.tree.isEmpty, result.1.failures, result.2.get? "p.md")) =
      .ok (false, [], some document') := by decide +kernel
  obtain ⟨stage, hstage, hruns⟩ := bind_eq_ok.mp hruns
  have hstage := mapError_eq_ok.mp hstage
  obtain ⟨e, he, hruns⟩ := bind_eq_ok.mp hruns
  obtain ⟨⟨report, after⟩, hrun, hend⟩ := bind_eq_ok.mp hruns
  simp only [pure, Except.pure, Except.ok.injEq, Prod.mk.injEq] at hend
  obtain ⟨htree, hfailures, hafter⟩ := hend
  refine ⟨hoccupied, stage, e, report, after, document', hstage, he, ?_, hrun, hfailures, hafter,
    by decide +kernel, by decide +kernel⟩
  simp [htree]

end Stage

end Transclusion
