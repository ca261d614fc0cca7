import Transclusion.Proofs.Expansion.Seams
import Transclusion.Proofs.FrontMatter
import Transclusion.Proofs.Permalink
import Transclusion.Proofs.Stage.Outcomes

/-!
# Running a stage again

A run leaves a set alone in which the eligible documents have no directives but URLs. Whether a run
makes such a set hangs on the places where pieces of text meet, since a text that was put together
is not scanned again.

* `Engine.expand_of_remote` — a content with nothing to expand stays as it is;
* `Stage.OnlyRemote`, `Stage.run_of_onlyRemote` — a set with nothing to do, and its run;
* `Stage.Spliced` — a directive of a finished document that came about in putting it together;
* `Stage.rerun_unchanged_iff` — a run leaves nothing to do exactly if no such directive is local.
-/

namespace Transclusion

/-! ## Contents with nothing to expand -/

namespace Engine

variable {engine : Engine}

theorem scanned_of_remote {key content : String} (h : ∀ d ∈ directives content, d.isRemote) :
    engine.scanned key content = content := by
  rw [scanned]
  split
  · exact Permalink.retarget_eq_self fun d hd => Permalink.discover_remote (h d hd)
  · rfl

/-- The pieces of a content with nothing to expand. -/
def remotePieces (content : String) : List Piece :=
  (Outline.ofText content).parts.flatMap (fun part => [.text part.1, .left part.2])
    ++ [.text (Outline.ofText content).tail]

theorem render_remotePieces (content : String) : Piece.render (remotePieces content) = content := by
  have hchars : Piece.allChars (remotePieces content) = (Outline.ofText content).toChars := by
    simp [Piece.allChars, remotePieces, List.flatMap_assoc, Piece.chars, Outline.toChars]
  rw [Piece.render, hchars, Outline.toChars_ofText, String.ofList_toList]

/-- A content with nothing to expand stays as it is. -/
theorem expand_of_remote (hbuiltIn : engine.chain.all Resolver.isBuiltIn) {key content : String}
    (h : ∀ d ∈ directives content, d.isRemote) :
    engine.expand key content = .ok ⟨content, .empty, []⟩ := by
  have hparts : ∀ build, collect (partPieces engine build [key] key)
      (Outline.ofText content).parts =
        .ok ((Outline.ofText content).parts.flatMap fun part => [.text part.1, .left part.2]) := by
    intro build
    refine collect_eq_ok_flatMap fun part hpart => ?_
    have hremote := h part.2 (List.mem_map_of_mem hpart)
    have hanswer : engine.resolve key part.2 = .ok none :=
      Resolver.resolveChain_remote hbuiltIn hremote
    exact partPieces_eq_ok.mpr
      ⟨_, directivePieces_eq_ok.mpr (.inl ⟨hanswer, hremote, rfl⟩), rfl⟩
  have hpieces : engine.fullPieces [key] key content = .ok (remotePieces content) := by
    rw [fullPieces_eq, contentPieces_eq_ok, outline, scanned_of_remote h]
    exact ⟨_, hparts _, rfl⟩
  refine expand_eq_ok.mpr ⟨_, hpieces, ?_⟩
  rw [expansionOf, render_remotePieces, Piece.foldl_gather_of_key?_eq_none]
  · rfl
  · intro p hp
    rcases List.mem_append.mp hp with hp | hp
    · obtain ⟨part, -, hp⟩ := List.mem_flatMap.mp hp
      rcases List.mem_cons.mp hp with rfl | hp
      · rfl
      · rw [List.mem_singleton.mp hp]
        rfl
    · rw [List.mem_singleton.mp hp]
      rfl

end Engine

namespace Stage

variable {stage : Stage} {files : FileTree} {documents : DocumentSet}

/-! ## Sets with nothing to do -/

/-- The eligible documents have no directives but URLs. -/
def OnlyRemote (stage : Stage) (documents : DocumentSet) : Prop :=
  ∀ key document, documents.get? key = some document → stage.isEligible key →
    ∀ d ∈ directives document.content, d.isRemote

theorem outcome_of_remote (hbuiltIn : stage.chain.all Resolver.isBuiltIn) {key : String}
    {document : Document} (h : ∀ d ∈ directives document.content, d.isRemote) :
    stage.outcome files documents key document = .unchanged := by
  have htransclude : stage.transclude files documents key document = .ok none := by
    have hexpand : (stage.engine files documents).expand key document.content =
        .ok ⟨document.content, .empty, []⟩ := Engine.expand_of_remote hbuiltIn h
    rw [transclude, hexpand]
    simp [bind, Except.bind, MetadataTree.isEmpty, MetadataTree.empty, pure, Except.pure]
  rw [outcome, htransclude]

/-- A run leaves a set with nothing to do alone. -/
theorem run_of_onlyRemote (hstays : stage.chain.all Resolver.staysInSet) (files : FileTree)
    (h : stage.OnlyRemote documents) :
    stage.run files documents =
      .ok (⟨[], documents.keys.filter stage.isEligible, [], []⟩, documents) := by
  have hunchanged : ∀ entry ∈ stage.outcomes files documents, entry.2 = .unchanged := by
    rintro ⟨key, outcome⟩ hentry
    obtain ⟨document, hget, heligible, rfl⟩ := mem_outcomes.mp hentry
    exact outcome_of_remote (Resolver.all_isBuiltIn hstays) (h key document hget heligible)
  have hreport := Report.ofOutcomes_of_unchanged hunchanged
  refine run_eq_ok.mpr ⟨ending?_eq_none_iff.mpr ⟨fun entry hentry => ?_, fun _ => ?_⟩, ?_,
    (update_of_unchanged fun entry hentry => ?_).symm⟩
  · rw [hunchanged entry hentry]
    exact nofun
  · rw [hreport]
  · rw [hreport, keys_outcomes]
  · rw [hunchanged entry hentry]
    rfl

/-! ## Finished documents -/

/-- The document that takes the place of another has its expansion as content, or that with its
front matter written anew. -/
theorem content_of_transclude {key : String} {document : Document} {answer : Option Document}
    (h : stage.transclude files documents key document = .ok answer) :
    ∃ e, (stage.engine files documents).expand key document.content = .ok e ∧
      ((answer.getD document).content = e.content ∨
        stage.options.frontmatter ∧ stage.options.output.writesContent ∧
          ∃ parsed metadata, FrontMatter.parse e.content = .ok parsed ∧
            (answer.getD document).content = FrontMatter.serialize parsed.body metadata) := by
  rw [transclude] at h
  obtain ⟨e, he, h⟩ := bind_eq_ok.mp h
  refine ⟨e, he, ?_⟩
  split at h
  · next hsame =>
    cases h
    rw [Bool.and_eq_true, decide_eq_true_eq] at hsame
    exact .inl hsame.2.symm
  · dsimp only at h
    split at h
    · next hfrontmatter =>
      obtain ⟨attached, hattach, h⟩ := bind_eq_ok.mp h
      cases h
      have hcontent := (MetadataOutput.attach_eq_ok.mp (mapError_eq_ok.mp hattach)).2
      split at hcontent
      · next hwrites =>
        rcases MetadataTree.attachToContent_eq_ok hcontent with hsame | hwritten
        · exact .inl hsame
        · exact .inr ⟨hfrontmatter, hwrites, hwritten⟩
      · exact .inl (Except.ok.inj hcontent).symm
    · cases h
      exact .inl rfl

/-- A directive that came about in putting a finished document together. The text of the document
from its start on is `cs`. -/
inductive Spliced (stage : Stage) (files : FileTree) (documents : DocumentSet) (key : String)
    (document : Document) (d : Directive) (cs : List Char) : Prop
  /-- It stands where pieces of the expansion meet. -/
  | seam {ps : List Piece}
      (hps : (stage.engine files documents).fullPieces [key] key document.content = .ok ps)
      (seam : Piece.Seam ps d cs)
  /-- It begins in the front matter that was written in front of the body. -/
  | block {e : Expansion} {parsed : FrontMatter.Parsed} {metadata : Metadata}
      (hwrites : stage.options.frontmatter ∧ stage.options.output.writesContent)
      (he : (stage.engine files documents).expand key document.content = .ok e)
      (hparsed : FrontMatter.parse e.content = .ok parsed)
      (hfinished : (stage.finished files documents key document).content =
        FrontMatter.serialize parsed.body metadata)
      (hbefore : parsed.body.toList.length < cs.length)

/-- Of two ends of a text, one is an end of the other. -/
theorem suffix_or_length_lt {cs ds text : List Char} (hcs : cs <:+ text) (hds : ds <:+ text) :
    cs <:+ ds ∨ ds.length < cs.length := by
  rcases Nat.lt_or_ge ds.length cs.length with hlonger | hshorter
  · exact .inr hlonger
  · exact .inl (List.suffix_of_suffix_length_le hcs hds hshorter)

/-- A local directive of a finished document came about in putting it together. -/
theorem spliced_of_local (hstays : stage.chain.all Resolver.staysInSet) {key : String}
    {document : Document} (heligible : stage.isEligible key)
    (hdone : (∃ finished, stage.outcome files documents key document = .transcluded finished) ∨
      stage.outcome files documents key document = .unchanged)
    {d : Directive} {cs : List Char}
    (hsite : (Outline.ofText (stage.finished files documents key document).content).Site d cs)
    (hlocal : ¬ d.isRemote) : stage.Spliced files documents key document d cs := by
  obtain ⟨answer, htransclude, hfinished⟩ := exists_transclude heligible hdone
  obtain ⟨rest, hbegins⟩ := hsite.begins (Outline.leftmost_ofText _)
  have hcs := hsite.suffix
  rw [Outline.toChars_ofText] at hcs
  obtain ⟨e, he, hcontent⟩ := content_of_transclude htransclude
  rw [← hfinished] at hcontent
  obtain ⟨ps, hps, rfl⟩ := Engine.expand_eq_ok.mp he
  have hproper := Engine.proper_of_fullPieces hstays hps
  have hrender : (Engine.expansionOf ps).content.toList = Piece.allChars ps :=
    Piece.toList_render ps
  rcases hcontent with hcontent | ⟨hfrontmatter, hwrites, parsed, metadata, hparsed, hcontent⟩
  · rw [hcontent, hrender] at hcs
    exact .seam hps (Piece.seam_of_local hproper hbegins hcs hlocal)
  · -- behind the front matter stands the body, and that is an end of the expansion
    rw [hcontent] at hcs
    rcases suffix_or_length_lt hcs (FrontMatter.suffix_serialize parsed.body metadata)
      with hbody | hbefore
    · have hsuffix := hbody.trans (FrontMatter.body_suffix_of_parse hparsed)
      rw [hrender] at hsuffix
      exact .seam hps (Piece.seam_of_local hproper hbegins hsuffix hlocal)
    · exact .block ⟨hfrontmatter, hwrites⟩ he hparsed hcontent hbefore

/-! ## Runs -/

/-- Without a directory of files, the chain of a stage stays in the set. -/
theorem staysInSet_of_ofOptions {options : StageOptions}
    (hstage : Stage.ofOptions options = .ok stage) (hroot : options.sourceRoot = none) :
    stage.chain.all Resolver.staysInSet := by
  obtain ⟨pattern, -, hstage⟩ := bind_eq_ok.mp hstage
  cases hstage
  rw [StageOptions.chain, hroot]
  cases options.fallback <;> rfl

/-- After a run without failures, the directives of the eligible documents are all URLs, and running
again changes nothing, exactly if no local directive of a finished document came about in putting it
together. -/
theorem rerun_unchanged_iff {options : StageOptions} (hstage : Stage.ofOptions options = .ok stage)
    (hroot : options.sourceRoot = none) {report : Report} {documents' : DocumentSet}
    (hrun : stage.run files documents = .ok (report, documents')) (hfailures : report.failures = [])
    (hskipped : report.skipped = []) :
    (stage.OnlyRemote documents' ∧
      stage.run files documents' =
        .ok (⟨[], documents'.keys.filter stage.isEligible, [], []⟩, documents')) ↔
    ∀ key document, documents.get? key = some document → stage.isEligible key →
      ∀ d cs, (Outline.ofText (stage.finished files documents key document).content).Site d cs →
        stage.Spliced files documents key document d cs → d.isRemote := by
  have hstays := staysInSet_of_ofOptions hstage hroot
  obtain ⟨hending, rfl, rfl⟩ := run_eq_ok.mp hrun
  constructor
  · rintro ⟨hremote, -⟩ key document hget heligible d cs hsite -
    have hget' : (update documents (stage.outcomes files documents)).get? key =
        some (stage.finished files documents key document) := by
      rw [get?_update, hget]
      rfl
    exact hremote key _ hget' heligible d hsite.mem
  · intro hspliced
    have hremote : stage.OnlyRemote (update documents (stage.outcomes files documents)) := by
      intro key finished hget' heligible d hd
      rw [get?_update] at hget'
      obtain ⟨document, hget, rfl⟩ := Option.map_eq_some_iff.mp hget'
      have hdone :=
        Report.outcome_of_ofOutcomes (ending?_eq_none_iff.mp hending).1 hfailures hskipped
        (outcome_mem_outcomes hget heligible)
      obtain ⟨cs, hsite⟩ := Outline.exists_site hd
      -- a local directive can only have come about in putting the document together
      by_contra hlocal
      have hsplice := spliced_of_local hstays heligible hdone hsite hlocal
      exact hlocal (hspliced key document hget heligible d cs hsite hsplice)
    exact ⟨hremote, run_of_onlyRemote hstays files hremote⟩

/-- A set whose directives are all URLs, whatever documents are eligible. -/
theorem onlyRemote_of_all (h : documents.toList.all fun entry =>
    (directives entry.2.content).all Directive.isRemote) : stage.OnlyRemote documents := by
  intro key document hget _ d hd
  have hdocument := List.all_eq_true.mp h _ (KeyMap.get?_eq_some_iff.mp hget)
  exact List.all_eq_true.mp hdocument d hd

/-- A fragment that is whole, and a URL. -/
theorem rerun_unchanged_of_whole_fragment :
    let documents : DocumentSet :=
      .ofList [("a.md", ⟨"A", .empty⟩), ("index.md", ⟨":[](a.md) :[w](//w)", .empty⟩)]
    let once : DocumentSet := .ofList [("a.md", ⟨"A", .empty⟩), ("index.md", ⟨"A :[w](//w)", .empty⟩)]
    ∃ stage, Stage.ofOptions {} = .ok stage ∧
      stage.run default documents = .ok (⟨["index.md"], ["a.md"], [], []⟩, once) ∧
      stage.OnlyRemote once ∧
      stage.run default once = .ok (⟨[], ["a.md", "index.md"], [], []⟩, once) ∧
      ∀ key document, documents.get? key = some document → stage.isEligible key →
        ∀ d cs, (Outline.ofText (stage.finished default documents key document).content).Site d cs →
          stage.Spliced default documents key document d cs → d.isRemote := by
  intro documents once
  have hruns : (Stage.ofOptions {}).map (fun stage => stage.run default documents) =
      .ok (.ok (⟨["index.md"], ["a.md"], [], []⟩, once)) := by decide +kernel
  have hruns' : (Stage.ofOptions {}).map (fun stage => stage.run default once) =
      .ok (.ok (⟨[], ["a.md", "index.md"], [], []⟩, once)) := by decide +kernel
  obtain ⟨stage, hstage, hrun⟩ := map_eq_ok.mp hruns
  rw [hstage] at hruns'
  have hremote : stage.OnlyRemote once := onlyRemote_of_all (by decide +kernel)
  have hiff := rerun_unchanged_iff hstage rfl hrun rfl rfl
  have hagain := run_of_onlyRemote (staysInSet_of_ofOptions hstage rfl) default hremote
  exact ⟨stage, hstage, hrun, hremote, Except.ok.inj hruns', hiff.mp ⟨hremote, hagain⟩⟩

/-- A directive that a fragment opens and the document around it closes: the first run puts it
together, and the second one expands it. -/
theorem rerun_expands_split_directive :
    let documents : DocumentSet := .ofList
      [("a.md", ⟨":[x", .empty⟩), ("b.md", ⟨"B", .empty⟩), ("index.md", ⟨":[](a.md)](b.md)", .empty⟩)]
    let once : DocumentSet := .ofList
      [("a.md", ⟨":[x", .empty⟩), ("b.md", ⟨"B", .empty⟩), ("index.md", ⟨":[x](b.md)", .empty⟩)]
    let twice : DocumentSet := .ofList
      [("a.md", ⟨":[x", .empty⟩), ("b.md", ⟨"B", .empty⟩), ("index.md", ⟨"B", .empty⟩)]
    ∃ stage, Stage.ofOptions {} = .ok stage ∧
      stage.run default documents = .ok (⟨["index.md"], ["a.md", "b.md"], [], []⟩, once) ∧
      ¬ stage.OnlyRemote once ∧
      stage.run default once = .ok (⟨["index.md"], ["a.md", "b.md"], [], []⟩, twice) ∧
      twice ≠ once := by
  intro documents once twice
  have hruns : (Stage.ofOptions {}).map (fun stage => stage.run default documents) =
      .ok (.ok (⟨["index.md"], ["a.md", "b.md"], [], []⟩, once)) := by decide +kernel
  have hruns' : (Stage.ofOptions {}).map (fun stage => stage.run default once) =
      .ok (.ok (⟨["index.md"], ["a.md", "b.md"], [], []⟩, twice)) := by decide +kernel
  have hne : twice ≠ once := by decide +kernel
  obtain ⟨stage, hstage, hrun⟩ := map_eq_ok.mp hruns
  rw [hstage] at hruns'
  have hrun' : stage.run default once = _ := Except.ok.inj hruns'
  refine ⟨stage, hstage, hrun, fun hremote => ?_, hrun', hne⟩
  have hagain := run_of_onlyRemote (staysInSet_of_ofOptions hstage rfl) default hremote
  rw [hrun'] at hagain
  exact hne (Prod.mk.inj (Except.ok.inj hagain)).2

end Stage

end Transclusion
