import Transclusion.Proofs.Expansion.Compositional
import Transclusion.Proofs.Expansion.Cycles
import Transclusion.Proofs.MetadataTree
import Transclusion.Proofs.Stage.Transaction

/-!
# Targets that stand for themselves

With a fallback, a target that nothing answers to is no error: its own text takes the place of the
directive.

* `Error.isUnanswered` — the errors that say that a target has no answer;
* `Resolver.isTolerant`, `Engine.Fallback` — no resolver makes such an error, and the text of the
  target is the last one in the chain;
* `Engine.Level` — a level of an expansion with a limit to its depth, or without one;
* `Engine.Fallback.not_isUnanswered` — no expansion fails with such an error, at whatever depth;
* `Engine.Fallback.replace_unclaimed` — a target that no resolver in front claims is put in as it
  stands, and what would expand it is not asked;
* `Engine.Recovers`, `Engine.Fallback.recovers` — what both mean for expansions;
* `Stage.Recovers`, `Stage.recovers_of_fallback` — so a stage whose options ask for a fallback
  recovers all targets.
-/

namespace Transclusion

/-- Whether an error says that a local target has no answer. -/
def Error.isUnanswered : Error → Bool
  | unresolvedTarget .. | missingSourceFile .. => true
  | _ => false

/-! ## Chains -/

namespace Resolver

variable {files : FileTree} {documents : DocumentSet} {r : Reference}

/-- Whether a target that the resolver has no answer to is left to the resolvers behind it. -/
def isTolerant : Resolver → Bool
  | .files _ _ missingIsError => !missingIsError
  | custom .. => false
  | _ => true

theorem not_isUnanswered_of_resolve {resolver : Resolver} (htolerant : resolver.isTolerant)
    {e : Error} (h : resolver.resolve files documents r = .error e) : ¬ e.isUnanswered := by
  have hfrontMatter : (∃ key reason, e = .invalidFrontMatter r.source key reason) →
      ¬ e.isUnanswered := by
    intro hinvalid
    obtain ⟨key, reason, rfl⟩ := hinvalid
    exact Bool.false_ne_true
  cases resolver with
  | exact extract => exact hfrontMatter (resolve_error rfl h)
  | folder extract filter => exact hfrontMatter (resolve_error rfl h)
  | files root extract missingIsError =>
    rcases resolveFile_error h with ⟨reason, rfl⟩ | hinvalid | ⟨hmissing, -⟩
    · exact Bool.false_ne_true
    · exact hfrontMatter hinvalid
    · rw [isTolerant, hmissing] at htolerant
      exact nomatch htolerant
  | fallback => exact nomatch h
  | custom name answer => exact nomatch htolerant

end Resolver

/-! ## Expansions -/

namespace Engine

variable {engine : Engine}

/-- The chain ends with the text of the target, and leaves it to that to answer what nothing else
does. -/
structure Fallback (engine : Engine) : Prop where
  getLast? : engine.chain.getLast? = some .fallback
  isTolerant : engine.chain.all Resolver.isTolerant

/-- The directive of the document at `key` is no URL, and no resolver but the last one of the chain
claims it. -/
structure Unclaimed (engine : Engine) (key : String) (d : Directive) : Prop where
  isLocal : ¬ d.isRemote
  declined : ∀ resolver ∈ engine.chain.dropLast,
    resolver.resolve engine.files engine.documents ⟨d.target, d.label, d.secondary, key⟩ = .ok none

/-- The second one expands a content, and the first one the fragments that this leads to. -/
inductive Level (engine : Engine) : Expander → Expander → Prop
  /-- A limited number of levels is left. -/
  | within (depth : Nat) : Level engine (expandContent engine depth) (expandContent engine (depth + 1))
  /-- There is no limit. -/
  | fully : Level engine engine.expandFully engine.expandFully

/-- A text in the place of a directive is what replaces that, and the target itself if no resolver
but the last one claims it. -/
structure StandsFor (engine : Engine) (expand : Expander) (path : List String) (key : String)
    (d : Directive) (text : String) : Prop where
  replaced : ∃ before after, replace engine expand path key d before = .ok (text, after)
  target : engine.Unclaimed key d → text = d.target

/-- How expansions treat targets without an answer. -/
structure Recovers (engine : Engine) : Prop where
  /-- None fails for such a target, however deep it is nested. -/
  expands : ∀ below expand, engine.Level below expand → ∀ path key content g e,
    expand path key content g = .error (.error e) → ¬ e.isUnanswered
  /-- The target is put in as it stands, whatever expands fragments. -/
  replaces : ∀ expand path key d g, engine.Unclaimed key d →
    replace engine expand path key d g = .ok (d.target, g)
  /-- So a content expands to the gaps between its directives, with such targets among what stands
  in the places of these. -/
  fills : ∀ below expand, engine.Level below expand → ∀ path key content g text g',
    expand path key content g = .ok (text, g') →
    ∃ texts, List.Forall₂ (engine.StandsFor below path key)
        (directives (engine.scanned key content)) texts ∧
      text = (Outline.ofText (engine.scanned key content)).filled texts

/-- Both are what the pieces of their contents say, and those are found level by level. -/
theorem Level.exists_builder {below expand : Expander} (h : engine.Level below expand) :
    ∃ build : Builder,
      (∀ path key content g,
        below path key content g = (build path key content).map (ofPieces g)) ∧
      ∀ path key content g, expand path key content g =
        (contentPieces engine build path key content).map (ofPieces g) := by
  cases h with
  | within depth =>
    exact ⟨engine.pieces depth, expandContent_eq engine depth, expandContent_eq engine (depth + 1)⟩
  | fully =>
    refine ⟨engine.fullPieces, engine.expandFully_eq, ?_⟩
    intro path key content g
    rw [expandFully_eq, fullPieces_eq]

/-- Where an expansion fails, with a limit or without one, a walk leads to the directive that is to
blame. -/
theorem Level.exists_cause {below expand : Expander} (h : engine.Level below expand)
    {path : List String} {key content : String} {g : Gathered} {e : Error}
    (herror : expand path key content g = .error (.error e)) : ∃ v d, engine.Cause v d e := by
  cases h with
  | within depth =>
    rw [expandContent_eq, map_eq_error] at herror
    obtain ⟨w, d, fails⟩ := exists_fails_of_pieces (v := ⟨path, key, content⟩) herror
    exact ⟨w, d, fails.reaches.2.2⟩
  | fully =>
    rw [expandFully_eq, map_eq_error] at herror
    obtain ⟨w, d, fails⟩ := exists_fails (v := ⟨path, key, content⟩) herror
    exact ⟨w, d, fails.reaches.2.2⟩

/-- The text of the target answers to every local directive. -/
theorem resolve_fallback {key : String} {d : Directive} (hlocal : ¬ d.isRemote) :
    Resolver.resolve engine.files engine.documents ⟨d.target, d.label, d.secondary, key⟩ .fallback =
      .ok (some ⟨"fallback", [⟨none, d.target, .empty⟩]⟩) := by
  rw [Resolver.resolve, Resolver.resolveFallback]
  exact congrArg Except.ok (if_neg hlocal)

namespace Fallback

variable (hfallback : engine.Fallback)

include hfallback

theorem chain_eq : engine.chain = engine.chain.dropLast ++ [.fallback] :=
  (List.dropLast_append_getLast? _ hfallback.getLast?).symm

/-- A local directive always has an answer. -/
theorem resolve_ne_none {key : String} {d : Directive} (hlocal : ¬ d.isRemote) :
    engine.resolve key d ≠ .ok none := by
  intro hnone
  have hmem : Resolver.fallback ∈ engine.chain := List.mem_of_getLast? hfallback.getLast?
  have hdeclined := Resolver.resolveChain_eq_ok_none.mp hnone _ hmem
  rw [resolve_fallback hlocal] at hdeclined
  exact nomatch hdeclined

/-- Whatever a directive is to blame for, it is no target without an answer. -/
theorem not_isUnanswered_of_cause {v : Visit} {d : Directive} {e : Error}
    (h : engine.Cause v d e) : ¬ e.isUnanswered := by
  cases h with
  | resolution hresolve =>
    obtain ⟨resolver, hmem, herror⟩ := Resolver.resolveChain_eq_error hresolve
    have htolerant := List.all_eq_true.mp hfallback.isTolerant resolver hmem
    exact Resolver.not_isUnanswered_of_resolve htolerant herror
  | unresolved hnone hlocal => exact absurd hnone (hfallback.resolve_ne_none hlocal)
  | cycle => exact Bool.false_ne_true

/-- No expansion fails for a target without an answer, however deep it is nested. -/
theorem not_isUnanswered {below expand : Expander} (level : engine.Level below expand)
    {path : List String} {key content : String} {g : Gathered} {e : Error}
    (h : expand path key content g = .error (.error e)) : ¬ e.isUnanswered := by
  obtain ⟨v, d, hcause⟩ := level.exists_cause h
  exact hfallback.not_isUnanswered_of_cause hcause

theorem resolve_unclaimed {key : String} {d : Directive} (h : engine.Unclaimed key d) :
    engine.resolve key d = .ok (some ⟨"fallback", [⟨none, d.target, .empty⟩]⟩) := by
  rw [resolve, hfallback.chain_eq, Resolver.resolveChain_append h.declined, Resolver.resolveChain,
    resolve_fallback h.isLocal]

/-- A target that no other resolver claims is put in as it stands, whatever expands fragments. -/
theorem replace_unclaimed {key : String} {d : Directive} (h : engine.Unclaimed key d)
    (expand : Expander) (path : List String) (g : Gathered) :
    replace engine expand path key d g = .ok (d.target, g) := by
  simp only [replace, hfallback.resolve_unclaimed h, Except.mapError, bind, Except.bind,
    substituteAll, substitute, pure, Except.pure, String.append_empty]

theorem exists_texts {below expand : Expander} (level : engine.Level below expand)
    {path : List String} {key content text : String} {g g' : Gathered}
    (h : expand path key content g = .ok (text, g')) :
    ∃ texts, List.Forall₂ (engine.StandsFor below path key)
        (directives (engine.scanned key content)) texts ∧
      text = (Outline.ofText (engine.scanned key content)).filled texts := by
  obtain ⟨build, hbelow, hexpand⟩ := level.exists_builder
  rw [hexpand, map_eq_ok] at h
  obtain ⟨ps, hps, htext⟩ := h
  obtain ⟨rfl, -⟩ := Prod.mk.inj htext
  refine exists_texts_of_contentPieces ?_ hps
  intro d sub hsub
  have hreplace : replace engine below path key d .empty = .ok (ofPieces .empty sub) := by
    rw [replace_eq hbelow, hsub]
    rfl
  refine ⟨⟨.empty, _, hreplace⟩, fun hunclaimed => ?_⟩
  -- what replaces the directive is known, so the pieces found for it say the same
  rw [hfallback.replace_unclaimed hunclaimed] at hreplace
  exact (congrArg Prod.fst (Except.ok.inj hreplace)).symm

theorem recovers : engine.Recovers where
  expands _ _ level _ _ _ _ _ := hfallback.not_isUnanswered level
  replaces expand path _ _ g hunclaimed := hfallback.replace_unclaimed hunclaimed expand path g
  fills _ _ level _ _ _ _ _ _ := hfallback.exists_texts level

end Fallback

end Engine

/-! ## Runs -/

theorem MetadataTree.not_isUnanswered_of_attach {tree : MetadataTree} {reserved key : String}
    {metadata : Metadata} {e : Error} (h : tree.attach reserved key metadata = .error e) :
    ¬ e.isUnanswered := by
  obtain ⟨-, -, rfl⟩ := attach_eq_error.mp h
  exact Bool.false_ne_true

theorem MetadataTree.not_isUnanswered_of_attachToContent {tree : MetadataTree}
    {reserved key content : String} {e : Error}
    (h : tree.attachToContent reserved key content = .error e) : ¬ e.isUnanswered := by
  unfold attachToContent at h
  split at h
  · exact nomatch h
  · split at h
    · cases h
      exact Bool.false_ne_true
    · rcases bind_eq_error.mp h with h | ⟨metadata, -, h⟩
      · exact not_isUnanswered_of_attach h
      · exact nomatch h

/-- Where metadata cannot be written into a document, that has other reasons than its targets. -/
theorem MetadataOutput.not_isUnanswered_of_attach {output : MetadataOutput} {reserved key : String}
    {tree : MetadataTree} {document : Document} {e : Error}
    (h : output.attach reserved key tree document = .error e) : ¬ e.isUnanswered := by
  have hcases : tree.attach reserved key document.metadata = .error e ∨
      tree.attachToContent reserved key document.content = .error e := by
    cases output with
    | metadata =>
      exact .inl (by simpa [attach, writesMetadata, writesContent, bind_eq_error, pure,
        Except.pure] using h)
    | content =>
      exact .inr (by simpa [attach, writesMetadata, writesContent, bind_eq_error, pure,
        Except.pure] using h)
    | both =>
      have hparts : tree.attach reserved key document.metadata = .error e ∨
          (∃ metadata, tree.attach reserved key document.metadata = .ok metadata) ∧
            tree.attachToContent reserved key document.content = .error e := by
        simpa [attach, writesMetadata, writesContent, bind_eq_error, pure, Except.pure] using h
      exact hparts.imp_right And.right
  rcases hcases with hmetadata | hcontent
  · exact MetadataTree.not_isUnanswered_of_attach hmetadata
  · exact MetadataTree.not_isUnanswered_of_attachToContent hcontent

namespace Stage

variable {stage : Stage} {files : FileTree} {documents : DocumentSet}

/-- How a stage with a fallback treats targets without an answer. -/
structure Recovers (stage : Stage) (files : FileTree) (documents : DocumentSet) : Prop where
  /-- The text of the target is what the chain tries last. -/
  getLast? : stage.chain.getLast? = some .fallback
  expansions : (stage.engine files documents).Recovers
  /-- No run ends with an error for such a target. -/
  ends : ∀ e, stage.run files documents = .error (.error e) → ¬ e.isUnanswered
  /-- No report mentions such an error, as a failure or as a reason to skip a document. -/
  reports : ∀ report after, stage.run files documents = .ok (report, after) →
    report.skipped = [] ∧ ∀ failure ∈ report.failures, ¬ failure.2.isUnanswered

/-- The chain that options with a fallback call for has one. -/
theorem fallback_of_ofOptions {options : StageOptions}
    (hstage : Stage.ofOptions options = .ok stage) (hfallback : options.fallback)
    (files : FileTree) (documents : DocumentSet) : (stage.engine files documents).Fallback := by
  obtain ⟨pattern, -, hstage⟩ := bind_eq_ok.mp hstage
  cases hstage
  constructor
  · show (_ ++ if options.fallback then [Resolver.fallback] else []).getLast? = _
    rw [if_pos hfallback, List.getLast?_concat]
  · simp only [engine, StageOptions.chain, hfallback]
    cases options.sourceRoot <;> rfl

theorem not_isUnanswered_of_transclude (hfallback : (stage.engine files documents).Fallback)
    {key : String} {document : Document} {e : Error}
    (h : stage.transclude files documents key document = .error (.error e)) :
    ¬ e.isUnanswered := by
  unfold transclude at h
  rcases bind_eq_error.mp h with hexpand | ⟨expansion, -, h⟩
  · rcases bind_eq_error.mp hexpand with hexpand | ⟨result, -, hexpand⟩
    · exact hfallback.not_isUnanswered .fully hexpand
    · exact nomatch hexpand
  · split at h
    · exact nomatch h
    · split at h
      · rcases bind_eq_error.mp h with hattach | ⟨document', -, h⟩
        · obtain ⟨e', hattach, heq⟩ := mapError_eq_error.mp hattach
          cases heq
          exact MetadataOutput.not_isUnanswered_of_attach hattach
        · exact nomatch h
      · exact nomatch h

/-- No outcome of a run is an error for a target without an answer. -/
theorem not_isUnanswered_of_mem_outcomes (hfallback : (stage.engine files documents).Fallback)
    {key : String} {outcome : Outcome} (h : (key, outcome) ∈ stage.outcomes files documents) :
    outcome.reason? = none ∧ ∀ e, outcome = .failed e → ¬ e.isUnanswered := by
  obtain ⟨document, -, -, rfl⟩ := mem_outcomes.mp h
  constructor
  · rw [Option.eq_none_iff_forall_ne_some]
    intro reason hreason
    obtain ⟨htransclude, hmissing, -⟩ :=
      outcome_eq_skipped.mp (Outcome.reason?_eq_some_iff.mp hreason)
    obtain ⟨source, target, path, rfl⟩ := Error.isMissingSource_iff.mp hmissing
    exact not_isUnanswered_of_transclude hfallback htransclude rfl
  · intro e hfailed
    exact not_isUnanswered_of_transclude hfallback (outcome_eq_failed.mp hfailed).1

/-- A stage whose options ask for a fallback recovers all targets without an answer. -/
theorem recovers_of_fallback {options : StageOptions}
    (hstage : Stage.ofOptions options = .ok stage) (hfallback : options.fallback)
    (files : FileTree) (documents : DocumentSet) : stage.Recovers files documents := by
  have hengine := fallback_of_ofOptions hstage hfallback files documents
  have hfailures : ∀ failure ∈ (Report.ofOutcomes (stage.outcomes files documents)).failures,
      ¬ failure.2.isUnanswered := by
    intro failure hmem
    obtain ⟨key, e⟩ := failure
    exact (not_isUnanswered_of_mem_outcomes hengine (Report.mem_failures.mp hmem)).2 e rfl
  refine ⟨hengine.getLast?, hengine.recovers, ?_, ?_⟩
  · intro e hrun
    obtain ⟨key, hmem⟩ := exists_failed_of_ending? (run_eq_error.mp hrun)
    exact (not_isUnanswered_of_mem_outcomes hengine hmem).2 e rfl
  · intro report after hrun
    obtain ⟨-, rfl, -⟩ := run_eq_ok.mp hrun
    refine ⟨List.filterMap_eq_nil_iff.mpr ?_, hfailures⟩
    intro entry hmem
    obtain ⟨key, outcome⟩ := entry
    simp only [(not_isUnanswered_of_mem_outcomes hengine hmem).1, Option.map_none]

/-- Targets that climb above the root, with a directory for files. The second one and the text
behind it read like a directive, which nothing expands. -/
theorem recovers_of_fallback_climbing :
    let options : StageOptions := { fallback := true, sourceRoot := some "src" }
    let documents : DocumentSet :=
      .ofList [("a.md", ⟨":[](b.md) :[](/../:[](b.md))", .empty⟩), ("b.md", ⟨"B:[](../c)", .empty⟩)]
    ∃ stage report after, Stage.ofOptions options = .ok stage ∧ options.fallback = true ∧
      stage.run default documents = .ok (report, after) ∧
      after.get? "a.md" = some ⟨"B../c /../:[](b.md)", .empty⟩ ∧ stage.Recovers default documents := by
  intro options documents
  have hruns : (do
      let stage ← (Stage.ofOptions options).mapError Obstacle.error
      let result ← stage.run default documents
      return result.2.get? "a.md") = .ok (some ⟨"B../c /../:[](b.md)", .empty⟩) := by
    decide +kernel
  obtain ⟨stage, hstage, hruns⟩ := bind_eq_ok.mp hruns
  obtain ⟨⟨report, after⟩, hrun, hafter⟩ := bind_eq_ok.mp hruns
  have hstage := mapError_eq_ok.mp hstage
  exact ⟨stage, report, after, hstage, rfl, hrun, Except.ok.inj hafter,
    recovers_of_fallback hstage rfl default documents⟩

end Stage

end Transclusion
