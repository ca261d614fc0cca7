import Transclusion.Proofs.KeyMap
import Transclusion.Proofs.Results
import Transclusion.Stage

/-!
# What a run makes of a set

A run is the outcomes of the eligible documents, each from the set as it was before, and then one
update.

* `Stage.mem_outcomes`, `Stage.keys_outcomes` — the outcomes of a run;
* `Stage.finished`, `Stage.get?_update` — what stands at a key afterwards;
* `Stage.run_eq_ok` — when a run has a report, and which;
* `Report.ofOutcomes_of_unchanged`, `Stage.update_of_unchanged` — a run with nothing to do.
-/

namespace Transclusion

/-! ## Kinds of outcomes -/

namespace Outcome

variable {outcome : Outcome}

@[simp] theorem document?_eq_some_iff {document : Document} :
    outcome.document? = some document ↔ outcome = .transcluded document := by
  cases outcome <;> simp [document?]

@[simp] theorem isUnchanged_iff : outcome.isUnchanged ↔ outcome = .unchanged := by
  cases outcome <;> simp [isUnchanged]

@[simp] theorem reason?_eq_some_iff {reason : Error} :
    outcome.reason? = some reason ↔ outcome = .skipped reason := by
  cases outcome <;> simp [reason?]

@[simp] theorem error?_eq_some_iff {error : Error} :
    outcome.error? = some error ↔ outcome = .failed error := by
  cases outcome <;> simp [error?]

end Outcome

/-- Metadata of fragments are written into the metadata and into the content of a document, each if
the output says so. -/
theorem MetadataOutput.attach_eq_ok {output : MetadataOutput} {reserved key : String}
    {tree : MetadataTree} {document attached : Document} :
    output.attach reserved key tree document = .ok attached ↔
      (if output.writesMetadata then tree.attach reserved key document.metadata
        else .ok document.metadata) = .ok attached.metadata ∧
      (if output.writesContent then tree.attachToContent reserved key document.content
        else .ok document.content) = .ok attached.content := by
  obtain ⟨content, metadata⟩ := attached
  cases output <;>
    simp [attach, writesMetadata, writesContent, bind_eq_ok, pure, Except.pure, and_comm]

namespace Stage

variable {stage : Stage} {files : FileTree} {documents : DocumentSet}

/-! ## Outcomes -/

section Outcome

variable {key : String} {document : Document}

theorem outcome_eq_transcluded {new : Document} :
    stage.outcome files documents key document = .transcluded new ↔
      stage.transclude files documents key document = .ok (some new) := by
  unfold outcome
  match stage.transclude files documents key document with
  | .ok (some _) => simp
  | .ok none => simp
  | .error (.error error) => dsimp only; split <;> simp
  | .error .endless => simp

theorem outcome_eq_unchanged :
    stage.outcome files documents key document = .unchanged ↔
      stage.transclude files documents key document = .ok none := by
  unfold outcome
  match stage.transclude files documents key document with
  | .ok (some _) => simp
  | .ok none => simp
  | .error (.error error) => dsimp only; split <;> simp
  | .error .endless => simp

theorem outcome_eq_endless :
    stage.outcome files documents key document = .endless ↔
      stage.transclude files documents key document = .error .endless := by
  unfold outcome
  match stage.transclude files documents key document with
  | .ok (some _) => simp
  | .ok none => simp
  | .error (.error error) => dsimp only; split <;> simp
  | .error .endless => simp

/-- A document is skipped for a missing file, if that is to be tolerated. -/
theorem outcome_eq_skipped {reason : Error} :
    stage.outcome files documents key document = .skipped reason ↔
      stage.transclude files documents key document = .error (.error reason) ∧
        (reason.isMissingSource ∧ stage.options.skipMissing) := by
  unfold outcome
  match stage.transclude files documents key document with
  | .ok (some _) => simp
  | .ok none => simp
  | .error .endless => simp
  | .error (.error error) =>
    simp only [Bool.and_eq_true, Except.error.injEq, Obstacle.error.injEq]
    by_cases hskip : error.isMissingSource ∧ stage.options.skipMissing
    · rw [if_pos hskip, Outcome.skipped.injEq]
      exact ⟨fun heq => ⟨heq, heq ▸ hskip⟩, And.left⟩
    · rw [if_neg hskip]
      refine ⟨nofun, ?_⟩
      rintro ⟨rfl, htolerated⟩
      exact absurd htolerated hskip

/-- Every other error is a failure. -/
theorem outcome_eq_failed {error : Error} :
    stage.outcome files documents key document = .failed error ↔
      stage.transclude files documents key document = .error (.error error) ∧
        ¬ (error.isMissingSource ∧ stage.options.skipMissing) := by
  unfold outcome
  match stage.transclude files documents key document with
  | .ok (some _) => simp
  | .ok none => simp
  | .error .endless => simp
  | .error (.error error') =>
    simp only [Bool.and_eq_true, Except.error.injEq, Obstacle.error.injEq]
    by_cases hskip : error'.isMissingSource ∧ stage.options.skipMissing
    · rw [if_pos hskip]
      refine ⟨nofun, ?_⟩
      rintro ⟨rfl, htolerated⟩
      exact absurd hskip htolerated
    · rw [if_neg hskip, Outcome.failed.injEq]
      exact ⟨fun heq => ⟨heq, heq ▸ hskip⟩, And.left⟩

end Outcome

theorem mem_outcomes {key : String} {outcome : Outcome} :
    (key, outcome) ∈ stage.outcomes files documents ↔
      ∃ document, documents.get? key = some document ∧ stage.isEligible key ∧
        outcome = stage.outcome files documents key document := by
  simp only [outcomes, List.mem_map, List.mem_filter]
  constructor
  · rintro ⟨⟨k, document⟩, ⟨hmem, heligible⟩, heq⟩
    obtain ⟨rfl, rfl⟩ := Prod.mk.inj heq
    exact ⟨document, KeyMap.get?_eq_some_iff.mpr hmem, heligible, rfl⟩
  · rintro ⟨document, hget, heligible, rfl⟩
    exact ⟨(key, document), ⟨KeyMap.get?_eq_some_iff.mp hget, heligible⟩, rfl⟩

theorem outcome_mem_outcomes {key : String} {document : Document}
    (hget : documents.get? key = some document) (heligible : stage.isEligible key) :
    (key, stage.outcome files documents key document) ∈ stage.outcomes files documents :=
  mem_outcomes.mpr ⟨document, hget, heligible, rfl⟩

/-- Every eligible document has one outcome, in key order. -/
theorem keys_outcomes :
    (stage.outcomes files documents).map Prod.fst = documents.keys.filter stage.isEligible := by
  rw [outcomes, KeyMap.keys, List.map_map, List.filter_map]
  rfl

theorem nodup_keys_outcomes : ((stage.outcomes files documents).map Prod.fst).Nodup := by
  rw [keys_outcomes]
  exact documents.nodup_keys.filter _

/-! ## The set afterwards -/

theorem update_cons {key : String} {outcome : Outcome} {outcomes : List (String × Outcome)} :
    update documents ((key, outcome) :: outcomes) =
      update (match outcome.document? with
        | some document => documents.insert key document
        | none => documents) outcomes := rfl

theorem get?_update_of_not_mem {key : String} {outcomes : List (String × Outcome)}
    (h : key ∉ outcomes.map Prod.fst) :
    (update documents outcomes).get? key = documents.get? key := by
  induction outcomes generalizing documents with
  | nil => rfl
  | cons first outcomes ih =>
    obtain ⟨k, outcome⟩ := first
    rw [List.map_cons, List.mem_cons, not_or] at h
    rw [update_cons, ih h.2]
    split
    · exact KeyMap.get?_insert_of_ne _ h.1 _
    · rfl

theorem get?_update_of_mem {key : String} {outcome : Outcome} {outcomes : List (String × Outcome)}
    (hnodup : (outcomes.map Prod.fst).Nodup) (h : (key, outcome) ∈ outcomes) :
    (update documents outcomes).get? key = outcome.document?.or (documents.get? key) := by
  induction outcomes generalizing documents with
  | nil => exact nomatch h
  | cons first outcomes ih =>
    obtain ⟨k, outcome'⟩ := first
    obtain ⟨hfirst, hothers⟩ := List.nodup_cons.mp hnodup
    rw [update_cons]
    rcases List.mem_cons.mp h with heq | hlater
    · -- no outcome behind this one has its key
      obtain ⟨rfl, rfl⟩ := Prod.mk.inj heq
      rw [get?_update_of_not_mem hfirst]
      cases hdocument : outcome.document? with
      | some document => exact KeyMap.get?_insert_self _ _ _
      | none => rfl
    · have hne : key ≠ k := by
        rintro rfl
        exact hfirst (List.mem_map.mpr ⟨_, hlater, rfl⟩)
      rw [ih hothers hlater]
      split
      · rw [KeyMap.get?_insert_of_ne _ hne]
      · rfl

/-- What a document is after a run. -/
def finished (stage : Stage) (files : FileTree) (documents : DocumentSet) (key : String)
    (document : Document) : Document :=
  if stage.isEligible key then
    (stage.outcome files documents key document).document?.getD document
  else document

/-- A document that neither failed nor was skipped has what transclusion makes of it. -/
theorem exists_transclude {key : String} {document : Document} (heligible : stage.isEligible key)
    (hdone : (∃ new, stage.outcome files documents key document = .transcluded new) ∨
      stage.outcome files documents key document = .unchanged) :
    ∃ answer, stage.transclude files documents key document = .ok answer ∧
      stage.finished files documents key document = answer.getD document := by
  rw [finished, if_pos heligible]
  rcases hdone with ⟨new, h⟩ | h
  · exact ⟨some new, outcome_eq_transcluded.mp h, by rw [h]; rfl⟩
  · exact ⟨none, outcome_eq_unchanged.mp h, by rw [h]; rfl⟩

/-- After a run the same keys hold the finished documents. -/
theorem get?_update {key : String} :
    (update documents (stage.outcomes files documents)).get? key =
      (documents.get? key).map (stage.finished files documents key) := by
  cases hget : documents.get? key with
  | none =>
    rw [get?_update_of_not_mem, hget]
    · rfl
    · rw [keys_outcomes, List.mem_filter]
      rintro ⟨hmem, -⟩
      obtain ⟨document, hdocument⟩ := KeyMap.mem_keys_iff.mp hmem
      exact nomatch hget.symm.trans hdocument
  | some document =>
    rw [Option.map_some, finished]
    split
    · next heligible =>
      rw [get?_update_of_mem nodup_keys_outcomes (outcome_mem_outcomes hget heligible), hget]
      cases (stage.outcome files documents key document).document? <;> rfl
    · next heligible =>
      rw [get?_update_of_not_mem, hget]
      rw [keys_outcomes, List.mem_filter]
      exact fun hmem => heligible hmem.2

/-- An update without new documents changes nothing. -/
theorem update_of_unchanged {outcomes : List (String × Outcome)}
    (h : ∀ entry ∈ outcomes, entry.2.document? = none) : update documents outcomes = documents := by
  induction outcomes with
  | nil => rfl
  | cons first outcomes ih =>
    obtain ⟨hfirst, hothers⟩ := List.forall_mem_cons.mp h
    rw [update_cons, hfirst]
    exact ih hothers

/-! ## Runs -/

theorem obstacle?_eq_none_iff {policy : ErrorPolicy} {outcome : Outcome} :
    policy.obstacle? outcome = none ↔
      outcome ≠ .endless ∧ (policy = .failFast → outcome.error? = none) := by
  cases policy <;> cases outcome <;> simp [ErrorPolicy.obstacle?, Outcome.error?]

/-- Nothing ends a run if all expansions end, and if no document fails or the others are processed
nevertheless. -/
theorem ending?_eq_none_iff {policy : ErrorPolicy} {outcomes : List (String × Outcome)} :
    ending? policy outcomes = none ↔ (∀ entry ∈ outcomes, entry.2 ≠ .endless) ∧
      (policy = .failFast → (Report.ofOutcomes outcomes).failures = []) := by
  simp only [ending?, List.findSome?_eq_none_iff, obstacle?_eq_none_iff, Report.ofOutcomes,
    List.filterMap_eq_nil_iff, Option.map_eq_none_iff]
  exact ⟨fun h => ⟨fun entry hentry => (h entry hentry).1,
    fun hpolicy entry hentry => (h entry hentry).2 hpolicy⟩,
    fun h entry hentry => ⟨h.1 entry hentry, fun hpolicy => h.2 hpolicy entry hentry⟩⟩

/-- A run that ends with an error does so for a document that fails. -/
theorem exists_failed_of_ending? {policy : ErrorPolicy} {outcomes : List (String × Outcome)}
    {error : Error} (h : ending? policy outcomes = some (.error error)) :
    ∃ key, (key, .failed error) ∈ outcomes := by
  obtain ⟨⟨key, outcome⟩, hmem, hobstacle⟩ := List.exists_of_findSome?_eq_some h
  have hfailed : outcome = .failed error := by
    revert hobstacle
    cases policy <;> cases outcome <;> simp [ErrorPolicy.obstacle?]
  exact ⟨key, hfailed ▸ hmem⟩

/-- A run ends with an error, or not at all, if all expansions end. -/
theorem ending?_ne_endless {policy : ErrorPolicy} {outcomes : List (String × Outcome)}
    (h : ∀ entry ∈ outcomes, entry.2 ≠ .endless) : ending? policy outcomes ≠ some .endless := by
  intro hending
  obtain ⟨⟨key, outcome⟩, hmem, hobstacle⟩ := List.exists_of_findSome?_eq_some hending
  refine h (key, outcome) hmem ?_
  revert hobstacle
  cases policy <;> cases outcome <;> simp [ErrorPolicy.obstacle?]

/-- A run has a report unless something ends it. -/
theorem run_eq_ok {report : Report} {documents' : DocumentSet} :
    stage.run files documents = .ok (report, documents') ↔
      ending? stage.options.errorPolicy (stage.outcomes files documents) = none ∧
      report = Report.ofOutcomes (stage.outcomes files documents) ∧
      documents' = update documents (stage.outcomes files documents) := by
  rw [run]
  cases ending? stage.options.errorPolicy (stage.outcomes files documents) with
  | some obstacle => simp
  | none => simp [eq_comm]

theorem run_eq_error {obstacle : Obstacle} :
    stage.run files documents = .error obstacle ↔
      ending? stage.options.errorPolicy (stage.outcomes files documents) = some obstacle := by
  rw [run]
  cases ending? stage.options.errorPolicy (stage.outcomes files documents) <;> simp

end Stage

namespace Report

/-- A report without failures and skipped documents has only two kinds of outcomes. -/
theorem outcome_of_ofOutcomes {outcomes : List (String × Outcome)}
    (hends : ∀ entry ∈ outcomes, entry.2 ≠ .endless)
    (hfailures : (ofOutcomes outcomes).failures = [])
    (hskipped : (ofOutcomes outcomes).skipped = []) {key : String} {outcome : Outcome}
    (h : (key, outcome) ∈ outcomes) :
    (∃ document, outcome = .transcluded document) ∨ outcome = .unchanged := by
  cases outcome with
  | transcluded document => exact .inl ⟨document, rfl⟩
  | unchanged => exact .inr rfl
  | skipped reason =>
    have hnone := List.filterMap_eq_nil_iff.mp hskipped _ h
    exact nomatch hnone
  | failed error =>
    have hnone := List.filterMap_eq_nil_iff.mp hfailures _ h
    exact nomatch hnone
  | endless => exact absurd rfl (hends _ h)

/-- The report of a run with nothing to do. -/
theorem ofOutcomes_of_unchanged {outcomes : List (String × Outcome)}
    (h : ∀ entry ∈ outcomes, entry.2 = .unchanged) :
    ofOutcomes outcomes = ⟨[], outcomes.map Prod.fst, [], []⟩ := by
  have hnone : ∀ {α : Type} (f : String × Outcome → Option α),
      (∀ key, f (key, .unchanged) = none) → outcomes.filterMap f = [] := by
    intro α f hf
    refine List.filterMap_eq_nil_iff.mpr ?_
    rintro ⟨key, outcome⟩ hentry
    obtain rfl : outcome = .unchanged := h _ hentry
    exact hf key
  rw [ofOutcomes, List.filter_eq_self.mpr ?_, hnone, hnone, hnone]
  · exact fun _ => rfl
  · exact fun _ => rfl
  · exact fun _ => rfl
  · rintro ⟨key, outcome⟩ hentry
    obtain rfl : outcome = .unchanged := h _ hentry
    rfl

end Report

end Transclusion
