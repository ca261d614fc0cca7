import Transclusion.Proofs.Stage.Outcomes
import Transclusion.Stage.Progress

/-!
# Visits and outcomes

A run that goes from document to document comes to what the outcomes of all eligible documents say.

* `Progress.ofOutcomes` — what a run has noted when it has come to some outcomes, and
  `Progress.note_ofOutcomes` — one more outcome;
* `Stage.visitAll_eq` — the visits end with the first obstacle, or note all outcomes;
* `Stage.runInPlace_eq` — and so does the run, which leaves the set alone or updates it.

The visits carry one invariant: what is noted is what belongs to the outcomes so far.
-/

namespace Transclusion

/-! ## Noting outcomes -/

namespace Progress

/-- The new documents among some outcomes. -/
def stagedOf (outcomes : List (String × Outcome)) : List (String × Document) :=
  outcomes.filterMap fun (key, outcome) => outcome.document?.map fun document => (key, document)

/-- What a run has noted when it has come to some outcomes. -/
def ofOutcomes (outcomes : List (String × Outcome)) : Progress :=
  ⟨Report.ofOutcomes outcomes, stagedOf outcomes⟩

/-- One more outcome is noted behind the others. -/
theorem note_ofOutcomes (outcomes : List (String × Outcome)) (key : String) (outcome : Outcome) :
    (ofOutcomes outcomes).note key outcome = ofOutcomes (outcomes ++ [(key, outcome)]) := by
  cases outcome <;>
    simp [note, ofOutcomes, stagedOf, Report.ofOutcomes, Outcome.document?, Outcome.isUnchanged,
      Outcome.reason?, Outcome.error?]

end Progress

namespace Stage

variable {stage : Stage} {files : FileTree} {before : DocumentSet}

/-! ## Visits -/

/-- What becomes of the eligible ones among some documents. -/
def outcomesOf (stage : Stage) (files : FileTree) (before : DocumentSet)
    (entries : List (String × Document)) : List (String × Outcome) :=
  (entries.filter fun (key, _) => stage.isEligible key).map fun (key, document) =>
    (key, stage.outcome files before key document)

theorem outcomesOf_cons_of_eligible {key : String} (heligible : stage.isEligible key)
    (document : Document) (entries : List (String × Document)) :
    stage.outcomesOf files before ((key, document) :: entries) =
      (key, stage.outcome files before key document) :: stage.outcomesOf files before entries := by
  simp [outcomesOf, heligible]

theorem outcomesOf_cons_of_not_eligible {key : String} (h : ¬ stage.isEligible key)
    (document : Document) (entries : List (String × Document)) :
    stage.outcomesOf files before ((key, document) :: entries) =
      stage.outcomesOf files before entries := by
  simp [outcomesOf, h]

theorem ending?_cons (policy : ErrorPolicy) (key : String) (outcome : Outcome)
    (outcomes : List (String × Outcome)) :
    ending? policy ((key, outcome) :: outcomes) =
      (policy.obstacle? outcome).or (ending? policy outcomes) := by
  simp only [ending?, List.findSome?_cons]
  cases policy.obstacle? outcome <;> rfl

/-- The visits end with the first obstacle, or note all outcomes. -/
theorem visitAll_eq (entries : List (String × Document)) (noted : List (String × Outcome)) :
    stage.visitAll files before entries (.ofOutcomes noted) =
      match ending? stage.options.errorPolicy (stage.outcomesOf files before entries) with
      | some obstacle => .error obstacle
      | none => .ok (.ofOutcomes (noted ++ stage.outcomesOf files before entries)) := by
  induction entries generalizing noted with
  | nil => simp [visitAll, outcomesOf, ending?]
  | cons entry entries ih =>
    obtain ⟨key, document⟩ := entry
    unfold visitAll
    by_cases heligible : stage.isEligible key
    · rw [if_pos heligible, outcomesOf_cons_of_eligible heligible, ending?_cons, visit]
      cases hhere : stage.options.errorPolicy.obstacle?
          (stage.outcome files before key document) with
      | some obstacle => rfl
      | none =>
        show stage.visitAll files before entries _ = _
        rw [Progress.note_ofOutcomes, ih, List.append_assoc]
        rfl
    · rw [if_neg heligible, outcomesOf_cons_of_not_eligible heligible, ih]

/-! ## Runs -/

/-- Documents put into a set one after the other. -/
theorem run_forIn_insert (staged : List (String × Document)) (documents : DocumentSet) :
    (forIn staged PUnit.unit fun entry _ => do
        modify fun documents : DocumentSet => documents.insert entry.1 entry.2
        pure (ForInStep.yield PUnit.unit) :
      ExceptT Obstacle (StateM DocumentSet) PUnit).run.run documents =
      (.ok PUnit.unit,
        staged.foldl (fun documents entry => documents.insert entry.1 entry.2) documents) := by
  induction staged generalizing documents with
  | nil => rfl
  | cons entry staged ih =>
    rw [List.forIn_cons]
    exact ih (documents.insert entry.1 entry.2)

/-- An update puts the new documents into the set. -/
theorem foldl_insert_stagedOf (outcomes : List (String × Outcome)) (documents : DocumentSet) :
    (Progress.stagedOf outcomes).foldl
        (fun documents entry => documents.insert entry.1 entry.2) documents =
      update documents outcomes := by
  induction outcomes generalizing documents with
  | nil => rfl
  | cons first outcomes ih =>
    obtain ⟨key, outcome⟩ := first
    rw [update_cons]
    cases outcome with
    | transcluded document => exact ih (documents.insert key document)
    | unchanged => exact ih documents
    | skipped reason => exact ih documents
    | failed error => exact ih documents
    | endless => exact ih documents

/-- A run in place goes no further than the first obstacle, and then the set is what it was; or
it has the report of all outcomes, and then the set is updated. -/
theorem runInPlace_eq (stage : Stage) (files : FileTree) (before : DocumentSet) :
    (stage.runInPlace files).run.run before =
      match ending? stage.options.errorPolicy (stage.outcomes files before) with
      | some obstacle => (.error obstacle, before)
      | none =>
          (.ok (Report.ofOutcomes (stage.outcomes files before)),
            update before (stage.outcomes files before)) := by
  have hvisits : stage.visitAll files before before.toList {} = _ :=
    stage.visitAll_eq before.toList []
  have houtcomes : stage.outcomesOf files before before.toList = stage.outcomes files before := rfl
  unfold runInPlace
  rw [run_run_bind, run_run_get]
  dsimp only
  rw [run_run_bind, run_run_mk_pure, hvisits, houtcomes]
  cases ending? stage.options.errorPolicy (stage.outcomes files before) with
  | some obstacle => rfl
  | none =>
    -- all visits are done, and what they staged is all that is written
    dsimp only
    rw [run_run_bind, run_forIn_insert]
    show (Except.ok _, _) = _
    rw [Progress.ofOutcomes, foldl_insert_stagedOf]
    rfl

/-- The run that is said at one stroke comes to the same. -/
theorem run_eq_runInPlace (stage : Stage) (files : FileTree) (before : DocumentSet) :
    stage.run files before =
      (match (stage.runInPlace files).run.run before with
      | (.ok report, after) => .ok (report, after)
      | (.error obstacle, _) => .error obstacle) := by
  rw [runInPlace_eq]
  dsimp only [run]
  cases ending? stage.options.errorPolicy (stage.outcomes files before) <;> rfl

end Stage

end Transclusion
