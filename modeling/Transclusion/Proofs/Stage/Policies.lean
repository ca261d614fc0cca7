import Transclusion.Proofs.Expansion.Ending
import Transclusion.Proofs.Stage.Transaction

/-!
# Two policies, one run

What a run does about failures changes nothing about the outcomes. So a run that ends with the first
failure can be told from the report of the run that goes on. That one has a report unless an
expansion does not end.

* `Stage.withPolicy` — the same stage with another policy, and `Stage.ofOptions_withPolicy` — that
  is what options with another policy make;
* `Stage.Ends` — the expansions of all documents that are processed end, and
  `Stage.ends_of_isBuiltIn` — they do if no function was handed in as a resolver;
* `Stage.FirstFailure` — the failure with the smallest key, and `Stage.firstFailure_of_result` — the
  first one in a report is that;
* `Stage.runInPlace_failFast`, `Stage.runInPlace_collect_eq_ok` — the two runs;
* `Stage.Refines` — how one follows from the other, and `Stage.refines_of_collect` — that it does.
-/

namespace Transclusion

namespace Report

variable {report : Report}

theorem result_eq_ok_iff {same : Report} :
    report.result = .ok same ↔ report = same ∧ report.failures = [] := by
  unfold result firstFailure?
  cases report.failures <;> simp

theorem result_eq_error_iff {error : Error} :
    report.result = .error error ↔ ∃ key failures, report.failures = (key, error) :: failures := by
  unfold result firstFailure?
  cases report.failures with
  | nil => simp
  | cons failure failures =>
    obtain ⟨key, error'⟩ := failure
    simp [eq_comm]

end Report

namespace Stage

variable {stage : Stage} {files : FileTree} {before : DocumentSet}

/-- The same stage with another policy. -/
def withPolicy (stage : Stage) (policy : ErrorPolicy) : Stage :=
  { stage with options := { stage.options with errorPolicy := policy } }

theorem outcomes_withPolicy (stage : Stage) (policy : ErrorPolicy) :
    (stage.withPolicy policy).outcomes = stage.outcomes := rfl

/-- Options with another policy make the stage with that policy. -/
theorem ofOptions_withPolicy (options : StageOptions) (policy : ErrorPolicy) :
    Stage.ofOptions { options with errorPolicy := policy } =
      (Stage.ofOptions options).map (·.withPolicy policy) := by
  unfold Stage.ofOptions
  cases documentPattern options.pattern <;> rfl

/-! ## Expansions that end -/

/-- The expansions of all documents that the stage processes end. -/
def Ends (stage : Stage) (files : FileTree) (before : DocumentSet) : Prop :=
  ∀ key document, before.get? key = some document → stage.isEligible key →
    (stage.engine files before).expand key document.content ≠ .error .endless

/-- Without a function that was handed in, all expansions end. -/
theorem ends_of_isBuiltIn (hbuiltIn : stage.chain.all Resolver.isBuiltIn) :
    stage.Ends files before :=
  fun key document _ _ => Engine.expand_ne_endless_of_isBuiltIn hbuiltIn key document.content

/-- What is done with an expansion once it is there always ends. -/
theorem transclude_eq_endless {key : String} {document : Document} :
    stage.transclude files before key document = .error .endless ↔
      (stage.engine files before).expand key document.content = .error .endless := by
  unfold transclude
  cases (stage.engine files before).expand key document.content with
  | error obstacle => simp [bind, Except.bind]
  | ok expansion =>
    simp only [bind, Except.bind]
    split
    · exact iff_of_false nofun nofun
    · split
      · cases stage.options.output.attach stage.options.metadataKey key expansion.tree
          ⟨expansion.content, document.metadata⟩ <;> exact iff_of_false nofun nofun
      · exact iff_of_false nofun nofun

theorem ends_iff :
    stage.Ends files before ↔ ∀ entry ∈ stage.outcomes files before, entry.2 ≠ .endless := by
  constructor
  · rintro hends ⟨key, outcome⟩ hmem hendless
    obtain ⟨document, hget, heligible, houtcome⟩ := mem_outcomes.mp hmem
    refine hends key document hget heligible (transclude_eq_endless.mp ?_)
    exact outcome_eq_endless.mp (houtcome.symm.trans hendless)
  · intro hends key document hget heligible hendless
    refine hends _ (outcome_mem_outcomes hget heligible) ?_
    exact outcome_eq_endless.mpr (transclude_eq_endless.mpr hendless)

/-! ## The first failure -/

/-- The eligible document at `key` fails, and no document with a smaller key does. -/
structure FirstFailure (stage : Stage) (files : FileTree) (before : DocumentSet) (key : String)
    (error : Error) : Prop where
  comesTo : stage.ComesTo files before key (.error (.error error))
  not_tolerated : ¬ stage.Tolerates error
  le : ∀ key' error', stage.ComesTo files before key' (.error (.error error')) →
    ¬ stage.Tolerates error' → key ≤ key'

/-- The first failure in a report is the one with the smallest key. -/
theorem firstFailure_of_result {error : Error}
    (h : (Report.ofOutcomes (stage.outcomes files before)).result = .error error) :
    ∃ key, stage.FirstFailure files before key error := by
  obtain ⟨key, failures, hfailures⟩ := Report.result_eq_error_iff.mp h
  have hmem : ∀ {key' error'},
      (key', error') ∈ (Report.ofOutcomes (stage.outcomes files before)).failures ↔
        stage.ComesTo files before key' (.error (.error error')) ∧ ¬ stage.Tolerates error' :=
    Report.mem_failures.trans mem_outcomes_failed
  rw [hfailures] at hmem
  obtain ⟨hfails, htolerated⟩ := hmem.mp List.mem_cons_self
  refine ⟨key, hfails, htolerated, ?_⟩
  intro key' error' hfails' htolerated'
  have hlist : (Report.ofOutcomes (stage.outcomes files before)).failures.map Prod.fst ∈
      (Report.ofOutcomes (stage.outcomes files before)).lists := by simp [Report.lists]
  have hsorted := pairwise_of_mem_lists hlist
  rw [hfailures, List.map_cons, List.pairwise_cons] at hsorted
  rcases List.mem_cons.mp (hmem.mpr ⟨hfails', htolerated'⟩) with heq | hbehind
  · obtain ⟨rfl, -⟩ := Prod.mk.inj heq
    exact String.le_refl key'
  · exact Std.le_of_lt (hsorted.1 key' (List.mem_map_of_mem hbehind))

/-! ## Runs under the two policies -/

theorem ending?_failFast {outcomes : List (String × Outcome)}
    (h : ∀ entry ∈ outcomes, entry.2 ≠ .endless) :
    ending? .failFast outcomes = (Report.ofOutcomes outcomes).firstFailure?.map .error := by
  induction outcomes with
  | nil => rfl
  | cons entry outcomes ih =>
    obtain ⟨hentry, hothers⟩ := List.forall_mem_cons.mp h
    obtain ⟨key, outcome⟩ := entry
    rw [ending?_cons]
    cases outcome with
    | failed error => rfl
    | endless => exact absurd rfl hentry
    | _ => exact ih hothers

/-- The run that goes on has a report exactly if all expansions end, and that is the report of all
outcomes. -/
theorem runInPlace_collect_eq_ok {report : Report} {after : DocumentSet} :
    ((stage.withPolicy .collect).runInPlace files).run.run before = (.ok report, after) ↔
      stage.Ends files before ∧ report = Report.ofOutcomes (stage.outcomes files before) ∧
        after = update before (stage.outcomes files before) := by
  have hending : ending? (stage.withPolicy .collect).options.errorPolicy
      (stage.outcomes files before) = none ↔ stage.Ends files before := by
    rw [ending?_eq_none_iff, ends_iff]
    exact and_iff_left nofun
  constructor
  · intro h
    obtain ⟨hnone, rfl, rfl⟩ := runInPlace_eq_ok h
    exact ⟨hending.mp hnone, rfl, rfl⟩
  · rintro ⟨hends, rfl, rfl⟩
    rw [runInPlace_eq, outcomes_withPolicy, hending.mpr hends]

/-- The run that ends with the first failure takes its result from the report of all outcomes. -/
theorem runInPlace_failFast (hends : stage.Ends files before) :
    ((stage.withPolicy .failFast).runInPlace files).run.run before =
      match (Report.ofOutcomes (stage.outcomes files before)).result with
      | .ok report => (.ok report, update before (stage.outcomes files before))
      | .error error => (.error (.error error), before) := by
  have hending : ending? (stage.withPolicy .failFast).options.errorPolicy
      (stage.outcomes files before) = _ := ending?_failFast (ends_iff.mp hends)
  rw [runInPlace_eq, outcomes_withPolicy, hending]
  unfold Report.result
  cases (Report.ofOutcomes (stage.outcomes files before)).firstFailure? <;> rfl

/-- What the run that ends with the first failure does, where the run that goes on has a report and
leaves the set `after`. -/
structure Refines (stage : Stage) (files : FileTree) (before : DocumentSet) (report : Report)
    (after : DocumentSet) : Prop where
  succeeds_iff :
    (∃ report' after', ((stage.withPolicy .failFast).runInPlace files).run.run before =
      (.ok report', after')) ↔ report.failures = []
  of_no_failures : report.failures = [] →
    ((stage.withPolicy .failFast).runInPlace files).run.run before = (.ok report, after)
  /-- The error is the one that the report has as its result. -/
  of_failures : report.failures ≠ [] → ∃ key error, report.result = .error error ∧
    ((stage.withPolicy .failFast).runInPlace files).run.run before =
      (.error (.error error), before) ∧
    stage.FirstFailure files before key error

theorem refines_of_collect {report : Report} {after : DocumentSet}
    (h : ((stage.withPolicy .collect).runInPlace files).run.run before = (.ok report, after)) :
    stage.Refines files before report after := by
  obtain ⟨hends, rfl, rfl⟩ := runInPlace_collect_eq_ok.mp h
  have hrun := runInPlace_failFast hends
  cases hresult : (Report.ofOutcomes (stage.outcomes files before)).result with
  | ok report =>
    obtain ⟨rfl, hfailures⟩ := Report.result_eq_ok_iff.mp hresult
    rw [hresult] at hrun
    exact ⟨iff_of_true ⟨_, _, hrun⟩ hfailures, fun _ => hrun, fun h => absurd hfailures h⟩
  | error error =>
    obtain ⟨key, failures, hfailures⟩ := Report.result_eq_error_iff.mp hresult
    have hne : (Report.ofOutcomes (stage.outcomes files before)).failures ≠ [] := by
      rw [hfailures]
      exact List.cons_ne_nil _ _
    rw [hresult] at hrun
    refine ⟨iff_of_false ?_ hne, fun h => absurd h hne, fun _ => ?_⟩
    · rintro ⟨report', after', hrun'⟩
      rw [hrun] at hrun'
      exact nomatch hrun'
    · obtain ⟨key, hfirst⟩ := firstFailure_of_result hresult
      exact ⟨key, error, hresult, hrun, hfirst⟩

/-- Where all expansions end, a run comes to a report or to an error. -/
theorem runInPlace_ne_endless (hends : stage.Ends files before) :
    ((stage.runInPlace files).run.run before).1 ≠ .error .endless := by
  intro hendless
  rw [runInPlace_eq] at hendless
  cases hending : ending? stage.options.errorPolicy (stage.outcomes files before) with
  | none =>
    rw [hending] at hendless
    exact nomatch hendless
  | some obstacle =>
    rw [hending] at hendless
    cases hendless
    exact ending?_ne_endless (ends_iff.mp hends) hending

/-- Where all expansions end, a run has a report without failures under either policy exactly if no
document fails. -/
theorem exists_run_isOk_iff (hends : stage.Ends files before) (policy : ErrorPolicy) :
    (∃ report after, (stage.withPolicy policy).run files before = .ok (report, after) ∧
      report.isOk) ↔ (Report.ofOutcomes (stage.outcomes files before)).isOk := by
  simp only [run_eq_ok, outcomes_withPolicy]
  constructor
  · rintro ⟨report, after, ⟨-, rfl, -⟩, hok⟩
    exact hok
  · intro hok
    have hending : ending? policy (stage.outcomes files before) = none :=
      ending?_eq_none_iff.mpr ⟨ends_iff.mp hends, fun _ => List.isEmpty_iff.mp hok⟩
    exact ⟨_, _, ⟨hending, rfl, rfl⟩, hok⟩

end Stage

end Transclusion
