import Transclusion.Proofs.Stage.Progress
import Transclusion.Proofs.Stage.Rerun

/-!
# A run is a transaction on a snapshot

A run reads the set as it was before, and either leaves it so or changes exactly the documents that
its report lists as transcluded.

* `Report.perm_lists`, `Report.sublist_lists` — the lists of a report share out the keys of its
  outcomes and keep their order;
* `Stage.Accounts` — what a report must say about the set before a run and the set after it, and
  `Stage.accounts_of_ending?` — that it does;
* `Stage.WorksAlike` — stages that differ in nothing but which documents they process and what they
  do about failures;
* `Stage.runInPlace_isTransaction` — a run without a report leaves the set alone; a report accounts
  for the run, and what became of a document by it holds of all stages that work alike.
-/

namespace Transclusion

/-! ## The lists of a report -/

namespace Report

/-- The keys in the four lists of a report. -/
def lists (report : Report) : List (List String) :=
  [report.transcluded, report.unchanged, report.skipped.map Prod.fst, report.failures.map Prod.fst]

section Lists

variable {outcomes : List (String × Outcome)} {key : String}

theorem mem_transcluded :
    key ∈ (ofOutcomes outcomes).transcluded ↔ ∃ document, (key, .transcluded document) ∈ outcomes := by
  simp [ofOutcomes]

theorem mem_unchanged :
    key ∈ (ofOutcomes outcomes).unchanged ↔ (key, .unchanged) ∈ outcomes := by
  simp [ofOutcomes]

theorem mem_skipped {reason : Error} :
    (key, reason) ∈ (ofOutcomes outcomes).skipped ↔ (key, .skipped reason) ∈ outcomes := by
  simp [ofOutcomes]

theorem mem_failures {error : Error} :
    (key, error) ∈ (ofOutcomes outcomes).failures ↔ (key, .failed error) ∈ outcomes := by
  simp [ofOutcomes]

end Lists

/-- The lists share out the keys of the outcomes. -/
theorem perm_lists {outcomes : List (String × Outcome)}
    (h : ∀ entry ∈ outcomes, entry.2 ≠ .endless) :
    (ofOutcomes outcomes).lists.flatten.Perm (outcomes.map Prod.fst) := by
  refine List.perm_iff_count.mpr ?_
  intro key
  induction outcomes with
  | nil => rfl
  | cons first outcomes ih =>
    obtain ⟨k, outcome⟩ := first
    obtain ⟨hends, hothers⟩ := List.forall_mem_cons.mp h
    replace ih := ih hothers
    cases outcome
    case endless => exact absurd rfl hends
    all_goals
      simp [lists, ofOutcomes, Outcome.document?, Outcome.isUnchanged, Outcome.reason?,
        Outcome.error?, List.count_cons] at ih ⊢
      omega

/-- Keys that are picked out by their outcomes keep their order. -/
theorem sublist_filterMap {α : Type} (select : Outcome → Option α)
    (outcomes : List (String × Outcome)) :
    (outcomes.filterMap fun (key, outcome) => (select outcome).map fun _ => key).Sublist
      (outcomes.map Prod.fst) := by
  induction outcomes with
  | nil => exact .slnil
  | cons first outcomes ih =>
    obtain ⟨key, outcome⟩ := first
    cases h : select outcome with
    | none => simpa [h] using ih.cons key
    | some a => simpa [h] using ih.cons_cons key

/-- Each list keeps the order of the outcomes. -/
theorem sublist_lists (outcomes : List (String × Outcome)) {keys : List String}
    (h : keys ∈ (ofOutcomes outcomes).lists) : keys.Sublist (outcomes.map Prod.fst) := by
  simp only [lists, ofOutcomes, List.map_filterMap, Option.map_map, Function.comp_def,
    List.mem_cons, List.not_mem_nil, or_false] at h
  rcases h with rfl | rfl | rfl | rfl
  · exact sublist_filterMap Outcome.document? outcomes
  · exact List.filter_sublist.map _
  · exact sublist_filterMap Outcome.reason? outcomes
  · exact sublist_filterMap Outcome.error? outcomes

end Report

theorem Error.isMissingSource_iff {error : Error} :
    error.isMissingSource ↔
      ∃ document target path, error = .missingSourceFile document target path := by
  cases error <;> simp [isMissingSource]

namespace Stage

variable {stage : Stage} {files : FileTree} {before : DocumentSet}

/-! ## What a report accounts for -/

/-- What the eligible document at `key` comes to on its own, in the set as it was: another document,
nothing if there is nothing to change, or an obstacle. -/
def ComesTo (stage : Stage) (files : FileTree) (before : DocumentSet) (key : String)
    (result : Except Obstacle (Option Document)) : Prop :=
  stage.isEligible key ∧ ∃ document, before.get? key = some document ∧
    stage.transclude files before key document = result

/-- The error is about a missing file, and such errors are tolerated. -/
def Tolerates (stage : Stage) (error : Error) : Prop :=
  stage.options.skipMissing ∧
    ∃ document target path, error = .missingSourceFile document target path

/-- What a report says about the set `before` a run and the set `after` it. -/
structure Accounts (stage : Stage) (files : FileTree) (before : DocumentSet) (report : Report)
    (after : DocumentSet) : Prop where
  keys_eq : after.keys = before.keys
  /-- Each list is in key order. -/
  sorted : ∀ keys ∈ report.lists, keys.Pairwise (· < ·)
  /-- No key stands in the lists twice. -/
  nodup : report.lists.flatten.Nodup
  /-- The lists hold the eligible keys. -/
  mem_lists : ∀ key, key ∈ report.lists.flatten ↔ key ∈ before.keys ∧ stage.isEligible key
  untouched : ∀ key, key ∉ report.transcluded → after.get? key = before.get? key
  /-- A document that is transcluded gives way to what it comes to. -/
  transcluded : ∀ key ∈ report.transcluded, ∃ new,
    stage.ComesTo files before key (.ok (some new)) ∧ after.get? key = some new
  mem_transcluded : ∀ key, key ∈ report.transcluded ↔
    ∃ new, stage.ComesTo files before key (.ok (some new))
  mem_unchanged : ∀ key, key ∈ report.unchanged ↔ stage.ComesTo files before key (.ok none)
  mem_skipped : ∀ key error, (key, error) ∈ report.skipped ↔
    stage.ComesTo files before key (.error (.error error)) ∧ stage.Tolerates error
  mem_failures : ∀ key error, (key, error) ∈ report.failures ↔
    stage.ComesTo files before key (.error (.error error)) ∧ ¬ stage.Tolerates error
  failures_of_failFast : stage.options.errorPolicy = .failFast → report.failures = []

theorem tolerates_iff {error : Error} :
    stage.Tolerates error ↔ error.isMissingSource ∧ stage.options.skipMissing := by
  rw [Tolerates, Error.isMissingSource_iff, and_comm]

/-- The outcomes are those of what the documents come to. -/
theorem mem_outcomes_iff {key : String} {outcome : Outcome} :
    (key, outcome) ∈ stage.outcomes files before ↔
      stage.isEligible key ∧ ∃ document, before.get? key = some document ∧
        stage.outcome files before key document = outcome := by
  rw [mem_outcomes]
  constructor
  · rintro ⟨document, hget, heligible, houtcome⟩
    exact ⟨heligible, document, hget, houtcome.symm⟩
  · rintro ⟨heligible, document, hget, houtcome⟩
    exact ⟨document, hget, heligible, houtcome.symm⟩

section Outcomes

variable {key : String}

theorem mem_outcomes_transcluded {new : Document} :
    (key, .transcluded new) ∈ stage.outcomes files before ↔
      stage.ComesTo files before key (.ok (some new)) := by
  simp only [mem_outcomes_iff, outcome_eq_transcluded, ComesTo]

theorem mem_outcomes_unchanged :
    (key, .unchanged) ∈ stage.outcomes files before ↔
      stage.ComesTo files before key (.ok none) := by
  simp only [mem_outcomes_iff, outcome_eq_unchanged, ComesTo]

theorem mem_outcomes_skipped {reason : Error} :
    (key, .skipped reason) ∈ stage.outcomes files before ↔
      stage.ComesTo files before key (.error (.error reason)) ∧ stage.Tolerates reason := by
  simp only [mem_outcomes_iff, outcome_eq_skipped, ComesTo, tolerates_iff, ← and_assoc,
    exists_and_right]

theorem mem_outcomes_failed {error : Error} :
    (key, .failed error) ∈ stage.outcomes files before ↔
      stage.ComesTo files before key (.error (.error error)) ∧ ¬ stage.Tolerates error := by
  simp only [mem_outcomes_iff, outcome_eq_failed, ComesTo, tolerates_iff, ← and_assoc,
    exists_and_right]

end Outcomes

theorem keys_update : (update before (stage.outcomes files before)).keys = before.keys := by
  refine KeyMap.keys_eq_of_mem_iff ?_
  intro key
  rw [KeyMap.mem_keys_iff, KeyMap.mem_keys_iff, get?_update]
  simp

/-- A document that comes to another one gives way to it. -/
theorem get?_update_of_comesTo {key : String} {new : Document}
    (h : stage.ComesTo files before key (.ok (some new))) :
    (update before (stage.outcomes files before)).get? key = some new := by
  rw [get?_update_of_mem nodup_keys_outcomes (mem_outcomes_transcluded.mpr h)]
  rfl

theorem mem_transcluded_iff {key : String} :
    key ∈ (Report.ofOutcomes (stage.outcomes files before)).transcluded ↔
      ∃ new, stage.ComesTo files before key (.ok (some new)) := by
  simp only [Report.mem_transcluded, mem_outcomes_transcluded]

/-- A document that is not transcluded stays as it is. -/
theorem get?_update_of_not_transcluded {key : String}
    (h : key ∉ (Report.ofOutcomes (stage.outcomes files before)).transcluded) :
    (update before (stage.outcomes files before)).get? key = before.get? key := by
  rw [get?_update]
  cases hget : before.get? key with
  | none => rfl
  | some document =>
    rw [Option.map_some, finished]
    split
    · next heligible =>
      cases hnew : (stage.outcome files before key document).document? with
      | none => rfl
      | some new =>
        have hcomes : stage.ComesTo files before key (.ok (some new)) :=
          ⟨heligible, document, hget,
            outcome_eq_transcluded.mp (Outcome.document?_eq_some_iff.mp hnew)⟩
        exact absurd (mem_transcluded_iff.mpr ⟨new, hcomes⟩) h
    · rfl

/-- Each list of the report of all outcomes is in key order. -/
theorem pairwise_of_mem_lists {keys : List String}
    (h : keys ∈ (Report.ofOutcomes (stage.outcomes files before)).lists) :
    keys.Pairwise (· < ·) := by
  have hsublist := Report.sublist_lists _ h
  rw [keys_outcomes] at hsublist
  exact (before.pairwise_keys.filter _).sublist hsublist

/-- The report of a run that nothing ends accounts for it. -/
theorem accounts_of_ending?
    (h : ending? stage.options.errorPolicy (stage.outcomes files before) = none) :
    stage.Accounts files before (Report.ofOutcomes (stage.outcomes files before))
      (update before (stage.outcomes files before)) where
  keys_eq := keys_update
  sorted _ hkeys := pairwise_of_mem_lists hkeys
  nodup := (Report.perm_lists (ending?_eq_none_iff.mp h).1).nodup_iff.mpr nodup_keys_outcomes
  mem_lists key := by
    rw [(Report.perm_lists (ending?_eq_none_iff.mp h).1).mem_iff, keys_outcomes, List.mem_filter]
  untouched _ hkey := get?_update_of_not_transcluded hkey
  transcluded key hkey := by
    obtain ⟨new, hnew⟩ := mem_transcluded_iff.mp hkey
    exact ⟨new, hnew, get?_update_of_comesTo hnew⟩
  mem_transcluded _ := mem_transcluded_iff
  mem_unchanged _ := Report.mem_unchanged.trans mem_outcomes_unchanged
  mem_skipped _ _ := Report.mem_skipped.trans mem_outcomes_skipped
  mem_failures _ _ := Report.mem_failures.trans mem_outcomes_failed
  failures_of_failFast := (ending?_eq_none_iff.mp h).2

/-! ## Stages that work alike -/

/-- The stages differ in nothing but which documents they process and what they do about
failures. -/
structure WorksAlike (stage other : Stage) : Prop where
  chain_eq : other.chain = stage.chain
  expandOptions_eq : other.options.expandOptions = stage.options.expandOptions
  frontmatter_eq : other.options.frontmatter = stage.options.frontmatter
  metadataKey_eq : other.options.metadataKey = stage.options.metadataKey
  output_eq : other.options.output = stage.options.output

theorem WorksAlike.transclude_eq {other : Stage} (h : stage.WorksAlike other) :
    other.transclude = stage.transclude := by
  funext files documents key document
  simp only [transclude, engine, h.chain_eq, h.expandOptions_eq, h.frontmatter_eq,
    h.metadataKey_eq, h.output_eq]

/-- What a document comes to is the same for both, if both process it. -/
theorem WorksAlike.comesTo {other : Stage} (h : stage.WorksAlike other) {key : String}
    (heligible : other.isEligible key) {result : Except Obstacle (Option Document)}
    (hresult : stage.ComesTo files before key result) : other.ComesTo files before key result := by
  obtain ⟨-, document, hget, htransclude⟩ := hresult
  exact ⟨heligible, document, hget, by rw [h.transclude_eq, htransclude]⟩

/-! ## Transactions -/

/-- The chain that options call for has no function that was handed in. -/
theorem isBuiltIn_of_ofOptions {options : StageOptions}
    (hstage : Stage.ofOptions options = .ok stage) : stage.chain.all Resolver.isBuiltIn := by
  obtain ⟨pattern, -, hstage⟩ := bind_eq_ok.mp hstage
  cases hstage
  unfold StageOptions.chain
  cases options.sourceRoot <;> cases options.fallback <;> rfl

/-- A run in place has a report that all outcomes give, and the set is updated; or it has none, and
the set is what it was. -/
theorem runInPlace_cases (stage : Stage) (files : FileTree) (before : DocumentSet) :
    (∃ obstacle, (stage.runInPlace files).run.run before = (.error obstacle, before)) ∨
    (ending? stage.options.errorPolicy (stage.outcomes files before) = none ∧
      (stage.runInPlace files).run.run before =
        (.ok (Report.ofOutcomes (stage.outcomes files before)),
          update before (stage.outcomes files before))) := by
  rw [runInPlace_eq]
  cases hending : ending? stage.options.errorPolicy (stage.outcomes files before) with
  | some obstacle => exact .inl ⟨obstacle, rfl⟩
  | none => exact .inr ⟨rfl, rfl⟩

theorem runInPlace_eq_ok {report : Report} {after : DocumentSet}
    (h : (stage.runInPlace files).run.run before = (.ok report, after)) :
    ending? stage.options.errorPolicy (stage.outcomes files before) = none ∧
      report = Report.ofOutcomes (stage.outcomes files before) ∧
      after = update before (stage.outcomes files before) := by
  rcases stage.runInPlace_cases files before with ⟨obstacle, herror⟩ | ⟨hending, hok⟩
  · rw [herror] at h
    exact nomatch h
  · rw [hok] at h
    cases h
    exact ⟨hending, rfl, rfl⟩

/-- A run is a transaction on the set as it was before. If it has no report, the set is left alone.
If it has one, that accounts for the set afterwards; a transcluded document comes to the same in the
run of any stage that works alike; and a stage with the chain its options call for leaves documents
alone that have no directives but URLs. -/
theorem runInPlace_isTransaction (stage : Stage) (files : FileTree) (before : DocumentSet) :
    (∀ obstacle after,
      (stage.runInPlace files).run.run before = (.error obstacle, after) → after = before) ∧
    ∀ report after, (stage.runInPlace files).run.run before = (.ok report, after) →
      stage.Accounts files before report after ∧
      (∀ other : Stage, stage.WorksAlike other → ∀ report' after',
        (other.runInPlace files).run.run before = (.ok report', after') →
        ∀ key ∈ report.transcluded, other.isEligible key →
          key ∈ report'.transcluded ∧ after'.get? key = after.get? key) ∧
      (∀ options, Stage.ofOptions options = .ok stage →
        ∀ key document, before.get? key = some document → stage.isEligible key →
          (∀ d ∈ directives document.content, d.isRemote) → key ∈ report.unchanged) := by
  constructor
  · intro obstacle after h
    rcases stage.runInPlace_cases files before with ⟨obstacle', herror⟩ | ⟨-, hok⟩
    · rw [herror] at h
      exact (Prod.mk.inj h).2.symm
    · rw [hok] at h
      exact nomatch h
  · intro report after h
    obtain ⟨hending, rfl, rfl⟩ := runInPlace_eq_ok h
    refine ⟨accounts_of_ending? hending, ?_, ?_⟩
    · intro other halike report' after' h' key hkey heligible
      obtain ⟨-, rfl, rfl⟩ := runInPlace_eq_ok h'
      obtain ⟨new, hnew⟩ := mem_transcluded_iff.mp hkey
      have hsame := halike.comesTo heligible hnew
      refine ⟨mem_transcluded_iff.mpr ⟨new, hsame⟩, ?_⟩
      rw [get?_update_of_comesTo hsame, get?_update_of_comesTo hnew]
    · intro options hstage key document hget heligible hremote
      have hmem : (key, stage.outcome files before key document) ∈ stage.outcomes files before :=
        outcome_mem_outcomes hget heligible
      rw [outcome_of_remote (isBuiltIn_of_ofOptions hstage) hremote] at hmem
      exact Report.mem_unchanged.mpr hmem

theorem worksAlike_of_withChain {options options' : StageOptions} {chain : List Resolver}
    {other : Stage} (hstage : Stage.withChain options chain = .ok stage)
    (hother : Stage.withChain options' chain = .ok other)
    (hexpand : options'.expandOptions = options.expandOptions)
    (hfrontmatter : options'.frontmatter = options.frontmatter)
    (hkey : options'.metadataKey = options.metadataKey)
    (houtput : options'.output = options.output) : stage.WorksAlike other := by
  obtain ⟨pattern, -, hstage⟩ := bind_eq_ok.mp hstage
  obtain ⟨pattern', -, hother⟩ := bind_eq_ok.mp hother
  cases hstage
  cases hother
  exact ⟨rfl, hexpand, hfrontmatter, hkey, houtput⟩

/-- A run with outcomes of all four kinds; a stage that processes only one of the documents, and one
that does not tolerate failures; and a stage with the chain its options call for. -/
theorem runInPlace_isTransaction_mixed :
    let missing : Resolver :=
      .custom "shelf" fun _ r =>
        if r.isRemote then .ok none else .error (.missingSourceFile r.source r.target r.target)
    let before : DocumentSet := .ofList
      [("a.md", ⟨"A :[](//u)", .empty⟩), ("b.md", ⟨":[](c.md)", .empty⟩), ("c.md", ⟨":[](d.md)", .empty⟩),
        ("d.md", ⟨"D", .empty⟩), ("e.md", ⟨":[](gone)", .empty⟩), ("f.md", ⟨":[](f.md)", .empty⟩)]
    let after : DocumentSet := .ofList
      [("a.md", ⟨"A :[](//u)", .empty⟩), ("b.md", ⟨"D", .empty⟩), ("c.md", ⟨"D", .empty⟩),
        ("d.md", ⟨"D", .empty⟩), ("e.md", ⟨":[](gone)", .empty⟩), ("f.md", ⟨":[](f.md)", .empty⟩)]
    let after' : DocumentSet := before.insert "b.md" ⟨"D", .empty⟩
    let report : Report := ⟨["b.md", "c.md"], ["a.md", "d.md"],
      [("e.md", .missingSourceFile "e.md" "gone" "gone")],
      [("f.md", .cyclicTransclusion "f.md" "f.md" ["f.md", "f.md"])]⟩
    ∃ stage other strict plain : Stage,
      Stage.withChain { errorPolicy := .collect, skipMissing := true } [.exact false, missing] =
        .ok stage ∧
      Stage.withChain { pattern := "b.md" } [.exact false, missing] = .ok other ∧
      Stage.withChain {} [.exact false, missing] = .ok strict ∧
      (stage.runInPlace default).run.run before = (.ok report, after) ∧
      stage.Accounts default before report after ∧
      stage.WorksAlike other ∧
      (other.runInPlace default).run.run before = (.ok ⟨["b.md"], [], [], []⟩, after') ∧
      after'.get? "b.md" = after.get? "b.md" ∧
      (∃ set, (strict.runInPlace default).run.run before =
        (.error (.error (.missingSourceFile "e.md" "gone" "gone")), set) ∧ set = before) ∧
      Stage.ofOptions { pattern := "a*" } = .ok plain ∧
      ∃ report' set, (plain.runInPlace default).run.run before = (.ok report', set) ∧
        "a.md" ∈ report'.unchanged := by
  intro missing before after after' report
  let comes : Stage → Except Obstacle Report × DocumentSet := fun stage =>
    (stage.runInPlace default).run.run before
  have hruns : (Stage.withChain { errorPolicy := .collect, skipMissing := true }
      [.exact false, missing] >>= fun stage => .ok (comes stage)) =
      .ok (.ok report, after) := by decide +kernel
  have hruns' : (Stage.withChain { pattern := "b.md" } [.exact false, missing] >>= fun other =>
      .ok (comes other, other.isEligible "b.md")) =
      .ok ((.ok ⟨["b.md"], [], [], []⟩, after'), true) := by decide +kernel
  have herrors : (Stage.withChain {} [.exact false, missing] >>= fun strict =>
      .ok (comes strict)) =
      .ok (.error (.error (.missingSourceFile "e.md" "gone" "gone")), before) := by
    decide +kernel
  have hplains : (Stage.ofOptions { pattern := "a*" } >>= fun plain =>
      .ok (comes plain, plain.isEligible "a.md")) =
      .ok ((.ok ⟨[], ["a.md"], [], []⟩, before), true) := by decide +kernel
  obtain ⟨stage, hstage, hrun⟩ := bind_eq_ok.mp hruns
  obtain ⟨other, hother, hrun'⟩ := bind_eq_ok.mp hruns'
  obtain ⟨strict, hstrict, herror⟩ := bind_eq_ok.mp herrors
  obtain ⟨plain, hplain, hrun''⟩ := bind_eq_ok.mp hplains
  rw [Except.ok.injEq] at hrun herror
  rw [Except.ok.injEq, Prod.mk.injEq] at hrun' hrun''
  obtain ⟨hrun', heligible⟩ := hrun'
  obtain ⟨hrun'', heligible'⟩ := hrun''
  have halike : stage.WorksAlike other := worksAlike_of_withChain hstage hother rfl rfl rfl rfl
  obtain ⟨-, hreport⟩ := runInPlace_isTransaction stage default before
  obtain ⟨haccounts, hsame, -⟩ := hreport report after hrun
  obtain ⟨-, hb⟩ := hsame other halike _ _ hrun' "b.md" (by decide) heligible
  obtain ⟨hset, -⟩ := runInPlace_isTransaction strict default before
  obtain ⟨-, hreport'⟩ := runInPlace_isTransaction plain default before
  obtain ⟨-, -, hunchanged⟩ := hreport' _ _ hrun''
  have ha := hunchanged _ hplain "a.md" ⟨"A :[](//u)", .empty⟩ (by decide +kernel) heligible'
    (by decide +kernel)
  exact ⟨stage, other, strict, plain, hstage, hother, hstrict, hrun, haccounts, halike, hrun', hb,
    ⟨before, herror, hset _ _ herror⟩, hplain, _, _, hrun'', ha⟩

end Stage

end Transclusion
