import Transclusion.Proofs.CommandLine.Ending

/-!
# A check and a dry run

A check expands the documents under the policy that goes on, and a build under the policy of the
project. Both succeed on the same projects.

* `CommandLine.Prints` — a part of a command that does nothing but print and comes to a result, with
  a lemma for each way to make one from others;
* `CommandLine.prints_load`, `CommandLine.prints_expandAll`, `CommandLine.prints_check`,
  `CommandLine.prints_dryRun` — what the parts come to;
* `CommandLine.Clean` — the project loads and no document fails;
* `CommandLine.isSome_status?` — every command line exits, and `CommandLine.status?_check`,
  `CommandLine.status?_dryRun` — either command with 0 exactly then;
* `failFast_refines_collect` — the two policies and the two commands.
-/

namespace Transclusion

namespace CommandLine

variable {files : FileTree} {setup : Setup}

/-! ## Parts that only print -/

/-- On these files the part comes to the result, and does nothing but print. -/
def Prints (files : FileTree) (work : Work α) (result : Except Failure α) : Prop :=
  ∀ session, session.files = files →
    (work.run.run session).1 = result ∧ (work.run.run session).2.files = files

namespace Prints

theorem pure (a : α) : Prints files (Pure.pure a : Work α) (.ok a) :=
  fun _ hfiles => ⟨rfl, hfiles⟩

theorem throw (failure : Failure) : Prints files (throw failure : Work α) (.error failure) :=
  fun _ hfiles => ⟨rfl, hfiles⟩

theorem print (line : Line) : Prints files (CommandLine.print line) (.ok ()) :=
  fun _ hfiles => ⟨rfl, hfiles⟩

theorem orFail (result : Except Error α) :
    Prints files (CommandLine.orFail result) (result.mapError .error) :=
  fun _ hfiles => ⟨rfl, hfiles⟩

theorem orStop (result : Except Obstacle α) :
    Prints files (CommandLine.orStop result) (result.mapError .ofObstacle) :=
  fun _ hfiles => ⟨rfl, hfiles⟩

/-- The next part starts from what this one comes to. -/
theorem seq {work : Work α} {next : α → Work β} {a : α} {result : Except Failure β}
    (h : Prints files work (.ok a)) (hnext : Prints files (next a) result) :
    Prints files (work >>= next) result := by
  intro session hfiles
  obtain ⟨hresult, hafter⟩ := h session hfiles
  rw [run_run_bind]
  match hrun : work.run.run session with
  | (.ok a', after) =>
    rw [hrun] at hresult hafter
    cases hresult
    exact hnext after hafter
  | (.error failure, after) =>
    rw [hrun] at hresult
    exact nomatch hresult

/-- The next part is not reached. -/
theorem stop {work : Work α} {failure : Failure} (h : Prints files work (.error failure))
    (next : α → Work β) : Prints files (work >>= next) (.error failure) := by
  intro session hfiles
  obtain ⟨hresult, hafter⟩ := h session hfiles
  rw [run_run_bind]
  match hrun : work.run.run session with
  | (.ok a, after) =>
    rw [hrun] at hresult
    exact nomatch hresult
  | (.error failure', after) =>
    rw [hrun] at hresult hafter
    cases hresult
    exact ⟨rfl, hafter⟩

/-- The next part may read the files of the session. -/
theorem get {next : Session → Work α} {result : Except Failure α}
    (h : ∀ session, session.files = files → Prints files (next session) result) :
    Prints files (MonadState.get >>= next) result := by
  intro session hfiles
  rw [run_run_bind, run_run_get]
  exact h session hfiles session hfiles

/-- A loop that prints something for each value. -/
theorem forIn {as : List α} {body : α → PUnit → Work (ForInStep PUnit)}
    (h : ∀ a, Prints files (body a PUnit.unit) (.ok (.yield PUnit.unit))) :
    Prints files (ForIn.forIn as PUnit.unit body) (.ok PUnit.unit) := by
  induction as with
  | nil => exact pure _
  | cons a as ih =>
    rw [List.forIn_cons]
    exact (h a).seq ih

end Prints

/-! ## What the parts come to -/

theorem prints_warnSkipped (report : Report) :
    Prints files (warnSkipped setup report) (.ok ()) := by
  unfold warnSkipped
  refine Prints.seq (Prints.forIn ?_) (.pure _)
  intro (key, reason)
  exact (Prints.print _).seq (.pure _)

theorem prints_reportFailures (report : Report) :
    Prints files (reportFailures setup report) (.ok ()) := by
  unfold reportFailures
  refine Prints.seq (Prints.forIn ?_) (.pure _)
  intro (key, error)
  exact (Prints.print _).seq ((Prints.print _).seq (.pure _))

theorem prints_load :
    Prints files (load setup) ((Project.load files setup.root).mapError .error) := by
  unfold load
  refine Prints.get ?_
  intro session hfiles
  rw [hfiles]
  cases Project.load files setup.root with
  | error error => exact (Prints.orFail (.error error)).stop _
  | ok project =>
    refine (Prints.orFail (.ok project)).seq ?_
    dsimp only
    split
    · exact (Prints.print _).seq (.pure _)
    · exact .pure _

/-- What an expansion of all documents comes to. -/
def expanded (files : FileTree) (project : Project) (options : StageOptions) :
    Except Obstacle (Report × DocumentSet) := do
  let stage ← (Stage.ofOptions options).mapError .error
  stage.run files project.tree.documents

theorem prints_expandAll (project : Project) (options : StageOptions) :
    Prints files (expandAll project options)
      ((expanded files project options).mapError .ofObstacle) := by
  unfold expandAll expanded
  cases Stage.ofOptions options with
  | error error => exact (Prints.orFail (.error error)).stop _
  | ok stage =>
    refine (Prints.orFail (.ok stage)).seq (Prints.get ?_)
    intro session hfiles
    rw [hfiles]
    show Prints files _ ((stage.run files project.tree.documents).mapError .ofObstacle)
    rw [Stage.run_eq_runInPlace]
    match (stage.runInPlace files).run.run project.tree.documents with
    | (.ok report, documents) => exact (Prints.orStop (.ok report)).seq (.pure _)
    | (.error obstacle, documents) => exact (Prints.orStop (.error obstacle)).stop _

/-! ## Expanding a project -/

/-- What a command comes to that expands the documents of a project and draws a conclusion from the
report. -/
def concluded (files : FileTree) (root : String) (options : Project → StageOptions)
    (conclusion : Report → Except Failure Unit) : Except Failure Unit :=
  match Project.load files root with
  | .error error => .error (.error error)
  | .ok project =>
      match expanded files project (options project) with
      | .error obstacle => .error (.ofObstacle obstacle)
      | .ok (report, _) => conclusion report

theorem prints_concluded {options : Project → StageOptions}
    {next : Project → Report × DocumentSet → Work Unit} {conclusion : Report → Except Failure Unit}
    (h : ∀ project report documents,
      Prints files (next project (report, documents)) (conclusion report)) :
    Prints files
      (load setup >>= fun project => expandAll project (options project) >>= next project)
      (concluded files setup.root options conclusion) := by
  have hload : Prints files (load setup) _ := prints_load
  unfold concluded
  cases hproject : Project.load files setup.root with
  | error error =>
    rw [hproject] at hload
    exact hload.stop _
  | ok project =>
    rw [hproject] at hload
    refine hload.seq ?_
    have hexpand : Prints files (expandAll project (options project)) _ := prints_expandAll _ _
    dsimp only
    cases hrun : expanded files project (options project) with
    | error obstacle =>
      rw [hrun] at hexpand
      exact hexpand.stop _
    | ok answer =>
      rw [hrun] at hexpand
      exact hexpand.seq (h project answer.1 answer.2)

/-- The project loads and none of its documents fails. -/
def Clean (files : FileTree) (root : String) : Prop :=
  ∃ project stage, Project.load files root = .ok project ∧
    Stage.ofOptions project.stageOptions = .ok stage ∧
    (Report.ofOutcomes (stage.outcomes files project.tree.documents)).isOk

/-- Whatever the policy, a command that accepts only reports without failures succeeds on the
projects that are clean. -/
theorem concluded_eq_ok_iff {root : String} {policy : Project → ErrorPolicy}
    {conclusion : Report → Except Failure Unit}
    (h : ∀ report, conclusion report = .ok () ↔ report.isOk) :
    concluded files root
        (fun project => { project.stageOptions with errorPolicy := policy project }) conclusion
      = .ok () ↔ Clean files root := by
  unfold concluded expanded Clean
  simp only [Stage.ofOptions_withPolicy]
  cases hproject : Project.load files root with
  | error error => simp
  | ok project =>
    cases hstage : Stage.ofOptions project.stageOptions with
    | error error => simp [Except.map, Except.mapError, bind, Except.bind, hstage]
    | ok stage =>
      -- the chain of a project is made of what comes with the library, so its expansions end
      have hends : stage.Ends files project.tree.documents :=
        Stage.ends_of_isBuiltIn (Stage.isBuiltIn_of_ofOptions hstage)
      have hok := Stage.exists_run_isOk_iff hends (policy project)
      simp only [Except.map, Except.mapError, bind, Except.bind, Except.ok.injEq,
        exists_eq_left', exists_and_left, hstage, ← hok]
      cases (stage.withPolicy (policy project)).run files project.tree.documents with
      | error obstacle => simp
      | ok answer =>
        obtain ⟨report, after⟩ := answer
        simp [h]

/-! ## The two commands -/

/-- A conclusion that accepts a report without failures, and gives up on another one. -/
def accept (failure : Report → Failure) (report : Report) : Except Failure Unit :=
  if report.isOk then .ok () else .error (failure report)

theorem accept_eq_ok_iff {failure : Report → Failure} (report : Report) :
    accept failure report = .ok () ↔ report.isOk := by
  unfold accept
  split <;> simp [*]

/-- How both commands end. -/
theorem prints_accept {failure : Report → Failure} {report : Report} {work : Work Unit}
    (h : Prints files work (.error (failure report))) :
    Prints files (if !report.isOk then work else pure ()) (accept failure report) := by
  unfold accept
  cases report.isOk with
  | true => exact .pure ()
  | false => exact h

theorem prints_check (format : CheckFormat) :
    Prints files (check setup format)
      (concluded files setup.root
        (fun project => { project.stageOptions with errorPolicy := .collect })
        (accept fun _ => .check)) := by
  unfold check
  refine prints_concluded ?_
  intro project report documents
  have hend : Prints files
      (if !report.isOk then throw (m := Work) Failure.check else pure ())
      (accept (fun _ => .check) report) := prints_accept (.throw _)
  cases format with
  | json => exact (Prints.print _).seq hend
  | text =>
    refine (prints_warnSkipped report).seq ?_
    split
    · exact (Prints.print _).seq hend
    · exact (Prints.print _).seq ((prints_reportFailures report).seq hend)

/-- Without other options a dry run takes those of the project. -/
theorem apply_dryRun (options : StageOptions) :
    BuildOptions.apply { dryRun := true } options = options := by
  simp [BuildOptions.apply]

theorem prints_dryRun :
    Prints files (build setup { dryRun := true })
      (concluded files setup.root Project.stageOptions
        (accept fun report => .documents report.failures.length)) := by
  unfold build
  simp only [apply_dryRun]
  refine prints_concluded ?_
  intro project report documents
  have hend : Prints files
      (if !report.isOk then do
        reportFailures setup report
        throw (m := Work) (Failure.documents report.failures.length)
      else pure ())
      (accept (fun report => .documents report.failures.length) report) :=
    prints_accept ((prints_reportFailures report).seq (.throw _))
  refine (prints_warnSkipped report).seq ?_
  dsimp only
  split
  · refine Prints.seq (Prints.forIn ?_) ((Prints.print _).seq hend)
    intro key
    exact (Prints.print _).seq (.pure _)
  · exact (Prints.print _).seq hend

/-! ## Exit status -/

variable {arguments : List String} {colors : Bool} {path : Option String} {verbose noColor : Bool}

/-- The root of the project that a command works on. -/
def rootOf (files : FileTree) (path : Option String) : String :=
  path.getD (currentDirectory files)

/-- The status with which a command line exits; none if it does not end. -/
def status? (arguments : List String) (colors : Bool) (files : FileTree) : Option Nat :=
  (run arguments colors files).map Result.status

/-- Every command line exits with a status. -/
theorem isSome_status? (arguments : List String) (colors : Bool) (files : FileTree) :
    (status? arguments colors files).isSome := by
  rw [status?, Option.isSome_map]
  exact isSome_run arguments colors files

/-- The status is 0 exactly if the command succeeds. -/
theorem status?_eq_zero_iff {command : Command} {result : Except Failure Unit}
    (hparse : Arguments.parse arguments = .ok ⟨some command, path, verbose, noColor⟩)
    (h : ∀ setup : Setup, setup.root = rootOf files path →
      Prints files (carryOut setup command) result) :
    status? arguments colors files = some 0 ↔ result = .ok () := by
  unfold status? run
  simp only [hparse]
  obtain ⟨hresult, -⟩ :=
    h ⟨path.getD (currentDirectory files), verbose, colors && !noColor⟩ rfl ⟨files, []⟩ rfl
  rw [← hresult]
  generalize (carryOut _ command).run.run ⟨files, []⟩ = ended
  match ended with
  | (.ok (), _) => exact iff_of_true rfl rfl
  | (.error .check, _) => exact iff_of_false nofun nofun
  | (.error (.error error), _) => exact iff_of_false nofun nofun
  | (.error (.documents count), _) => exact iff_of_false nofun nofun
  | (.error .endless, _) => exact iff_of_false nofun nofun

theorem status?_check {format : CheckFormat}
    (hparse : Arguments.parse arguments = .ok ⟨some (.check format), path, verbose, noColor⟩) :
    status? arguments colors files = some 0 ↔ Clean files (rootOf files path) := by
  rw [← concluded_eq_ok_iff accept_eq_ok_iff]
  refine status?_eq_zero_iff hparse ?_
  intro setup hroot
  rw [← hroot]
  exact prints_check format

theorem status?_dryRun
    (hparse : Arguments.parse arguments =
      .ok ⟨some (.build { dryRun := true }), path, verbose, noColor⟩) :
    status? arguments colors files = some 0 ↔ Clean files (rootOf files path) := by
  rw [← concluded_eq_ok_iff accept_eq_ok_iff]
  refine status?_eq_zero_iff hparse ?_
  intro setup hroot
  rw [← hroot]
  exact prints_dryRun

end CommandLine

/-! ## Policies and commands -/

/-- Whether a run ends with the first failure or goes on, it is the same run. The one that goes on
has a report exactly if all expansions end, as they do without a function that was handed in, so
with every chain that options call for, and then the other one follows from that report. So a check
and a dry run of the same project without other options both exit, and one exits with 0 exactly if
the other one does, whatever the project says about failures. -/
theorem failFast_refines_collect :
    (∀ (stage : Stage) (files : FileTree) (before : DocumentSet),
      (∀ options, Stage.ofOptions options = .ok stage → stage.chain.all Resolver.isBuiltIn) ∧
      (stage.chain.all Resolver.isBuiltIn → stage.Ends files before) ∧
      (stage.Ends files before ↔ ∃ report after,
        ((stage.withPolicy .collect).runInPlace files).run.run before = (.ok report, after)) ∧
      ∀ report after,
        ((stage.withPolicy .collect).runInPlace files).run.run before = (.ok report, after) →
        stage.Refines files before report after) ∧
    ∀ arguments arguments' path format verbose verbose' noColor noColor',
      Arguments.parse arguments = .ok ⟨some (.check format), path, verbose, noColor⟩ →
      Arguments.parse arguments' =
        .ok ⟨some (.build { dryRun := true }), path, verbose', noColor'⟩ →
      ∀ colors colors' files, (CommandLine.status? arguments colors files).isSome ∧
        (CommandLine.status? arguments' colors' files).isSome ∧
        (CommandLine.status? arguments colors files = some 0 ↔
          CommandLine.status? arguments' colors' files = some 0) := by
  constructor
  · intro stage files before
    refine ⟨fun _ => Stage.isBuiltIn_of_ofOptions, Stage.ends_of_isBuiltIn, ?_,
      fun _ _ => Stage.refines_of_collect⟩
    constructor
    · exact fun hends => ⟨_, _, Stage.runInPlace_collect_eq_ok.mpr ⟨hends, rfl, rfl⟩⟩
    · rintro ⟨report, after, hcollect⟩
      exact (Stage.runInPlace_collect_eq_ok.mp hcollect).1
  · intro arguments arguments' path format verbose verbose' noColor noColor' hcheck hdryRun colors
      colors' files
    refine ⟨CommandLine.isSome_status? .., CommandLine.isSome_status? .., ?_⟩
    rw [CommandLine.status?_check hcheck, CommandLine.status?_dryRun hdryRun]

/-- A set with two failures, and command lines for both commands. -/
theorem failFast_refines_collect_cyclic :
    let before : DocumentSet := .ofList
      [("a.md", ⟨":[](b.md)", .empty⟩), ("b.md", ⟨":[](b.md)", .empty⟩), ("c.md", ⟨"C", .empty⟩)]
    let cyclic : Error := .cyclicTransclusion "b.md" "b.md" ["a.md", "b.md", "b.md"]
    let report : Report := ⟨[], ["c.md"], [],
      [("a.md", cyclic), ("b.md", .cyclicTransclusion "b.md" "b.md" ["b.md", "b.md"])]⟩
    (∃ stage, Stage.withChain {} [.exact false] = .ok stage ∧
      stage.chain.all Resolver.isBuiltIn = true ∧ stage.Ends default before ∧
      ((stage.withPolicy .collect).runInPlace default).run.run before = (.ok report, before) ∧
      ((stage.withPolicy .failFast).runInPlace default).run.run before =
        (.error (.error cyclic), before) ∧
      ∃ key, stage.FirstFailure default before key cyclic) ∧
    Arguments.parse ["check"] = .ok ⟨some (.check .text), none, false, false⟩ ∧
    Arguments.parse ["-v", "build", "--dry-run"] =
      .ok ⟨some (.build { dryRun := true }), none, true, false⟩ ∧
    (CommandLine.status? ["check"] true default).isSome ∧
    (CommandLine.status? ["-v", "build", "--dry-run"] false default).isSome ∧
    (CommandLine.status? ["check"] true default = some 0 ↔
      CommandLine.status? ["-v", "build", "--dry-run"] false default = some 0) := by
  intro before cyclic report
  obtain ⟨hruns, hcommands⟩ := failFast_refines_collect
  have hcheck : Arguments.parse ["check"] = .ok ⟨some (.check .text), none, false, false⟩ := by
    decide +kernel
  have hdryRun : Arguments.parse ["-v", "build", "--dry-run"] =
      .ok ⟨some (.build { dryRun := true }), none, true, false⟩ := by decide +kernel
  let comes : Stage → Except Obstacle Report × DocumentSet := fun stage =>
    ((stage.withPolicy .collect).runInPlace default).run.run before
  have hcollects : ((Stage.withChain {} [.exact false]).map fun stage =>
      (stage.chain.all Resolver.isBuiltIn, comes stage)) =
      .ok (true, .ok report, before) := by decide +kernel
  obtain ⟨stage, hstage, hcollect⟩ := map_eq_ok.mp hcollects
  obtain ⟨hbuiltIn, hcollect⟩ := Prod.mk.inj hcollect
  obtain ⟨-, hends, -, hrefines⟩ := hruns stage default before
  obtain ⟨key, error, hresult, hfailFast, hfirst⟩ :=
    (hrefines report before hcollect).of_failures (by simp [report])
  cases hresult
  exact ⟨⟨stage, hstage, hbuiltIn, hends hbuiltIn, hcollect, hfailFast, key, hfirst⟩, hcheck,
    hdryRun, hcommands _ _ _ _ _ _ _ _ hcheck hdryRun _ _ _⟩

/-- A run that goes on need not have a report: not where a resolver that was handed in leads on to
ever new fragments, and not where there is no stage, as the options have a pattern that cannot be
read. -/
theorem collect_without_report :
    (∃ stage, Stage.withChain {} [.onward] = .ok stage ∧
      ¬ ∃ report after, ((stage.withPolicy .collect).runInPlace default).run.run
        (.ofList [("a.md", ⟨":[](on)", .empty⟩)]) = (.ok report, after)) ∧
    ∃ message, Stage.ofOptions { pattern := "[", errorPolicy := .collect } =
      .error (.invalidPattern "[" message) := by
  constructor
  · have hmatches : (Stage.withChain {} [.onward]).map (·.isEligible "a.md") = .ok true := by
      decide +kernel
    obtain ⟨stage, hstage, heligible⟩ := map_eq_ok.mp hmatches
    refine ⟨stage, hstage, ?_⟩
    rintro ⟨report, after, hcollect⟩
    have hends := (Stage.runInPlace_collect_eq_ok.mp hcollect).1
    obtain ⟨pattern, -, hparts⟩ := bind_eq_ok.mp hstage
    cases hparts
    exact hends "a.md" ⟨":[](on)", .empty⟩ (by decide +kernel) heligible
      (Engine.expand_onward rfl Bool.false_ne_true "a.md")
  · exact ⟨_, rfl⟩

end Transclusion
