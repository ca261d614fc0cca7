import Transclusion.CommandLine.Run
import Transclusion.Proofs.Stage.Policies

/-!
# Command lines end

The chain of a project has no function that was handed in as a resolver. So all expansions that a
command asks for end, and nothing else in a command can go on forever.

* `CommandLine.Ends` — a part of a command comes to its end, with a lemma for each way to make one
  from others;
* `CommandLine.ends_expandAll` — the expansion of all documents does;
* `CommandLine.ends_carryOut`, `CommandLine.isSome_run` — so every command does, and every command
  line comes to a result.
-/

namespace Transclusion

namespace CommandLine

/-- Whatever it starts from, the part comes to its end. -/
def Ends (work : Work α) : Prop :=
  ∀ session, (work.run.run session).1 ≠ .error .endless

/-! ## Parts and their parts -/

namespace Ends

theorem pure (a : α) : Ends (Pure.pure a : Work α) :=
  fun _ => nofun

theorem throw {failure : Failure} (h : failure ≠ .endless) : Ends (throw failure : Work α) :=
  fun _ hendless => h (Except.error.inj hendless)

theorem get : Ends (MonadState.get : Work Session) :=
  fun _ => nofun

theorem print (line : Line) : Ends (CommandLine.print line) :=
  fun _ => nofun

theorem orStop {result : Except Obstacle α} (h : result ≠ .error .endless) :
    Ends (CommandLine.orStop result) := by
  intro session
  match result with
  | .ok a => exact nofun
  | .error (.error error) => exact nofun
  | .error .endless => exact absurd rfl h

theorem write (writing : SourceTree.Writing α) : Ends (CommandLine.write writing) := by
  intro session
  show (writing.run.run session.files).1.mapError Failure.error ≠ _
  cases (writing.run.run session.files).1 with
  | ok a => exact nofun
  | error error => exact nofun

theorem seq {work : Work α} {next : α → Work β} (h : Ends work) (hnext : ∀ a, Ends (next a)) :
    Ends (work >>= next) := by
  intro session
  rw [run_run_bind]
  match hrun : work.run.run session with
  | (.ok a, after) => exact hnext a after
  | (.error failure, after) =>
    have hends := h session
    rw [hrun] at hends
    exact fun hendless => hends (congrArg Except.error (Except.error.inj hendless))

/-- What follows a result is reached with that result only. -/
theorem orFail_seq {result : Except Error α} {next : α → Work β}
    (h : ∀ a, result = .ok a → Ends (next a)) : Ends (orFail result >>= next) := by
  cases result with
  | ok a => exact h a rfl
  | error error => exact fun _ => nofun

theorem ite {p : Prop} [Decidable p] {work work' : Work α} (h : Ends work) (h' : Ends work') :
    Ends (if p then work else work') := by
  split
  · exact h
  · exact h'

theorem forIn {as : List α} {body : α → β → Work (ForInStep β)} (h : ∀ a b, Ends (body a b))
    (b : β) : Ends (ForIn.forIn as b body) := by
  induction as generalizing b with
  | nil => exact pure b
  | cons a as ih =>
    rw [List.forIn_cons]
    refine (h a b).seq ?_
    intro step
    cases step with
    | done b => exact pure b
    | yield b => exact ih b

end Ends

/-! ## Commands -/

variable {setup : Setup}

theorem ends_load : Ends (load setup) := by
  unfold load
  refine Ends.get.seq fun session => Ends.orFail_seq fun project _ => ?_
  exact .ite ((Ends.print _).seq fun _ => .pure project) (.pure project)

/-- The expansion of a project ends, as there is no function in its chain that was handed in. -/
theorem ends_expandAll (project : Project) (options : StageOptions) :
    Ends (expandAll project options) := by
  unfold expandAll
  refine Ends.orFail_seq fun stage hstage => Ends.get.seq fun session => ?_
  have hends : ((stage.runInPlace session.files).run.run project.tree.documents).1 ≠ _ :=
    Stage.runInPlace_ne_endless (Stage.ends_of_isBuiltIn (Stage.isBuiltIn_of_ofOptions hstage))
  exact (Ends.orStop hends).seq fun report => .pure _

theorem ends_warnSkipped (report : Report) : Ends (warnSkipped setup report) := by
  unfold warnSkipped
  refine (Ends.forIn ?_ _).seq fun _ => .pure _
  intro (key, reason) _
  exact (Ends.print _).seq fun _ => .pure _

theorem ends_reportFailures (report : Report) : Ends (reportFailures setup report) := by
  unfold reportFailures
  refine (Ends.forIn ?_ _).seq fun _ => .pure _
  intro (key, error) _
  exact (Ends.print _).seq fun _ => (Ends.print _).seq fun _ => .pure _

theorem ends_build (options : BuildOptions) : Ends (build setup options) := by
  unfold build
  refine ends_load.seq fun project => (ends_expandAll project _).seq fun (report, documents) => ?_
  have hend : Ends
      (if !report.isOk then do
        reportFailures setup report
        throw (m := Work) (Failure.documents report.failures.length)
      else pure ()) :=
    .ite ((ends_reportFailures report).seq fun _ => .throw nofun) (.pure ())
  refine (ends_warnSkipped report).seq fun _ => ?_
  dsimp only
  refine Ends.ite ((Ends.forIn ?_ _).seq fun _ => ?written) ?written
  · intro key _
    exact (Ends.print _).seq fun _ => .pure _
  · refine Ends.ite ((Ends.print _).seq fun _ => hend) ((Ends.write _).seq fun _ => ?_)
    exact (Ends.print _).seq fun _ => hend

theorem ends_check (format : CheckFormat) : Ends (check setup format) := by
  unfold check
  refine ends_load.seq fun project => (ends_expandAll project _).seq fun (report, documents) => ?_
  have hend : Ends (if !report.isOk then throw (m := Work) Failure.check else pure ()) :=
    .ite (.throw nofun) (.pure ())
  cases format with
  | json => exact (Ends.print _).seq fun _ => hend
  | text =>
    refine (ends_warnSkipped report).seq fun _ => .ite ?_ ?_
    · exact (Ends.print _).seq fun _ => hend
    · exact (Ends.print _).seq fun _ => (ends_reportFailures report).seq fun _ => hend

theorem ends_list : Ends (list setup) := by
  unfold list
  refine ends_load.seq fun project => Ends.orFail_seq fun stage _ => ?_
  refine (Ends.forIn ?_ _).seq fun _ => .ite (.print _) (.print _)
  intro (key, directives) _
  refine (Ends.print _).seq fun _ => (Ends.forIn ?_ _).seq fun _ => .pure _
  intro (d, position) _
  exact (Ends.print _).seq fun _ => .pure _

theorem ends_carryOut (setup : Setup) (command : Command) : Ends (carryOut setup command) := by
  cases command with
  | build options => exact ends_build options
  | check format => exact ends_check format
  | list => exact ends_list

/-- Every command line ends, whatever the files. -/
theorem isSome_run (arguments : List String) (colors : Bool) (files : FileTree) :
    (run arguments colors files).isSome := by
  unfold run
  split
  · rfl
  · next parsed _ =>
    split
    · rfl
    · next command _ =>
      dsimp only
      have hends := ends_carryOut ⟨parsed.path.getD (currentDirectory files), parsed.verbose,
        colors && !parsed.noColor⟩ command ⟨files, []⟩
      revert hends
      generalize (carryOut _ command).run.run ⟨files, []⟩ = ended
      intro hends
      match ended, hends with
      | (.ok (), _), _ => rfl
      | (.error .check, _), _ => rfl
      | (.error (.error error), _), _ => rfl
      | (.error (.documents count), _), _ => rfl
      | (.error .endless, _), hends => exact absurd rfl hends

end CommandLine

end Transclusion
