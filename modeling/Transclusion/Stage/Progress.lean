import Transclusion.Stage

/-!
# Runs, document by document

A run as it goes along. The documents of a set are visited in key order, and what becomes of one is
noted before the next one is visited. New documents are staged and put into the set when all visits
are done. Where the first failure is to end the run, no document behind it is visited and the set is
not touched; and where an expansion does not end, nothing comes behind it either.

* `Progress` — what a run has noted so far, and `Progress.note` — what one visit adds to it;
* `Stage.visit`, `Stage.visitAll` — one visit, and all of them;
* `Stage.runInPlace` — the run of a set that is changed in place.

`Stage.run` is the same said at one stroke.
-/

namespace Transclusion

/-- What a run has noted so far. -/
structure Progress where
  report : Report := ⟨[], [], [], []⟩
  /-- The new documents, which are not in the set yet. -/
  staged : List (String × Document) := []
  deriving DecidableEq, Repr

namespace Progress

/-- Notes what became of the document at `key`. -/
def note (progress : Progress) (key : String) : Outcome → Progress
  | .transcluded document =>
      { progress with
        report.transcluded := progress.report.transcluded ++ [key]
        staged := progress.staged ++ [(key, document)] }
  | .unchanged => { progress with report.unchanged := progress.report.unchanged ++ [key] }
  | .skipped reason => { progress with report.skipped := progress.report.skipped ++ [(key, reason)] }
  | .failed error => { progress with report.failures := progress.report.failures ++ [(key, error)] }
  | .endless => progress

end Progress

namespace Stage

/-- The visit to the document at `key`, `before` being the set as it was before the run. A failure
is noted, or ends the run. -/
def visit (stage : Stage) (files : FileTree) (before : DocumentSet) (progress : Progress)
    (key : String) (document : Document) : Except Obstacle Progress :=
  let outcome := stage.outcome files before key document
  match stage.options.errorPolicy.obstacle? outcome with
  | some obstacle => .error obstacle
  | none => .ok (progress.note key outcome)

/-- Visits to documents one after the other. Those that are not eligible are passed by. -/
def visitAll (stage : Stage) (files : FileTree) (before : DocumentSet) :
    List (String × Document) → Progress → Except Obstacle Progress
  | [], progress => .ok progress
  | (key, document) :: entries, progress =>
      if stage.isEligible key then do
        let progress ← stage.visit files before progress key document
        visitAll stage files before entries progress
      else visitAll stage files before entries progress

/-- The run of a set that is changed in place. -/
def runInPlace (stage : Stage) (files : FileTree) :
    ExceptT Obstacle (StateM DocumentSet) Report := do
  let before ← get
  let progress ← ExceptT.mk (pure (stage.visitAll files before before.toList {}))
  for (key, document) in progress.staged do
    modify fun documents => documents.insert key document
  return progress.report

end Stage

end Transclusion
