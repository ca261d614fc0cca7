import Transclusion.Document
import Transclusion.Error

/-!
# Reports

What a run did with each document, one by one (`Outcome`) and taken together (`Report`). A report
lists keys in the order of the documents, and each document of a run that ends stands in exactly one
of its lists.
-/

namespace Transclusion

/-- What became of a document in a run. -/
inductive Outcome
  /-- It changed into another one. -/
  | transcluded (document : Document)
  /-- There was nothing to change. -/
  | unchanged
  /-- It was left alone because a file was missing. -/
  | skipped (reason : Error)
  /-- It was left alone because it cannot be expanded. -/
  | failed (error : Error)
  /-- Its expansion does not end, and so neither does the run. -/
  | endless
  deriving DecidableEq, Repr

namespace Outcome

/-- The document that takes the place of the old one. -/
def document? : Outcome → Option Document
  | transcluded document => some document
  | _ => none

/-- Whether the outcome is that nothing had to change. -/
def isUnchanged : Outcome → Bool
  | unchanged => true
  | _ => false

/-- The missing file for which a document was skipped. -/
def reason? : Outcome → Option Error
  | skipped reason => some reason
  | _ => none

/-- The error that a document failed with. -/
def error? : Outcome → Option Error
  | failed error => some error
  | _ => none

end Outcome

/-- The keys of a run's documents by what became of them. -/
structure Report where
  transcluded : List String
  unchanged : List String
  skipped : List (String × Error)
  failures : List (String × Error)
  deriving DecidableEq, Repr

namespace Report

/-- The report of the outcomes of some documents. -/
def ofOutcomes (outcomes : List (String × Outcome)) : Report where
  transcluded := outcomes.filterMap fun (key, outcome) => outcome.document?.map fun _ => key
  unchanged := (outcomes.filter fun (_, outcome) => outcome.isUnchanged).map Prod.fst
  skipped := outcomes.filterMap fun (key, outcome) => outcome.reason?.map fun reason => (key, reason)
  failures := outcomes.filterMap fun (key, outcome) => outcome.error?.map fun error => (key, error)

/-- Whether no document failed. -/
def isOk (report : Report) : Bool :=
  report.failures.isEmpty

/-- The error of the first document that failed. -/
def firstFailure? (report : Report) : Option Error :=
  report.failures.head?.map Prod.snd

/-- The report itself if no document failed, and the error of the first one otherwise. -/
def result (report : Report) : Except Error Report :=
  match report.firstFailure? with
  | some error => .error error
  | none => .ok report

end Report

end Transclusion
