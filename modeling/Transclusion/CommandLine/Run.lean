import Transclusion.CommandLine.Arguments
import Transclusion.Project
import Transclusion.Stage.Progress

/-!
# Running a command line

What a command line does, as a function of the files: the lines it prints, its exit status, and the
files afterwards.

* `Line` — a line for one of the two outputs;
* `CommandLine.run` — all of it.

The status is 0 when all went well, 1 when a check finds failures or no command is given, and 2 when
a command fails or the command line cannot be read.
-/

namespace Transclusion

/-- Something to print. -/
inductive Line
  /-- A text for the output. -/
  | out (text : String)
  /-- A text for the error output. -/
  | err (text : String)
  deriving DecidableEq, Repr

/-! ## Colours -/

/-- How a text stands out. -/
inductive Paint
  | red
  | green
  | yellow
  | bold
  deriving DecidableEq, Repr

/-- The codes that start and end it on a terminal. -/
def Paint.codes : Paint → String × String
  | red => ("31", "39")
  | green => ("32", "39")
  | yellow => ("33", "39")
  | bold => ("1", "0")

/-- A text that stands out, if colours are allowed. -/
def paint (colored : Bool) (color : Paint) (text : String) : String :=
  let (start, stop) := color.codes
  if colored then s!"\x1b[{start}m{text}\x1b[{stop}m" else text

/-- A text with the lines behind the first one indented. -/
def indented (text : String) : String :=
  String.intercalate "\n    " (text.splitOn "\n")

/-- The lines that report an error: its code, its sentence and its advice. -/
def Error.report (colored : Bool) (error : Error) : String :=
  let code := if colored then s!"\x1b[31m{error.code}\x1b[0m" else error.code
  let help := (error.help?.map fun help => s!"\n  help: {indented help}").getD ""
  s!"{code}\n\n  x {indented error.message}{help}\n"

/-! ## The report of a check -/

namespace Report

def jsonList (items : List String) : String :=
  "[" ++ String.intercalate "," items ++ "]"

/-- An object in JSON, its values being given as JSON. -/
def jsonObject (fields : List (String × String)) : String :=
  let items := fields.map fun (name, value) => Text.quote Text.jsonStyle name ++ ":" ++ value
  "\x7b" ++ String.intercalate "," items ++ "\x7d"

/-- A text in JSON, or null. -/
def jsonText? (text : Option String) : String :=
  (text.map (Text.quote Text.jsonStyle)).getD "null"

/-- A report in JSON, on one line. -/
def json (report : Report) : String :=
  let keys := fun keys => jsonList (keys.map (Text.quote Text.jsonStyle))
  let text := Text.quote Text.jsonStyle
  jsonObject [
    ("ok", if report.isOk then "true" else "false"),
    ("transcluded", keys report.transcluded),
    ("unchanged", keys report.unchanged),
    ("skipped", jsonList (report.skipped.map fun (key, reason) =>
      jsonObject [("document", text key), ("message", text reason.message)])),
    ("failures", jsonList (report.failures.map fun (key, error) =>
      jsonObject [("document", text key), ("source", jsonText? error.document?),
        ("message", text error.message)]))]

end Report

namespace CommandLine

/-! ## Sessions -/

/-- What a running command works on. -/
structure Session where
  files : FileTree
  /-- What was printed so far. -/
  printed : List Line

/-- Why a command ends early. -/
inductive Failure
  /-- It cannot go on. -/
  | error (error : Error)
  /-- It is done, but documents failed. -/
  | documents (count : Nat)
  /-- A check found failures. -/
  | check
  /-- It does not end at all. -/
  | endless
  deriving DecidableEq, Repr

/-- What an obstacle in its way means for a command. -/
def Failure.ofObstacle : Obstacle → Failure
  | .error reason => .error reason
  | .endless => .endless

/-- A command at work. What it did before it fails stays done. -/
abbrev Work := ExceptT Failure (StateM Session)

def print (line : Line) : Work Unit :=
  modify fun session => { session with printed := session.printed ++ [line] }

/-- The result of a part, whose error ends the command. -/
def orFail (result : Except Error α) : Work α :=
  ExceptT.mk (pure (result.mapError .error))

/-- The result of a part that need not end. -/
def orStop (result : Except Obstacle α) : Work α :=
  ExceptT.mk (pure (result.mapError .ofObstacle))

/-- Writes files as a part of a command. -/
def write (writing : SourceTree.Writing α) : Work α :=
  ExceptT.mk fun session =>
    let (result, files) := writing.run.run session.files
    (result.mapError .error, { session with files })

/-! ## Parts of commands -/

/-- What all commands need to know. -/
structure Setup where
  /-- The root of the project. -/
  root : String
  verbose : Bool
  colored : Bool
  deriving DecidableEq, Repr

def load (setup : Setup) : Work Project := do
  let project ← orFail (Project.load (← get).files setup.root)
  if setup.verbose then
    let source := FilePath.relativeTo setup.root project.sourceDirectory
    print (.out (s!"Loaded {source}: {project.tree.documents.size} document(s), "
      ++ s!"{project.tree.assets.size} other file(s)"))
  return project

def expandAll (project : Project) (options : StageOptions) : Work (Report × DocumentSet) := do
  let stage ← orFail (Stage.ofOptions options)
  let (result, documents) := (stage.runInPlace (← get).files).run.run project.tree.documents
  return (← orStop result, documents)

def warnSkipped (setup : Setup) (report : Report) : Work Unit := do
  for (key, reason) in report.skipped do
    let warning := paint setup.colored .yellow "warning:"
    print (.err s!"{warning} skipped \x60{key}\x60: {reason.message}")

def reportFailures (setup : Setup) (report : Report) : Work Unit := do
  for (key, error) in report.failures do
    let failed := paint setup.colored .red "failed:"
    print (.err s!"{failed} \x60{key}\x60 left untouched")
    print (.err (error.report setup.colored))

/-! ## Commands -/

/-- Expands the documents and writes all files to the destination. -/
def build (setup : Setup) (options : BuildOptions) : Work Unit := do
  let project ← load setup
  let (report, documents) ← expandAll project (options.apply project.stageOptions)
  warnSkipped setup report
  if setup.verbose then
    for key in report.transcluded do
      print (.out s!"  transcluded {key}")
  let directory := project.destinationDirectory
  let shown := FilePath.relativeTo setup.root directory
  let transcluded := report.transcluded.length
  if options.dryRun then
    print (.out s!"Dry run: {transcluded} document(s) would be transcluded into {shown}.")
  else
    let tree := { project.tree with documents }
    let written ← write (tree.write directory project.config.clean)
    let built := paint setup.colored .green "Built:"
    print (.out (s!"{built} {transcluded} document(s) transcluded, {report.unchanged.length} "
      ++ s!"unchanged, {report.skipped.length} skipped. Wrote {written} file(s) to {shown}."))
  if !report.isOk then
    reportFailures setup report
    throw (.documents report.failures.length)

/-- Expands the documents and reports those that fail. -/
def check (setup : Setup) (format : CheckFormat) : Work Unit := do
  let project ← load setup
  let (report, _) ← expandAll project { project.stageOptions with errorPolicy := .collect }
  match format with
  | .json => print (.out report.json)
  | .text =>
      warnSkipped setup report
      if report.isOk then
        let passed := report.transcluded.length + report.unchanged.length
        print (.out s!"Check passed: {passed} document(s) transclude cleanly.")
      else
        print (.err s!"Check failed: {report.failures.length} document(s) with errors.")
        reportFailures setup report
  if !report.isOk then throw .check

/-- The line that lists a directive. -/
def listed (d : Directive) (position : Position) : String :=
  let remote := if d.isRemote then " [remote]" else ""
  s!"  :[{d.label}]({d.target}) {position.line}:{position.column}{remote}"

/-- Lists the directives of all documents. -/
def list (setup : Setup) : Work Unit := do
  let project ← load setup
  let stage ← orFail (Stage.ofOptions project.stageOptions)
  let eligible := project.tree.documents.toList.filter fun (key, _) => stage.isEligible key
  let found := (eligible.map fun (key, document) => (key, locate document.content)).filter
    fun (_, directives) => !directives.isEmpty
  for (key, directives) in found do
    print (.out (paint setup.colored .bold key))
    for (d, position) in directives do
      print (.out (listed d position))
  if found.isEmpty then print (.out "No transclusion directives found.")
  else
    let count := (found.flatMap Prod.snd).length
    print (.out s!"\n{count} directive(s) in {found.length} document(s)")

def carryOut (setup : Setup) : Command → Work Unit
  | .build options => build setup options
  | .check format => check setup format
  | .list => list setup

/-! ## Whole runs -/

/-- What a run leaves behind. -/
structure Result where
  status : Nat
  printed : List Line
  files : FileTree

/-- The line that names the program. -/
def versionLine : String := "transclude_cli 0.3.0"

/-- How the program is called. -/
def usage : String :=
  String.intercalate "\n" [
    "Stitch markdown documents together with \x60:[label](target)\x60 transclusion.",
    "",
    "Usage: transclude [OPTIONS] [COMMAND]",
    "",
    "Commands:",
    "  build  Expand the source directory into the destination",
    "  check  Verify that every document expands without errors",
    "  list   Show the directives of every document",
    "  help   Print this message",
    "",
    "Options:",
    "  -p, --path <PATH>  Path to the project root directory",
    "  -v, --verbose      Enable verbose output",
    "      --no-color     Disable colored output",
    "  -h, --help         Print help",
    "  -V, --version      Print version",
    "",
    "Options of build: --strict, --fallback, --comments, --frontmatter, --dry-run",
    "Options of check: --format <text|json>"]

/-- What a command line that is not carried out comes to. -/
def refuse (files : FileTree) : UsageError → Result
  | .helpRequested => ⟨0, [.out usage], files⟩
  | .versionRequested => ⟨0, [.out versionLine], files⟩
  | error => ⟨2, [.err s!"error: {error.message}"], files⟩

def currentDirectory (files : FileTree) : String :=
  "/" ++ String.intercalate "/" files.current

/-- Runs a command line, given without the name of the program. `colors` tells whether the
surroundings allow colours. None if the run does not end. -/
def run (arguments : List String) (colors : Bool) (files : FileTree) : Option Result :=
  match Arguments.parse arguments with
  | .error error => some (refuse files error)
  | .ok arguments =>
      match arguments.command with
      | none =>
          let hint := "No subcommand specified. Run \x60transclude --help\x60 for usage."
          some ⟨1, [.err hint], files⟩
      | some command =>
          let setup : Setup :=
            ⟨arguments.path.getD (currentDirectory files), arguments.verbose,
              colors && !arguments.noColor⟩
          let (result, session) := (carryOut setup command).run.run ⟨files, []⟩
          match result with
          | .ok () => some ⟨0, session.printed, session.files⟩
          | .error .check => some ⟨1, session.printed, session.files⟩
          | .error (.error error) =>
              some ⟨2, session.printed ++ [.err (error.report setup.colored)], session.files⟩
          | .error (.documents count) =>
              let label := paint setup.colored .red "error:"
              let failed := s!"{label} {count} document(s) failed to transclude"
              some ⟨2, session.printed ++ [.err failed], session.files⟩
          | .error .endless => none

end CommandLine

end Transclusion
