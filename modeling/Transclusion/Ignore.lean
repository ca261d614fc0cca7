import Transclusion.FilePath
import Transclusion.Glob.Nesting
import Transclusion.Glob.Parser
import Transclusion.Text.Blank

/-!
# Ignore files

The rules by which files are left out of a directory. A line is a glob for paths below the
directory.

* `!` in front keeps what the glob stands for, `/` at the end makes it speak of directories only;
* a glob with a slash in front or in the middle starts at the directory, others match at any depth;
* lines that are empty or start with `#` are no rules.

The last rule that matches decides (`IgnoreRules.ignores`).
-/

namespace Transclusion

/-- What a line of an ignore file says. -/
structure IgnoreRule where
  glob : Glob
  /-- What the glob stands for is kept, whatever an earlier rule says. -/
  keeps : Bool
  /-- The rule speaks of directories only. -/
  directoriesOnly : Bool
  deriving Repr, Inhabited

/-- A line that is no rule because its glob cannot be read. -/
structure IgnoreRuleError where
  line : String
  cause : Glob.Error
  deriving DecidableEq, Repr

/-- The sentence that reports the error. -/
def IgnoreRuleError.message (error : IgnoreRuleError) : String :=
  error.cause.message error.line

namespace IgnoreRule

/-- The options of the globs in ignore files. -/
def globOptions : Glob.Options := ⟨true, true⟩

/-- A line without the blanks at its end, unless they are escaped. -/
def trimmed (line : List Char) : List Char :=
  if ['\\', ' '].isSuffixOf line then line else Text.trimEnd line

/-- A line without its marks in front: whether it keeps, whether it starts at the directory, and the
rest. A backslash takes a mark as it is. -/
def withoutMarks : List Char → Bool × Bool × List Char
  | '\\' :: '!' :: rest => (false, false, '!' :: rest)
  | '\\' :: '#' :: rest => (false, false, '#' :: rest)
  | '!' :: '/' :: rest => (true, true, rest)
  | '!' :: rest => (true, false, rest)
  | '/' :: rest => (false, true, rest)
  | rest => (false, false, rest)

/-- A line without the slash at its end, and whether there was one. A backslash in front of the
slash goes with it. -/
def withoutSlash (line : List Char) : Bool × List Char :=
  match line.reverse with
  | '/' :: '\\' :: rest => (true, rest.reverse)
  | '/' :: rest => (true, rest.reverse)
  | _ => (false, line)

/-- The glob of a line, for paths seen from the directory. Two stars at the end stand for what is
below, not for the directory in front of them. -/
def globText (fromStart : Bool) (line : List Char) : List Char :=
  let anywhere := !fromStart && !line.contains '/' && line ≠ ['*', '*']
  let text := if anywhere then '*' :: '*' :: '/' :: line else line
  if ['/', '*', '*'].isSuffixOf text then text ++ ['/', '*'] else text

/-- The rule of a line, if it is one. -/
def ofLine (line : String) : Except IgnoreRuleError (Option IgnoreRule) :=
  match line.toList with
  | '#' :: _ => .ok none
  | all =>
      match trimmed all with
      | [] => .ok none
      | line =>
          let (keeps, fromStart, rest) := withoutMarks line
          let (directoriesOnly, rest) := withoutSlash rest
          match Glob.parse globOptions (String.ofList (globText fromStart rest)) with
          | .ok glob => .ok (some ⟨glob, keeps, directoriesOnly⟩)
          | .error cause => .error ⟨String.ofList line, cause⟩

/-- Whether a rule says something about a path. -/
def applies (rule : IgnoreRule) (path : String) (isDirectory : Bool) : Bool :=
  rule.glob.isMatch path && (isDirectory || !rule.directoriesOnly)

end IgnoreRule

/-- Rules for the paths below a directory. -/
structure IgnoreRules where
  directory : String
  rules : List IgnoreRule
  deriving Repr, Inhabited

namespace IgnoreRules

/-- A text without another one that it may start with. -/
def dropStart? (start text : List Char) : Option (List Char) :=
  if start.isPrefixOf text then some (text.drop start.length) else none

/-- A path without an idle step in front. -/
def withoutPoint (path : List Char) : List Char :=
  (dropStart? ['.', '/'] path).getD path

/-- A path as the rules of a directory see it. A path that is one name stays as it is, and nothing
is below the directory `.`. -/
def seenFrom (directory path : String) : String :=
  let base := withoutPoint directory.toList
  let path := withoutPoint path.toList
  if FilePath.components (String.ofList base) = ["."] || !path.contains '/' then String.ofList path
  else
    match dropStart? base path with
    | none => String.ofList path
    | some rest => String.ofList ((dropStart? ['/'] rest).getD rest)

/-- Whether the rules leave out a path. -/
def ignores (all : IgnoreRules) (path : String) (isDirectory : Bool) : Bool :=
  match all.rules.reverse.find? (·.applies (seenFrom all.directory path) isDirectory) with
  | some rule => !rule.keeps
  | none => false

/-- The first glob that is nested too deep. With one there, none of the rules can be used. -/
def tooDeep? (all : IgnoreRules) : Option Glob :=
  (all.rules.map IgnoreRule.glob).find? Glob.isTooDeep

/-! ## Reading -/

/-- The rules of some lines; the first line that cannot be read is an error. -/
def ofPatterns (directory : String) (lines : List String) :
    Except (String × IgnoreRuleError) IgnoreRules := do
  let rules ← lines.mapM fun line => (IgnoreRule.ofLine line).mapError fun error => (line, error)
  return ⟨directory, rules.filterMap id⟩

/-- The lines of a file. A line ends with a line feed, which may follow a carriage return. -/
def linesOf (bytes : List UInt8) : List (List UInt8) :=
  let lines := Text.fields 0x0A bytes
  lines.dropLast.map (fun line => if line.getLast? = some 0x0D then line.dropLast else line)
    ++ lines.getLast?.toList

/-- The texts of some lines up to the first that is not UTF-8. -/
def texts : List (List UInt8) → List String
  | [] => []
  | line :: lines =>
      match String.fromUTF8? line.toByteArray with
      | some text => text :: texts lines
      | none => []

/-- The first line of a file without byte order marks. -/
def withoutMark : List String → List String
  | [] => []
  | line :: lines => String.ofList (line.toList.dropWhile (· = '\uFEFF')) :: lines

/-- The rules of a file. Lines that cannot be read do not count, nor does anything from a line on
that is not UTF-8. -/
def ofFile (directory : String) (bytes : ByteArray) : IgnoreRules :=
  let lines := withoutMark (texts (linesOf bytes.toList))
  ⟨directory, lines.filterMap fun line => (IgnoreRule.ofLine line).toOption.join⟩

end IgnoreRules

end Transclusion
