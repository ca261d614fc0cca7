import Transclusion.Stage

/-!
# Command lines

A command line names at most one command, with options in front of it and behind it.

* `Arguments` — what a command line asks for;
* `Arguments.parse` — reading one, or why it cannot be read (`UsageError`).

Options for the project may stand on either side of the command; the one behind it counts. On one
side no option may be repeated. The value of an option is checked when the next one is reached, so
whatever cannot be an argument at all is noticed before a bad value in front of it.
-/

namespace Transclusion

/-! ## What is asked for -/

/-- Changes that a command line makes to the options of the stage, and whether to write at all. -/
structure BuildOptions where
  strict : Bool := false
  fallback : Bool := false
  comments : Bool := false
  frontmatter : Bool := false
  dryRun : Bool := false
  deriving DecidableEq, Repr, Inhabited

/-- Options with the changes applied. -/
def BuildOptions.apply (build : BuildOptions) (options : StageOptions) : StageOptions :=
  { options with
    fallback := build.fallback || (options.fallback && !build.strict)
    comments := build.comments || options.comments
    frontmatter := build.frontmatter || options.frontmatter }

/-- How the result of a check is written. -/
inductive CheckFormat
  | text
  | json
  deriving DecidableEq, Repr, Inhabited

/-- The names of formats. -/
def CheckFormat.names : List (String × CheckFormat) :=
  [("text", .text), ("json", .json)]

/-- What is to be done with a project. -/
inductive Command
  | build (options : BuildOptions)
  | check (format : CheckFormat)
  | list
  deriving DecidableEq, Repr

/-- What a command line asks for. -/
structure Arguments where
  command : Option Command
  /-- The root of the project. -/
  path : Option String
  verbose : Bool
  noColor : Bool
  deriving DecidableEq, Repr

namespace CommandLine

/-! ## The options of a command -/

/-- Options without a value. -/
inductive Flag
  | help
  | version
  | verbose
  | noColor
  | strict
  | fallback
  | comments
  | frontmatter
  | dryRun
  deriving DecidableEq, Repr

/-- Options with a value. -/
inductive Setting
  | path
  | format
  deriving DecidableEq, Repr

inductive CommandName
  | build
  | check
  | list
  deriving DecidableEq, Repr

/-- An option of a command. -/
inductive Choice
  | flag (flag : Flag)
  | setting (setting : Setting)
  deriving DecidableEq, Repr

/-- How a command is called. -/
def commandNames : List (String × CommandName) :=
  [("build", .build), ("check", .check), ("list", .list)]

def Flag.name : Flag → String
  | help => "help"
  | version => "version"
  | verbose => "verbose"
  | noColor => "no-color"
  | strict => "strict"
  | fallback => "fallback"
  | comments => "comments"
  | frontmatter => "frontmatter"
  | dryRun => "dry-run"

def Setting.name : Setting → String
  | path => "path"
  | format => "format"

/-- The flags that a command takes; in front of all commands if there is none. -/
def flagsOf : Option CommandName → List Flag
  | none => [.help, .version, .verbose, .noColor]
  | some .build =>
      [.help, .verbose, .noColor, .strict, .fallback, .comments, .frontmatter, .dryRun]
  | some .check | some .list => [.help, .verbose, .noColor]

def settingsOf : Option CommandName → List Setting
  | some .check => [.path, .format]
  | _ => [.path]

/-- The option with a long name. -/
def longChoice? (command : Option CommandName) (name : String) : Option Choice :=
  (((flagsOf command).find? (·.name = name)).map .flag)
    <|> (((settingsOf command).find? (·.name = name)).map .setting)

/-- The option with a letter. -/
def shortChoice? (command : Option CommandName) (letter : Char) : Option Choice :=
  match letter with
  | 'h' => some (.flag .help)
  | 'V' => if command = none then some (.flag .version) else none
  | 'v' => some (.flag .verbose)
  | 'p' => some (.setting .path)
  | _ => none

/-! ## Errors -/

/-- Why a command line is not carried out. -/
inductive UsageError
  | helpRequested
  | versionRequested
  | unknownArgument (text : String)
  | unknownCommand (text : String)
  | repeated (name : String)
  /-- Two options that exclude each other. -/
  | conflict (first second : String)
  /-- An option without its value. -/
  | missingValue (name : String)
  | invalidValue (name value : String)
  /-- A flag with a value. -/
  | unexpectedValue (name value : String)
  deriving DecidableEq, Repr

/-- The sentence that reports an error. -/
def UsageError.message : UsageError → String
  | helpRequested => "help was asked for"
  | versionRequested => "the version was asked for"
  | unknownArgument text => s!"unexpected argument '{text}' found"
  | unknownCommand text => s!"unrecognized subcommand '{text}'"
  | repeated name => s!"the argument '--{name}' cannot be used multiple times"
  | conflict first second => s!"the argument '--{first}' cannot be used with '--{second}'"
  | missingValue name => s!"a value is required for '--{name}' but none was supplied"
  | invalidValue name value => s!"invalid value '{value}' for '--{name}'"
  | unexpectedValue name value =>
      s!"unexpected value '{value}' for '--{name}' found; no more were expected"

/-! ## Reading one side of the command -/

/-- The options of one side so far. -/
structure Given where
  flags : List Flag := []
  path : Option String := none
  format : Option CheckFormat := none
  /-- A setting whose value is missing or was not checked yet. -/
  pending : Option (Setting × Option String) := none
  deriving DecidableEq, Repr

namespace Given

/-- Whether the next argument is the value of a setting. -/
def awaitsValue (g : Given) : Bool :=
  match g.pending with
  | some (_, none) => true
  | _ => false

def has (g : Given) : Setting → Bool
  | .path => g.path.isSome
  | .format => g.format.isSome

/-- The value of a setting. -/
def assign (g : Given) (value : String) : Setting → Except UsageError Given
  | .path =>
      if value = "" then .error (.missingValue Setting.path.name)
      else .ok { g with path := some value }
  | .format =>
      match CheckFormat.names.lookup value with
      | some format => .ok { g with format := some format }
      | none => .error (.invalidValue Setting.format.name value)

/-- The options once the pending setting is checked. -/
def settle (g : Given) : Except UsageError Given :=
  match g.pending with
  | none => .ok g
  | some (setting, none) => .error (.missingValue setting.name)
  | some (setting, some value) =>
      if g.has setting then .error (.repeated setting.name)
      else { g with pending := none }.assign value setting

/-- The options with one more flag. -/
def addFlag (g : Given) (flag : Flag) : Except UsageError Given := do
  let g ← g.settle
  match flag with
  | .help => throw .helpRequested
  | .version => throw .versionRequested
  | flag =>
      if g.flags.contains flag then throw (.repeated flag.name)
      else return { g with flags := g.flags ++ [flag] }

/-- The options with one more setting. A value that is attached to it is checked at once. -/
def addSetting (g : Given) (setting : Setting) : Option String → Except UsageError Given
  | none => do
      let g ← g.settle
      return { g with pending := some (setting, none) }
  | some value => do
      let g ← g.settle
      { g with pending := some (setting, some value) }.settle

/-- The options with an argument that starts with two dashes. -/
def addLong (command : Option CommandName) (g : Given) (text : List Char) :
    Except UsageError Given :=
  let name := String.ofList (text.takeWhile (· ≠ '='))
  let value? :=
    match text.dropWhile (· ≠ '=') with
    | _ :: value => some (String.ofList value)
    | [] => none
  match longChoice? command name, value? with
  | none, _ => .error (.unknownArgument ("--" ++ name))
  | some (.setting setting), value? => g.addSetting setting value?
  | some (.flag flag), none => g.addFlag flag
  | some (.flag flag), some value => .error (.unexpectedValue flag.name value)

/-- The options with the letters of an argument that starts with a dash. What follows a setting is
its value. -/
def addLetters (command : Option CommandName) (g : Given) :
    List Char → Except UsageError Given
  | [] => .ok g
  | letter :: rest =>
      match shortChoice? command letter with
      | none => .error (.unknownArgument ("-" ++ letter.toString))
      | some (.flag flag) => do addLetters command (← g.addFlag flag) rest
      | some (.setting setting) =>
          match rest with
          | [] => g.addSetting setting none
          | '=' :: value => g.addSetting setting (some (String.ofList value))
          | value => g.addSetting setting (some (String.ofList value))

end Given

/-- The error for an argument that is no option; `escaped` if it follows two dashes. -/
def strayArgument (command : Option CommandName) (escaped : Bool) (text : String) : UsageError :=
  let isCommand := text = "help" || (commandNames.lookup text).isSome
  if command.isSome || (escaped && isCommand) then .unknownArgument text else .unknownCommand text

/-- What a request for help about some command comes to. -/
def helpAbout : List String → UsageError
  | [] | ["help"] => .helpRequested
  | [name] => if (commandNames.lookup name).isSome then .helpRequested else .unknownCommand name
  | name :: next :: _ =>
      if name = "help" || (commandNames.lookup name).isSome then .unknownCommand next
      else .unknownCommand name

/-- Reads the arguments on one side of the command: the options, and behind it the command's name
and the other side. -/
def readSide (command : Option CommandName) (g : Given) :
    List String → Except UsageError (Given × Option (CommandName × List String))
  | [] => .ok (g, none)
  | text :: rest =>
      match (if command.isNone && !g.awaitsValue then commandNames.lookup text else none) with
      | some name => .ok (g, some (name, rest))
      | none =>
          if command.isNone && !g.awaitsValue && text = "help" then .error (helpAbout rest)
          else
            match text.toList with
            | ['-', '-'] =>
                match rest with
                | [] => .ok (g, none)
                | next :: _ => .error (strayArgument command true next)
            | '-' :: '-' :: long => do readSide command (← g.addLong command long) rest
            | '-' :: letter :: letters => do
                readSide command (← g.addLetters command (letter :: letters)) rest
            | _ =>
                match g.pending with
                | some (setting, none) =>
                    readSide command { g with pending := some (setting, some text) } rest
                | _ => .error (strayArgument command false text)

/-- The command that a name and the options behind it make. -/
def commandOf (g : Given) : CommandName → Command
  | .build =>
      .build ⟨g.flags.contains .strict, g.flags.contains .fallback, g.flags.contains .comments,
        g.flags.contains .frontmatter, g.flags.contains .dryRun⟩
  | .check => .check (g.format.getD .text)
  | .list => .list

/-- Options that exclude each other. -/
def excluded (g : Given) : Except UsageError Unit :=
  if g.flags.contains .strict && g.flags.contains .fallback then
    .error (.conflict Flag.strict.name Flag.fallback.name)
  else .ok ()

end CommandLine

open CommandLine in
/-- Reads a command line, without the name of the program. -/
def Arguments.parse (arguments : List String) : Except UsageError Arguments := do
  let (front, rest) ← readSide none {} arguments
  match rest with
  | none =>
      let front ← front.settle
      return ⟨none, front.path, front.flags.contains .verbose, front.flags.contains .noColor⟩
  | some (name, arguments) =>
      let (behind, _) ← readSide (some name) {} arguments
      let behind ← behind.settle
      excluded behind
      let front ← front.settle
      let has := fun flag => front.flags.contains flag || behind.flags.contains flag
      return ⟨some (commandOf behind name), behind.path <|> front.path, has .verbose, has .noColor⟩

end Transclusion
