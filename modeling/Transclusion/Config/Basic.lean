import Transclusion.FilePath
import Transclusion.Stage

/-!
# Configurations

What a project may choose, and how the choices are read off structured data.

* `Config` — the choices, with their defaults;
* `Config.ofValue`, `StageOptions.ofValue` — from a mapping with fields of the right kinds.

A field that is missing has its default, and fields that nothing asks for do not matter. A structure
may also stand as a list of its fields in order.
-/

namespace Transclusion

/-- The choices of a project. -/
structure Config where
  /-- The directory with the documents, seen from the root of the project. -/
  source : String := "src"
  /-- The directory that is written. -/
  destination : String := "build"
  /-- The destination is removed before it is written. -/
  clean : Bool := false
  /-- The patterns of files to leave out. -/
  exclude : List String := []
  /-- Ignore files do not count. -/
  disableGitignore : Bool := false
  stage : StageOptions := {}
  deriving DecidableEq, Repr, Inhabited

namespace Config

/-- The directory with the documents. -/
def sourceDirectory (config : Config) (root : String) : String :=
  FilePath.join root config.source

/-- The directory that is written. -/
def destinationDirectory (config : Config) (root : String) : String :=
  FilePath.join root config.destination

/-- The options of the stage, with the directory for files below the root. -/
def stageOptions (config : Config) (root : String) : StageOptions :=
  { config.stage with sourceRoot := config.stage.sourceRoot.map (FilePath.join root) }

/-! ## Fields -/

/-- A value that does not have the shape it should have. -/
inductive Mismatch
  /-- A field holds something else than a value of its kind. -/
  | wrongKind (field kind : String)
  /-- A field holds none of the names it may hold. -/
  | unknownName (field : String)
  deriving DecidableEq, Repr

def Mismatch.message : Mismatch → String
  | wrongKind field kind => s!"\x60{field}\x60 must be {kind}"
  | unknownName field => s!"\x60{field}\x60 is none of the known names"

/-- The fields of a structure. -/
abbrev Fields := String → Option Value

/-- The values of a structure's fields, given by name or in order. -/
def fieldsOf (field : String) (order : List String) : Value → Except Mismatch Fields
  | .map entries => .ok fun name => Mapping.get? name entries
  | .list values => .ok fun name => (order.zip values).lookup name
  | _ => .error (.wrongKind field "a table")

/-- A yes or no. -/
def flag (fields : Fields) (name : String) (absent : Bool) : Except Mismatch Bool :=
  match fields name with
  | none => .ok absent
  | some (.bool b) => .ok b
  | some _ => .error (.wrongKind name "a boolean")

/-- A text. -/
def text (fields : Fields) (name absent : String) : Except Mismatch String :=
  match fields name with
  | none => .ok absent
  | some (.str s) => .ok s
  | some _ => .error (.wrongKind name "a string")

/-- A text that may be absent. -/
def text? (fields : Fields) (name : String) : Except Mismatch (Option String) :=
  match fields name with
  | none | some .null => .ok none
  | some (.str s) => .ok (some s)
  | some _ => .error (.wrongKind name "a string")

/-- A list of texts. -/
def texts (fields : Fields) (name : String) : Except Mismatch (List String) :=
  match fields name with
  | none => .ok []
  | some (.list values) =>
      values.mapM fun value =>
        match value with
        | .str s => .ok s
        | _ => .error (.wrongKind name "a list of strings")
  | some _ => .error (.wrongKind name "a list of strings")

/-- Values that hold nothing. -/
def isHollow : Value → Bool
  | .null | .list [] | .map [] => true
  | _ => false

/-- One of some names, alone or as the only field of a table that holds nothing. -/
def choice (fields : Fields) (name : String) (absent : α) (known : List (String × α)) :
    Except Mismatch α :=
  let named := fun s =>
    match known.lookup s with
    | some a => .ok a
    | none => .error (.unknownName name)
  match fields name with
  | none => .ok absent
  | some (.str s) => named s
  | some (.map [(s, value)]) =>
      if isHollow value then named s else .error (.wrongKind name "a name")
  | some _ => .error (.wrongKind name "a name")

end Config

/-! ## Structures -/

/-- The names of error policies. -/
def ErrorPolicy.names : List (String × ErrorPolicy) :=
  [("fail-fast", .failFast), ("collect", .collect)]

/-- The names of the places for metadata. -/
def MetadataOutput.names : List (String × MetadataOutput) :=
  [("metadata", .metadata), ("content", .content), ("both", .both)]

/-- The names of the fields of a stage's options, in order. -/
def StageOptions.fieldNames : List String :=
  ["pattern", "permalink", "comments", "frontmatter", "verbose", "fallback", "error_policy",
    "skip_missing", "metadata_key", "frontmatter_output", "source_root"]

open Config in
/-- The options of a stage. -/
def StageOptions.ofValue (value : Value) : Except Config.Mismatch StageOptions := do
  let absent : StageOptions := {}
  let fields ← fieldsOf "transclude" fieldNames value
  return {
    pattern := ← text fields "pattern" absent.pattern
    permalink := ← flag fields "permalink" absent.permalink
    comments := ← flag fields "comments" absent.comments
    frontmatter := ← flag fields "frontmatter" absent.frontmatter
    verbose := ← flag fields "verbose" absent.verbose
    fallback := ← flag fields "fallback" absent.fallback
    errorPolicy := ← choice fields "error_policy" absent.errorPolicy ErrorPolicy.names
    skipMissing := ← flag fields "skip_missing" absent.skipMissing
    metadataKey := ← text fields "metadata_key" absent.metadataKey
    output := ← choice fields "frontmatter_output" absent.output MetadataOutput.names
    sourceRoot := ← text? fields "source_root" }

namespace Config

/-- The names of the fields of a configuration, in order. -/
def fieldNames : List String :=
  ["source", "destination", "clean", "exclude", "disable_gitignore", "transclude"]

/-- The names of the fields of the table with the patterns of files to leave out. -/
def excludeFieldNames : List String :=
  ["patterns"]

/-- A configuration. -/
def ofValue (value : Value) : Except Mismatch Config := do
  let absent : Config := {}
  let fields ← fieldsOf "config" fieldNames value
  return {
    source := ← text fields "source" absent.source
    destination := ← text fields "destination" absent.destination
    clean := ← flag fields "clean" absent.clean
    exclude := ←
      match fields "exclude" with
      | none => pure []
      | some value => do texts (← fieldsOf "exclude" excludeFieldNames value) "patterns"
    disableGitignore := ← flag fields "disable_gitignore" absent.disableGitignore
    stage := ←
      match fields "transclude" with
      | none => pure {}
      | some value => StageOptions.ofValue value }

end Config

end Transclusion
