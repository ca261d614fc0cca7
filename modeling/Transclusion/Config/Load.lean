import Transclusion.Config.Basic
import Transclusion.Toml.Reader

/-!
# Configuration files

* `Config.parse` — the configuration that a TOML text describes;
* `Config.find?` — the configuration file of a project;
* `Config.load?` — what it says.
-/

namespace Transclusion.Config

/-- What a configuration asks for at one of its fields. -/
def fieldShape : String → Toml.Shape
  | "exclude" => .ofNames excludeFieldNames
  | "transclude" => .ofNames StageOptions.fieldNames
  | _ => .whole

/-- What a configuration asks for. -/
def shape : Toml.Shape :=
  .fields (fieldNames.map fun name => (name, fieldShape name))

/-- The configuration that a text describes. -/
def parse (text : String) : Except Error Config :=
  match Toml.read text >>= Toml.Item.value shape with
  | .error error => .error (.invalidConfig error.message)
  | .ok value => (ofValue value).mapError fun mismatch => .invalidConfig mismatch.message

/-- Where the configuration file may be, seen from the root of a project. The first one counts. -/
def places : List String :=
  ["transclude.toml", ".transclude.toml", ".config/transclude.toml"]

/-- The path of the configuration file of the project at `root`. -/
def find? (files : FileTree) (root : String) : Option String :=
  (places.map (FilePath.join root)).find? files.isFile

/-- The configuration of the project at `root`, if it has a file for it. -/
def load? (files : FileTree) (root : String) : Except Error (Option Config) :=
  match find? files root with
  | none => .ok none
  | some path =>
      match files.readText path with
      | .error error => .error (.io error.message)
      | .ok text => some <$> parse text

/-- The configuration of the project at `root`, which has the defaults if there is no file. -/
def load (files : FileTree) (root : String) : Except Error Config := do
  return (← load? files root).getD {}

end Transclusion.Config
