import Transclusion.Text.Blank
import Transclusion.Yaml.Distinct
import Transclusion.Yaml.Printer

/-!
# Front matter

A text may open with a block of metadata: a line `---`, lines of YAML, and a line `---` or `...`.
Blanks behind the marks do not count. A text without a first or a last mark has no front matter,
and is all body.

* `FrontMatter.split?` — the header and the body of a text;
* `FrontMatter.parse` — its metadata and body;
* `FrontMatter.serialize` — a text with the given metadata and body.
-/

namespace Transclusion.FrontMatter

/-- Why the header of a text cannot be read. -/
inductive Error
  | yaml (error : Yaml.Error)
  /-- The header is a value, but no mapping. -/
  | notAMapping (value : Value)
  deriving DecidableEq, Repr

/-- What a value is called in messages. -/
def kindName : Value → String
  | .null => "null"
  | .bool _ => "a boolean"
  | .int _ | .float _ => "a number"
  | .str _ => "a string"
  | .list _ => "a sequence"
  | .map _ => "a mapping"

/-- The sentence that reports an error. -/
def Error.message : Error → String
  | .yaml error => error.message
  | .notAMapping value => "expected a mapping, found " ++ kindName value

/-- A text apart from its front matter. -/
structure Parsed where
  body : String
  metadata : Metadata
  deriving DecidableEq, Repr

/-! ## Splitting -/

/-- The characters of a line. -/
def line (cs : List Char) : List Char :=
  cs.takeWhile (· ≠ '\n')

/-- The newline behind the first line and all that follows it. -/
def afterLine (cs : List Char) : List Char :=
  cs.dropWhile (· ≠ '\n')

/-- Whether a line opens a header. -/
def isOpening (cs : List Char) : Bool :=
  Text.trimEnd cs = ['-', '-', '-']

/-- Whether a line closes a header. -/
def isClosing (cs : List Char) : Bool :=
  Text.trimEnd cs = ['-', '-', '-'] || Text.trimEnd cs = ['.', '.', '.']

/-- The lines before the first closing line, and the text behind it. The last line of a text may
lack its newline. -/
def splitHeader? (cs : List Char) : Option (List Char × List Char) :=
  if isClosing (line cs) then some ([], (afterLine cs).drop 1)
  else
    match _hrest : afterLine cs with
    | [] => none
    | newline :: rest =>
        (splitHeader? rest).map fun (header, body) => (line cs ++ newline :: header, body)
termination_by cs.length
decreasing_by
  have hsplit := congrArg List.length (List.takeWhile_append_dropWhile (p := (· ≠ '\n')) (l := cs))
  simp only [afterLine] at _hrest
  simp only [_hrest, List.length_append, List.length_cons] at hsplit
  omega

/-- The header and the body of a text that opens with a complete block. -/
def split? (cs : List Char) : Option (List Char × List Char) :=
  match afterLine cs with
  | [] => none
  | _ :: rest => if isOpening (line cs) then splitHeader? rest else none

/-- Whether a text opens with a complete block. -/
def isPresent (text : String) : Bool :=
  (split? text.toList).isSome

/-! ## Parsing and serializing -/

/-- The metadata of a header. A blank header, and one that denotes null, has none. -/
def readHeader (header : List Char) : Except Error Metadata :=
  if header.all Text.isBlank then .ok .empty
  else
    match hread : Yaml.read (String.ofList header) with
    | .error error => .error (.yaml error)
    | .ok (.map entries) => .ok ⟨entries, Value.distinct_map.mp (Yaml.distinct_of_read hread)⟩
    | .ok .null => .ok .empty
    | .ok value => .error (.notAMapping value)

/-- A text taken apart. A text without front matter is all body. -/
def parse (text : String) : Except Error Parsed :=
  match split? text.toList with
  | none => .ok ⟨text, .empty⟩
  | some (header, body) => (readHeader header).map fun metadata => ⟨String.ofList body, metadata⟩

/-- A text with a newline at its end: a block may end in a break of another kind. -/
def withNewline (text : String) : String :=
  if text.toList.getLast? = some '\n' then text else text ++ "\n"

/-- A body with its metadata in front of it. Without metadata it stands alone. -/
def serialize (body : String) (metadata : Metadata) : String :=
  if metadata = .empty then body
  else "---\n" ++ withNewline (Yaml.write metadata) ++ "---\n" ++ body

end Transclusion.FrontMatter
