/-!
# Errors

What can go wrong while documents are transcluded: one constructor for each cause, the sentence
that reports it, the code it is known by, and the advice that goes with it.
-/

namespace Transclusion

/-- A cause of failure. `document` is the key of the document being scanned when it arose. -/
inductive Error
  /-- A file cannot be read or written. -/
  | io (reason : String)
  /-- Nothing answers to a local target. -/
  | unresolvedTarget (document target : String)
  /-- A target leads back to a document that is being expanded; `path` are the documents from the
  outermost one to the repeated one. -/
  | cyclicTransclusion (document target : String) (path : List String)
  /-- The front matter of a fragment cannot be read. -/
  | invalidFrontMatter (document fragment reason : String)
  /-- A target has no file below the source root. -/
  | missingSourceFile (document target path : String)
  /-- The metadata field for transclusions holds something else than a mapping. -/
  | reservedKeyConflict (document key : String)
  /-- The pattern of eligible documents cannot be read. -/
  | invalidPattern (pattern reason : String)
  /-- The configuration cannot be read. -/
  | invalidConfig (reason : String)
  deriving DecidableEq, Repr, Inhabited

namespace Error

/-- The sentence that reports an error. -/
def message : Error → String
  | io reason => reason
  | unresolvedTarget document target =>
      s!"unresolved transclusion target \x60{target}\x60 in \x60{document}\x60"
  | cyclicTransclusion document target path =>
      s!"cyclic transclusion of \x60{target}\x60 in \x60{document}\x60: "
        ++ String.intercalate " -> " path
  | invalidFrontMatter document fragment reason =>
      s!"invalid front matter in \x60{fragment}\x60 (transcluded by \x60{document}\x60): {reason}"
  | missingSourceFile document target path =>
      s!"missing source file \x60{path}\x60 for target \x60{target}\x60 in \x60{document}\x60"
  | reservedKeyConflict document key =>
      s!"metadata key \x60{key}\x60 in \x60{document}\x60 is already in use"
  | invalidPattern pattern reason => s!"invalid document pattern \x60{pattern}\x60: {reason}"
  | invalidConfig reason => s!"failed to parse config file: {reason}"

/-- The code an error is known by. -/
def code : Error → String
  | io _ => "transclude::io_error"
  | unresolvedTarget .. => "transclude::unresolved_target"
  | cyclicTransclusion .. => "transclude::cyclic_transclusion"
  | invalidFrontMatter .. => "transclude::invalid_frontmatter"
  | missingSourceFile .. => "transclude::missing_source_file"
  | reservedKeyConflict .. => "transclude::reserved_key_conflict"
  | invalidPattern .. => "transclude::invalid_pattern"
  | invalidConfig _ => "transclude::config_parse"

/-- What to do about an error, where there is something to say. -/
def help? : Error → Option String
  | io _ => none
  | unresolvedTarget document target =>
      some (s!"check that \x60{target}\x60 exists relative to \x60{document}\x60, or enable the "
        ++ "fallback resolver to keep unresolved targets as plain text")
  | cyclicTransclusion .. =>
      some "a document cannot transclude itself, directly or through another document"
  | invalidFrontMatter .. =>
      some "front matter must be a YAML mapping between two \x60---\x60 lines"
  | missingSourceFile .. =>
      some "set \x60skip_missing = true\x60 to leave documents with missing sources untouched"
  | reservedKeyConflict _ key =>
      some s!"choose another \x60metadata_key\x60 or rename the existing \x60{key}\x60 field"
  | invalidPattern .. => none
  | invalidConfig _ =>
      some "check that transclude.toml is valid TOML with an optional [transclude] section"

/-- The document whose processing failed, if a document is to blame. -/
def document? : Error → Option String
  | unresolvedTarget document _
  | cyclicTransclusion document _ _
  | invalidFrontMatter document _ _
  | missingSourceFile document _ _
  | reservedKeyConflict document _ => some document
  | io _ | invalidPattern .. | invalidConfig _ => none

/-- Whether a file was missing, which a run may be told to tolerate. -/
def isMissingSource : Error → Bool
  | missingSourceFile .. => true
  | _ => false

end Error

end Transclusion
