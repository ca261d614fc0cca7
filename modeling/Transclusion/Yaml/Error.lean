/-!
# Why a YAML text cannot be read

One constructor for each cause, and the sentence that reports it.
-/

namespace Transclusion.Yaml

/-- A reason for refusing a YAML text. -/
inductive Error
  /-- A control character, which no YAML text may hold. -/
  | forbiddenCharacter (c : Char)
  /-- A tab where the indentation is made of spaces. -/
  | tabInIndentation
  /-- A text at the place of a key, without the colon behind it. -/
  | keyWithoutColon
  /-- A `-` where no sequence can start. -/
  | misplacedEntry
  /-- A `?` where no mapping can start. -/
  | misplacedKey
  /-- A `:` where no mapping can start. -/
  | misplacedValue
  /-- A character that starts no token. -/
  | strayCharacter (c : Char)
  | badDirective
  | badAnchor
  | badTag
  | badBlockHeader
  | unclosedQuote
  /-- A document marker inside a quoted text. -/
  | markerInQuote
  | unknownEscape (c : Char)
  | badEscape
  /-- A colon that touches an indicator of a flow collection. -/
  | ambiguousColon
  | incompatibleVersion
  | duplicateDirective
  | undefinedTagHandle (handle : String)
  /-- The token does not continue what is being read. -/
  | unexpectedToken (wanted : String)
  | moreDocuments
  | unknownAnchor (name : String)
  | tooDeep
  | tooManyAliases
  /-- A text that its tag does not admit. -/
  | tagMismatch (text : String)
  /-- A tag of the document's own, which stands for no known type. -/
  | customTag
  | integerTooLarge (text : String)
  /-- A mapping or a sequence as a key. -/
  | keyNotScalar
  deriving DecidableEq, Repr

/-- The sentence that reports an error. -/
def Error.message : Error → String
  | .forbiddenCharacter _ => "control characters are not allowed"
  | .tabInIndentation => "found a tab character where an indentation space is expected"
  | .keyWithoutColon => "could not find expected ':'"
  | .misplacedEntry => "block sequence entries are not allowed in this context"
  | .misplacedKey => "mapping keys are not allowed in this context"
  | .misplacedValue => "mapping values are not allowed in this context"
  | .strayCharacter _ => "found character that cannot start any token"
  | .badDirective => "found a directive that cannot be read"
  | .badAnchor => "did not find expected alphabetic or numeric character"
  | .badTag => "found a tag that cannot be read"
  | .badBlockHeader => "did not find expected comment or line break"
  | .unclosedQuote => "found unexpected end of stream"
  | .markerInQuote => "found unexpected document indicator"
  | .unknownEscape _ => "found unknown escape character"
  | .badEscape => "found an escape that denotes no character"
  | .ambiguousColon => "found unexpected ':'"
  | .incompatibleVersion => "found incompatible YAML document"
  | .duplicateDirective => "found duplicate directive"
  | .undefinedTagHandle _ => "found undefined tag handle"
  | .unexpectedToken wanted => "did not find expected " ++ wanted
  | .moreDocuments => "more than one document is not supported"
  | .unknownAnchor _ => "unknown anchor"
  | .tooDeep => "recursion limit exceeded"
  | .tooManyAliases => "repetition limit exceeded"
  | .tagMismatch text => "invalid value for its tag: " ++ text
  | .customTag => "unexpected tag"
  | .integerTooLarge text => "integer out of range: " ++ text
  | .keyNotScalar => "expected a string key"

end Transclusion.Yaml
