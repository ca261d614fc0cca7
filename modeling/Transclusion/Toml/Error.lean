/-!
# Errors in TOML texts
-/

namespace Transclusion.Toml

/-- Why a text is no TOML document. -/
inductive Error
  | unclosedText
  | badCharacter (c : Char)
  | badEscape
  /-- A bare word that denotes no value. -/
  | badScalar (text : String)
  /-- Something else stands where this should. -/
  | expected (what : String)
  | duplicateKey (key : String)
  /-- A key that is to lead on leads to something that cannot be extended. -/
  | notExtensible (key : String)
  | nestedTooDeep
  deriving DecidableEq, Repr

/-- The words that report an error. -/
def Error.message : Error → String
  | unclosedText => "unclosed string"
  | badCharacter c => s!"character {c.toNat} is not allowed here"
  | badEscape => "invalid escape"
  | badScalar text => s!"\x60{text}\x60 is no value"
  | expected what => s!"expected {what}"
  | duplicateKey key => s!"duplicate key \x60{key}\x60"
  | notExtensible key => s!"\x60{key}\x60 cannot be extended"
  | nestedTooDeep => "nested too deeply"

end Transclusion.Toml
