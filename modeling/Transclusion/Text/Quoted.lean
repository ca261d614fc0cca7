import Transclusion.Text.CodePoint

/-!
# Quoted texts

A text between double quotes, with escapes for the characters that cannot stand there as they are.
`quote` writes it in a given style; the styles differ in the letters for common characters and in
the spelling of a code point.
-/

namespace Transclusion.Text

/-- How a quoted text is written. -/
structure QuoteStyle where
  /-- The characters that are written as a backslash and a letter. -/
  letters : List (Char × Char)
  /-- Whether another character is written by its code point. -/
  needsCode : Char → Bool
  /-- The spelling of a code point behind the backslash. -/
  code : Nat → List Char

/-- How a character is written. -/
def QuoteStyle.escape (style : QuoteStyle) (c : Char) : List Char :=
  match style.letters.lookup c with
  | some letter => ['\\', letter]
  | none => if style.needsCode c then '\\' :: style.code c.toNat else [c]

/-- A text in quotes. -/
def quote (style : QuoteStyle) (text : String) : String :=
  String.ofList ('"' :: text.toList.flatMap style.escape ++ ['"'])

/-- The style of JSON: control characters have four digits. -/
def jsonStyle : QuoteStyle where
  letters := [('"', '"'), ('\\', '\\'), ('\x08', 'b'), ('\x0c', 'f'), ('\n', 'n'), ('\r', 'r'),
    ('\t', 't')]
  needsCode c := c.toNat < 0x20
  code n := 'u' :: hexDigits 4 n

/-- The style of listings: the digits of a control character stand in braces. -/
def listingStyle : QuoteStyle where
  letters := [('"', '"'), ('\\', '\\'), ('\n', 'n'), ('\r', 'r'), ('\t', 't'), ('\x00', '0')]
  needsCode c := c.toNat < 0x20 || (0x7F ≤ c.toNat && c.toNat < 0xA0)
  code n := 'u' :: '\x7b' :: hexDigits 1 n ++ ['\x7d']

end Transclusion.Text
