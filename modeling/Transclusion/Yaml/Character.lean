import Transclusion.Yaml.Error

/-!
# Characters of a YAML text

The classes of characters that the grammar of YAML distinguishes, after line breaks have been
made uniform: `unifyBreaks` leaves the newline and the two Unicode separators as the only breaks.
-/

namespace Transclusion.Yaml

/-- Characters a YAML text may hold. -/
def isPermitted (c : Char) : Bool :=
  let n := c.toNat
  n == 0x09 || n == 0x0A || n == 0x0D || (0x20 ≤ n && n ≤ 0x7E) || n == 0x85 ||
    (0xA0 ≤ n && n ≤ 0xD7FF) || (0xE000 ≤ n && n ≤ 0xFFFD) || 0x10000 ≤ n

/-- Writes every line break as a newline: carriage return, carriage return and newline, and next
line. The line and the paragraph separator are breaks too, but keep their character. -/
def unifyBreaks : List Char → List Char
  | '\r' :: '\n' :: rest => '\n' :: unifyBreaks rest
  | c :: rest => (if c = '\r' ∨ c = '\u0085' then '\n' else c) :: unifyBreaks rest
  | [] => []

/-- Line breaks. -/
def isBreak (c : Char) : Bool :=
  c = '\n' || c = '\u2028' || c = '\u2029'

/-- Spaces and tabs. -/
def isSpacing (c : Char) : Bool :=
  c = ' ' || c = '\t'

/-- Whether a text starts with spacing or a break, or is at its end. -/
def atGap : List Char → Bool
  | [] => true
  | c :: _ => isSpacing c || isBreak c

/-- Characters of anchors, directive names and tag handles. -/
def isWord (c : Char) : Bool :=
  c.isAlphanum || c = '_' || c = '-'

/-- Whether a text starts with a document marker, `---` or `...` before a gap. -/
def atMarker : List Char → Bool
  | a :: b :: c :: rest => a = b && b = c && (a = '-' || a = '.') && atGap rest
  | _ => false

end Transclusion.Yaml
