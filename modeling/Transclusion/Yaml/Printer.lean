import Transclusion.Text.CodePoint
import Transclusion.Yaml.Schema

/-!
# Writing a YAML text

`write` gives the text of a mapping in block style: two spaces for each level, items of a sequence
at the column of their key, and empty collections in brackets.

A text is written in the plainest of four styles that keeps it: plainly, unless it would denote
something else; in single quotes; in a literal block, if it has line breaks; and else in double
quotes. `Features` collects what decides between them.

A key of more than 128 bytes or with a line break does not fit before a colon. It is written
behind a `?`, and its value behind a `:` on a line of its own.
-/

namespace Transclusion.Yaml

/-! ## What a text is like -/

/-- Line breaks as the writer counts them. A carriage return and a next line are breaks too. -/
def isWrittenBreak (c : Char) : Bool :=
  c = '\n' || c = '\r' || c = '\u0085' || c = '\u2028' || c = '\u2029'

/-- Characters that need no escape. -/
def isPrintable (c : Char) : Bool :=
  let n := c.toNat
  n == 0x0A || (0x20 ≤ n && n ≤ 0x7E) || (0xA0 ≤ n && n ≤ 0xFFFD && n != 0xFEFF) || 0x10000 ≤ n

/-- Whether the text is at its end, or goes on with a space, a tab or a break. -/
def beforeGap : List Char → Bool
  | [] => true
  | c :: _ => c = ' ' || c = '\t' || isWrittenBreak c

/-- Characters that a plain text cannot start with. -/
def isLeadingIndicator (c : Char) : Bool :=
  "#,[]\x7b\x7d&*!|>'\"%@\x60".toList.contains c

/-- Whether the character at the start of a text means something else there. -/
def leadsIndicator : List Char → Bool
  | [] => false
  | c :: rest =>
      isLeadingIndicator c || ((c = '?' || c = ':' || c = '-') && beforeGap rest) ||
        ['-', '-', '-'].isPrefixOf (c :: rest) || ['.', '.', '.'].isPrefixOf (c :: rest)

/-- Whether a colon before a gap, or a comment mark behind one, stands in a text; `previous` is the
character before it. -/
def holdsIndicator (previous : Char) : List Char → Bool
  | [] => false
  | c :: rest =>
      (c = ':' && beforeGap rest) || (c = '#' && beforeGap [previous]) || holdsIndicator c rest

/-- Whether two neighbouring characters satisfy `p` and `q`. -/
def hasPair (p q : Char → Bool) : List Char → Bool
  | a :: b :: rest => (p a && q b) || hasPair p q (b :: rest)
  | _ => false

def isSpace (c : Char) : Bool := c = ' '

/-- What decides how a text can be written. -/
structure Features where
  /-- It holds a line break. -/
  multiline : Bool
  /-- Written plainly in a block, it reads as itself or as a value spelled like it. -/
  plainAllowed : Bool
  singleAllowed : Bool
  literalAllowed : Bool

/-- The features of a text. -/
def Features.of (cs : List Char) : Features :=
  let multiline := cs.any isWrittenBreak
  let special := cs.any (!isPrintable ·)
  let spaceBreak := hasPair isSpace isWrittenBreak cs
  let breakSpace := hasPair isWrittenBreak isSpace cs
  let edgeSpace := cs.head?.any isSpace || cs.getLast?.any isSpace
  let indicators := leadsIndicator cs || (match cs with
    | c :: rest => holdsIndicator c rest
    | [] => false)
  { multiline
    plainAllowed := !multiline && !special && !edgeSpace && !indicators
    singleAllowed := !special && !spaceBreak && !breakSpace
    literalAllowed := cs ≠ [] && !special && !spaceBreak && !cs.getLast?.any isSpace }

/-- The styles of a text. -/
inductive Style
  | plain
  | single
  | double
  | literal
  deriving DecidableEq, Repr

/-- Whether a plain text would denote something else than itself. -/
def looksTyped (text : String) : Bool :=
  match ofPlain text with
  | .ok (.str _) => isZeroPadded text.toList
  | _ => true

/-- The style a text is written in. Only a newline asks for a literal block; other breaks are kept
in quotes. -/
def Style.of (text : String) : Style :=
  let cs := text.toList
  let features := Features.of cs
  let quoted := if features.singleAllowed then Style.single else .double
  if cs.contains '\n' then (if features.literalAllowed then .literal else .double)
  else if looksTyped text then quoted
  else if features.plainAllowed then .plain
  else quoted

/-! ## Texts -/

/-- The spaces of an indentation. -/
def spaces (n : Nat) : List Char :=
  List.replicate n ' '

/-- Writes characters, with the indentation between a break and the first character of the next
line; `broken` tells whether a break was written last. -/
def writeIndented (indent : Nat) (broken : Bool) : List Char → List Char
  | [] => []
  | c :: rest =>
      if isWrittenBreak c then c :: writeIndented indent true rest
      else (if broken then spaces indent else []) ++ c :: writeIndented indent false rest

/-- A text in single quotes: quotes are doubled, and behind a break stands the indentation. -/
def writeSingle (indent : Nat) (cs : List Char) : List Char :=
  let doubled := cs.flatMap fun c => if c = '\'' then ['\'', '\''] else [c]
  let close := if cs.getLast?.any isWrittenBreak then spaces indent else []
  '\'' :: writeIndented indent false doubled ++ close ++ ['\'']

/-- A number in a given count of upper-case hexadecimal digits. -/
def upperDigits (count n : Nat) : List Char :=
  (Text.hexDigits count n).map Char.toUpper

def escapeLetter? (c : Char) : Option Char :=
  match c with
  | '\x00' => some '0'
  | '\x07' => some 'a'
  | '\x08' => some 'b'
  | '\t' => some 't'
  | '\n' => some 'n'
  | '\x0b' => some 'v'
  | '\x0c' => some 'f'
  | '\r' => some 'r'
  | '\x1b' => some 'e'
  | '"' => some '"'
  | '\\' => some '\\'
  | '\u0085' => some 'N'
  | '\u2028' => some 'L'
  | '\u2029' => some 'P'
  | _ => none

/-- A character in double quotes. -/
def writeEscaped (c : Char) : List Char :=
  match escapeLetter? c with
  | some letter => ['\\', letter]
  | none =>
      let n := c.toNat
      if isPrintable c then [c]
      else if n ≤ 0xFF then '\\' :: 'x' :: upperDigits 2 n
      else if n ≤ 0xFFFF then '\\' :: 'u' :: upperDigits 4 n
      else '\\' :: 'U' :: upperDigits 8 n

/-- A text in double quotes. -/
def writeDouble (cs : List Char) : List Char :=
  '"' :: cs.flatMap writeEscaped ++ ['"']

/-- The header of a literal block: the indentation if the text starts with a space or a break, and
what becomes of the breaks at its end. -/
def literalHeader (cs : List Char) : List Char :=
  let hint := if cs.head?.any fun c => isSpace c || isWrittenBreak c then ['2'] else []
  let chomping :=
    match cs.reverse with
    | a :: b :: _ =>
        if !isWrittenBreak a then ['-'] else if isWrittenBreak b then ['+'] else []
    | [a] => if isWrittenBreak a then ['+'] else ['-']
    | [] => ['-']
  '|' :: hint ++ chomping

/-- A text as a literal block. A newline ends its last line, unless the text ends in a break of its
own. -/
def writeLiteral (indent : Nat) (cs : List Char) : List Char :=
  let lines := writeIndented indent true cs
  let close := if cs.getLast?.any isWrittenBreak then [] else ['\n']
  literalHeader cs ++ '\n' :: lines ++ close

/-- A text and the break behind it. Its further lines are indented by `indent`. -/
def writeText (indent : Nat) (text : String) : List Char :=
  let cs := text.toList
  match Style.of text with
  | .plain => cs ++ ['\n']
  | .single => writeSingle indent cs ++ ['\n']
  | .double => writeDouble cs ++ ['\n']
  | .literal => writeLiteral indent cs

/-- A text before a colon. It has one line. -/
def writeKey (text : String) : List Char :=
  let cs := text.toList
  match Style.of text with
  | .plain => cs
  | .single => writeSingle 0 cs
  | .double | .literal => writeDouble cs

/-- Whether a key fits before a colon. -/
def isSimpleKey (key : String) : Bool :=
  !key.toList.any isWrittenBreak && key.utf8ByteSize ≤ 128

/-! ## Values -/

/-- Floats are written positionally from `1e-5` up to below `1e16`. -/
def floatLayout : Binary64.Layout := ⟨-4, 16⟩

mutual

/-- A value behind an indicator at the column `indent`. A collection that is not empty starts right
there behind the mark of an item, and on the next line (`below`) behind a key: its items at the
column of the key, its entries two columns further. -/
def writeValue (below : Bool) (indent : Nat) : Value → List Char
  | .null => " null\n".toList
  | .bool b => if b then " true\n".toList else " false\n".toList
  | .int n => ' ' :: (toString n).toList ++ ['\n']
  | .float x => ' ' :: x.text floatLayout ++ ['\n']
  | .str s => ' ' :: writeText (indent + 2) s
  | .list items =>
      if items.isEmpty then " []\n".toList
      else if below then '\n' :: writeItems indent true items
      else ' ' :: writeItems (indent + 2) false items
  | .map entries =>
      if entries.isEmpty then " \x7b\x7d\n".toList
      else (if below then '\n' else ' ') :: writeEntries (indent + 2) below entries

/-- The items of a sequence at the column `indent`; `fresh` tells whether the first one starts a
line. -/
def writeItems (indent : Nat) (fresh : Bool) : List Value → List Char
  | [] => []
  | item :: items =>
      (if fresh then spaces indent else []) ++ '-' :: writeValue false indent item ++
        writeItems indent true items

/-- The entries of a mapping at the column `indent`; `fresh` tells whether the first one starts a
line. -/
def writeEntries (indent : Nat) (fresh : Bool) : List (String × Value) → List Char
  | [] => []
  | (key, value) :: entries =>
      (if fresh then spaces indent else []) ++
        (if isSimpleKey key then writeKey key ++ ':' :: writeValue true indent value
          else
            '?' :: ' ' :: writeText (indent + 2) key ++
              spaces indent ++ ':' :: writeValue false indent value) ++
        writeEntries indent true entries

end

/-- The YAML text of a mapping. -/
def write (fields : Mapping) : String :=
  if fields = [] then "\x7b\x7d\n" else String.ofList (writeEntries 0 true fields)

end Transclusion.Yaml
