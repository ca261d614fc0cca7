import Transclusion.Text.CodePoint
import Transclusion.Yaml.Character

/-!
# Quoted and plain texts

A scalar written in quotes, or plainly, may go on over several lines; its breaks are *folded*:
one break between two lines reads as a space, and of several breaks the first is dropped.

* `foldGap` — what spacing and breaks between two words read as;
* `readSingle`, `readDouble` — a quoted text, from behind its opening quote;
* `readPlain` — a plain text.
-/

namespace Transclusion.Yaml

/-- What a run of spacing and breaks between two words reads as: itself if it holds no break. Else
the spacing goes; a lone newline reads as a space, and a newline before further breaks is
dropped. -/
def foldGap (gap : List Char) : List Char :=
  match gap.filter isBreak with
  | [] => gap
  | first :: others =>
      if first = '\n' then (if others = [] then [' '] else others) else first :: others

/-- Whether the last character of a gap, given latest first, is a break. -/
def endsLine : List Char → Bool
  | [] => false
  | c :: _ => isBreak c

/-! ## Single quotes -/

/-- Reads a single-quoted text up to its closing quote, a doubled quote being one quote. `text` and
`gap` are what was read so far, latest first. -/
def readSingle (text gap : List Char) : List Char → Except Error (List Char × List Char)
  | [] => .error .unclosedQuote
  | c :: rest =>
      if isSpacing c || isBreak c then readSingle text (c :: gap) rest
      else if endsLine gap && atMarker (c :: rest) then .error .markerInQuote
      else
        let text := (foldGap gap.reverse).reverse ++ text
        if c = '\'' then
          match rest with
          | '\'' :: rest => readSingle ('\'' :: text) [] rest
          | _ => .ok (text.reverse, rest)
        else readSingle (c :: text) [] rest

/-! ## Double quotes -/

/-- The character that a one-letter escape denotes. -/
def shortEscape? (c : Char) : Option Char :=
  match c with
  | '0' => some '\x00'
  | 'a' => some '\x07'
  | 'b' => some '\x08'
  | 't' => some '\t'
  | '\t' => some '\t'
  | 'n' => some '\n'
  | 'v' => some '\x0b'
  | 'f' => some '\x0c'
  | 'r' => some '\r'
  | 'e' => some '\x1b'
  | ' ' => some ' '
  | '"' => some '"'
  | '/' => some '/'
  | '\\' => some '\\'
  | 'N' => some '\u0085'
  | '_' => some '\u00a0'
  | 'L' => some '\u2028'
  | 'P' => some '\u2029'
  | _ => none

/-- How many hexadecimal digits follow the letter of an escape. -/
def escapeDigits? (c : Char) : Option Nat :=
  match c with
  | 'x' => some 2
  | 'u' => some 4
  | 'U' => some 8
  | _ => none

/-- Where the reader of a double-quoted text stands. -/
inductive QuoteMode
  /-- Between words: the gap so far, latest first, and whether an escaped break opened it. -/
  | gap (escaped : Bool) (run : List Char)
  /-- Behind a backslash. -/
  | escape
  /-- Inside a numeric escape: the digits still to come, and their value so far. -/
  | digits (left value : Nat)

/-- What the gap behind the last word reads as. Behind an escaped break only further breaks
count. -/
def QuoteMode.folded (escaped : Bool) (run : List Char) : List Char :=
  if escaped then run.reverse.filter isBreak else foldGap run.reverse

/-- Reads a double-quoted text up to its closing quote. `text` is what was read so far, latest
first. -/
def readDouble (mode : QuoteMode) (text : List Char) :
    List Char → Except Error (List Char × List Char)
  | [] => .error .unclosedQuote
  | c :: rest =>
      match mode with
      | .gap escaped run =>
          if isSpacing c || isBreak c then readDouble (.gap escaped (c :: run)) text rest
          else if (endsLine run || (escaped && run = [])) && atMarker (c :: rest) then
            .error .markerInQuote
          else
            let text := (QuoteMode.folded escaped run).reverse ++ text
            if c = '"' then .ok (text.reverse, rest)
            else if c = '\\' then readDouble .escape text rest
            else readDouble (.gap false []) (c :: text) rest
      | .escape =>
          if isBreak c then readDouble (.gap true []) text rest
          else
            match shortEscape? c, escapeDigits? c with
            | some d, _ => readDouble (.gap false []) (d :: text) rest
            | none, some n => readDouble (.digits n 0) text rest
            | none, none => .error (.unknownEscape c)
      | .digits left value =>
          match Text.hexValue? c with
          | none => .error .badEscape
          | some d =>
              let value := 16 * value + d
              if 1 < left then readDouble (.digits (left - 1) value) text rest
              else
                match Text.charOfCode? value with
                | some d => readDouble (.gap false []) (d :: text) rest
                | none => .error .badEscape

/-! ## Plain texts -/

/-- Characters that end a plain text inside a flow collection. -/
def isFlowIndicator (c : Char) : Bool :=
  c = ',' || c = '[' || c = ']' || c = '{' || c = '}'

/-- The column behind a gap that holds a break, the gap being given latest first. -/
def columnAfter (gap : List Char) : Nat :=
  (gap.takeWhile fun c => !isBreak c).length

/-- Whether a plain text ends before `c`, whatever stands before it: at a colon before a gap, and
inside a flow collection at an indicator. -/
def endsPlain (flow : Bool) (c : Char) (rest : List Char) : Bool :=
  (c = ':' && atGap rest) || (flow && isFlowIndicator c)

/-- Whether a plain text goes no further than the gap before `c`: the line is indented less than
its block, is a document marker, or the gap is followed by a comment. -/
def gapEndsPlain (flow : Bool) (indent : Nat) (gap : List Char) (c : Char) (rest : List Char) :
    Bool :=
  gap ≠ [] &&
    ((!flow && gap.any isBreak && columnAfter gap < indent) ||
      (endsLine gap && atMarker (c :: rest)) || c = '#')

/-- Reads a plain text. Besides the text and the rest it tells whether the gap behind the text
holds a break; that gap belongs to no token. `text` and `gap` are what was read so far, latest
first. -/
def readPlain (flow : Bool) (indent : Nat) (text gap : List Char) :
    List Char → Except Error (List Char × Bool × List Char)
  | [] => .ok (text.reverse, gap.any isBreak, [])
  | c :: rest =>
      if isSpacing c || isBreak c then
        if c = '\t' && gap.any isBreak && columnAfter gap < indent then .error .tabInIndentation
        else readPlain flow indent text (c :: gap) rest
      else if gapEndsPlain flow indent gap c rest then
        .ok (text.reverse, gap.any isBreak, c :: rest)
      else if flow && c = ':' && (rest.head?.any fun d => isFlowIndicator d || d = '?') then
        .error .ambiguousColon
      else if endsPlain flow c rest then .ok (text.reverse, gap.any isBreak, c :: rest)
      else readPlain flow indent (c :: ((foldGap gap.reverse).reverse ++ text)) [] rest

end Transclusion.Yaml
