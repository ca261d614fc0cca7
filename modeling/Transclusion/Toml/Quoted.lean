import Transclusion.Text.CodePoint
import Transclusion.Toml.Error

/-!
# Quoted texts in TOML

A text stands between single quotes, as it is, or between double quotes, with escapes. Three quotes
let it go on over several lines.

* `readLiteral`, `readBasic` — a text on one line, from behind its opening quote;
* `readText` — a text in any of the four forms.
-/

namespace Transclusion.Toml

/-- Characters that may stand in a text or a comment as they are. -/
def isTextChar (c : Char) : Bool :=
  c = '\t' || (0x20 ≤ c.toNat && c.toNat ≠ 0x7F)

/-- Whether a line ends at a character: a line feed, or a carriage return before one. -/
def endsLine (c : Char) (rest : List Char) : Bool :=
  c = '\n' || (c = '\r' && rest.head? = some '\n')

/-- The blanks within a line. -/
def isSpace (c : Char) : Bool :=
  c = ' ' || c = '\t'

/-- What closes a text over several lines, where three quotes or more stand: up to two of them still
belong to the text. -/
def closing? (quote : Char) (cs : List Char) : Option (List Char × List Char) :=
  let run := (cs.takeWhile (· = quote)).length
  if run < 3 then none
  else
    let kept := min (run - 3) 2
    some (List.replicate kept quote, cs.drop (3 + kept))

/-- Reads a text between single quotes, up to its closing quote; `text` is what was read so far,
latest first. -/
def readLiteral (lines : Bool) (text : List Char) :
    List Char → Except Error (List Char × List Char)
  | [] => .error .unclosedText
  | c :: rest =>
      if c = '\'' && !lines then .ok (text.reverse, rest)
      else
        match (if lines then closing? '\'' (c :: rest) else none) with
        | some (kept, rest) => .ok (text.reverse ++ kept, rest)
        | none =>
            if isTextChar c || (lines && endsLine c rest) then readLiteral lines (c :: text) rest
            else .error (.badCharacter c)

/-- The character that a one-letter escape denotes. -/
def shortEscape? (c : Char) : Option Char :=
  match c with
  | 'b' => some '\x08'
  | 't' => some '\t'
  | 'n' => some '\n'
  | 'f' => some '\x0c'
  | 'r' => some '\r'
  | 'e' => some '\x1b'
  | '"' => some '"'
  | '\\' => some '\\'
  | _ => none

/-- How many hexadecimal digits follow the letter of an escape. -/
def escapeDigits? (c : Char) : Option Nat :=
  match c with
  | 'x' => some 2
  | 'u' => some 4
  | 'U' => some 8
  | _ => none

/-- Where the reader of a text with escapes stands. -/
inductive EscapeMode
  | text
  /-- Behind a backslash. -/
  | escape
  /-- Among the digits of an escape: how many are left, and the number so far. -/
  | digits (left value : Nat)
  /-- In the gap that a backslash at the end of a line opens; `broken` once the line has ended. -/
  | gap (broken : Bool)
  deriving DecidableEq, Repr

/-- Reads a text between double quotes, up to its closing quote; `text` is what was read so far,
latest first. -/
def readBasic (lines : Bool) (mode : EscapeMode) (text : List Char) :
    List Char → Except Error (List Char × List Char)
  | [] => .error .unclosedText
  | c :: rest =>
      match mode with
      | .escape =>
          match shortEscape? c, escapeDigits? c with
          | some d, _ => readBasic lines .text (d :: text) rest
          | none, some n => readBasic lines (.digits n 0) text rest
          | none, none =>
              if lines && isSpace c then readBasic lines (.gap false) text rest
              else if lines && endsLine c rest then readBasic lines (.gap true) text rest
              else .error .badEscape
      | .digits left value =>
          match Text.hexValue? c with
          | none => .error .badEscape
          | some d =>
              let value := 16 * value + d
              if 1 < left then readBasic lines (.digits (left - 1) value) text rest
              else
                match Text.charOfCode? value with
                | some d => readBasic lines .text (d :: text) rest
                | none => .error .badEscape
      | mode =>
          if mode ≠ .text && isSpace c then readBasic lines mode text rest
          else if mode ≠ .text && endsLine c rest then readBasic lines (.gap true) text rest
          else if mode = .gap false then .error .badEscape
          else if c = '"' && !lines then .ok (text.reverse, rest)
          else if c = '\\' then readBasic lines .escape text rest
          else
            match (if lines then closing? '"' (c :: rest) else none) with
            | some (kept, rest) => .ok (text.reverse ++ kept, rest)
            | none =>
                if isTextChar c || (lines && endsLine c rest) then
                  readBasic lines .text (c :: text) rest
                else .error (.badCharacter c)

/-- A text without the end of line it may start with. -/
def dropFirstBreak : List Char → List Char
  | '\n' :: rest => rest
  | '\r' :: '\n' :: rest => rest
  | rest => rest

/-- Reads a quoted text in any form. None if there is no quote. -/
def readText? : List Char → Option (Except Error (List Char × List Char))
  | '"' :: '"' :: '"' :: rest => some (readBasic true .text [] (dropFirstBreak rest))
  | '\'' :: '\'' :: '\'' :: rest => some (readLiteral true [] (dropFirstBreak rest))
  | '"' :: rest => some (readBasic false .text [] rest)
  | '\'' :: rest => some (readLiteral false [] rest)
  | _ => none

end Transclusion.Toml
