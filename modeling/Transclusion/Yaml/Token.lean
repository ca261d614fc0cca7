import Transclusion.Yaml.BlockScalar
import Transclusion.Yaml.FlowScalar

/-!
# Tokens of a YAML text

The tokens between which the grammar of `Yaml.Node` is written, and the readers of single tokens
that are neither texts nor punctuation: anchors, tags and directives. Indentation appears as
tokens too: a block collection opens and closes with one of its own.
-/

namespace Transclusion.Yaml

/-- The text of a tag in its UTF-8 form. Percent escapes may spell octets that are no UTF-8. -/
abbrev Octets := List UInt8

/-- A token of a YAML text. -/
inductive Token
  | version (major minor : Nat)
  | tagHandle (handle : String) (expansion : Octets)
  | documentStart
  | documentEnd
  | blockSequenceStart
  | blockMappingStart
  | blockEnd
  | flowSequenceStart
  | flowSequenceEnd
  | flowMappingStart
  | flowMappingEnd
  | blockEntry
  | flowEntry
  | key
  | value
  | alias (name : String)
  | anchor (name : String)
  /-- A tag as a handle and what follows it; the empty handle marks a tag written in full. -/
  | tag (handle : String) (suffix : Octets)
  /-- A text, and whether it is written without quotes and in no block of its own. -/
  | scalar (plain : Bool) (text : String)
  deriving DecidableEq, Repr

/-! ## Names -/

/-- Whether the name of an anchor may end before the text. -/
def endsName : List Char → Bool
  | [] => true
  | c :: rest => atGap (c :: rest) || "?:,]\x7d%@\x60".toList.contains c

/-- The name of an anchor or alias, behind its indicator. -/
def readName (cs : List Char) : Except Error (String × List Char) :=
  let name := cs.takeWhile isWord
  let rest := cs.dropWhile isWord
  if name ≠ [] ∧ endsName rest then .ok (String.ofList name, rest) else .error .badAnchor

/-! ## Tags -/

/-- Characters of a tag; those of a flow collection only where the tag is written in full. -/
def isTagChar (full : Bool) (c : Char) : Bool :=
  isWord c || ";/?:@&=+$.%!~*'()".toList.contains c || (full && ",[]".toList.contains c)

/-- The octet that a percent escape spells, and the text behind it. -/
def readOctet? : List Char → Option (UInt8 × List Char)
  | '%' :: a :: b :: rest => do
      let high ← Text.hexValue? a
      let low ← Text.hexValue? b
      return (UInt8.ofNat (16 * high + low), rest)
  | _ => none

/-- How many octets follow the first one of a UTF-8 sequence. -/
def followers? (first : UInt8) : Option Nat :=
  if first < 0x80 then some 0
  else if 0xC0 ≤ first ∧ first < 0xE0 then some 1
  else if 0xE0 ≤ first ∧ first < 0xF0 then some 2
  else if 0xF0 ≤ first ∧ first < 0xF8 then some 3
  else none

/-- Reads the given number of octets that may stand inside a UTF-8 sequence. -/
def readFollowers? : Nat → List Char → Option (Octets × List Char)
  | 0, cs => some ([], cs)
  | count + 1, cs => do
      let (octet, rest) ← readOctet? cs
      if octet < 0x80 || 0xC0 ≤ octet then none
      else
        let (octets, rest) ← readFollowers? count rest
        return (octet :: octets, rest)

/-- Reads the percent escapes of one sequence. Only the shape of the sequence counts: what it spells
may be no character. -/
def readSequence? (cs : List Char) : Option (Octets × List Char) := do
  let (first, rest) ← readOctet? cs
  let (octets, rest) ← readFollowers? (← followers? first) rest
  return (first :: octets, rest)

/-- Reads the characters of a tag with its percent escapes. Every character takes one of
`steps`. -/
def readTagText (full : Bool) : Nat → List Char → Except Error (Octets × List Char)
  | 0, cs => .ok ([], cs)
  | steps + 1, cs =>
      match cs with
      | [] => .ok ([], [])
      | '%' :: _ =>
          match readSequence? cs with
          | none => .error .badTag
          | some (octets, rest) => do
              let (text, rest) ← readTagText full steps rest
              return (octets ++ text, rest)
      | c :: rest =>
          if isTagChar full c then do
            let (text, rest) ← readTagText full steps rest
            return (UInt8.ofNat c.toNat :: text, rest)
          else .ok ([], c :: rest)

/-- What counts of the text of a tag: a zero octet ends it. -/
def untilZero (octets : Octets) : Octets :=
  octets.takeWhile (· ≠ 0)

/-- A handle: `!`, or a word between two of them. The second one may be missing. -/
def readHandle (cs : List Char) : Except Error (List Char × List Char) :=
  match cs with
  | '!' :: rest =>
      let word := rest.takeWhile isWord
      match rest.dropWhile isWord with
      | '!' :: rest => .ok ('!' :: word ++ ['!'], rest)
      | rest => .ok ('!' :: word, rest)
  | _ => .error .badTag

/-- Whether a handle has both its marks, so that a suffix follows it. -/
def isNamedHandle (handle : List Char) : Bool :=
  1 < handle.length && handle.getLast? = some '!'

/-- A tag, from its `!`. A handle without its second mark belongs to the suffix of the primary
handle, and `!` alone is a tag of its own. -/
def readTag (flow : Bool) (cs : List Char) : Except Error (Token × List Char) := do
  let (token, rest) ← match cs with
    | '!' :: '<' :: rest => do
        let (suffix, rest) ← readTagText true rest.length rest
        match suffix, rest with
        | _ :: _, '>' :: rest => pure (Token.tag "" (untilZero suffix), rest)
        | _, _ => .error .badTag
    | _ => do
        let (handle, rest) ← readHandle cs
        let (suffix, rest) ← readTagText false rest.length rest
        if isNamedHandle handle then
          if suffix = [] then .error .badTag
          else pure (Token.tag (String.ofList handle) (untilZero suffix), rest)
        else
          match (handle.drop 1).map (UInt8.ofNat ·.toNat) ++ untilZero suffix with
          | [] => pure (Token.tag "" [0x21], rest)
          | suffix => pure (Token.tag "!" suffix, rest)
  if atGap rest || (flow && rest.head? = some ',') then return (token, rest)
  else .error .badTag

/-! ## Directives -/

/-- A number of a version: one to nine digits. -/
def readVersionNumber (cs : List Char) : Except Error (Nat × List Char) :=
  let digits := cs.takeWhile Char.isDigit
  if digits = [] ∨ 9 < digits.length then .error .badDirective
  else .ok (digits.foldl (fun n c => 10 * n + (c.toNat - '0'.toNat)) 0, cs.dropWhile Char.isDigit)

/-- A directive with the rest of its line, from behind its `%`. -/
def readDirective (cs : List Char) : Except Error (Token × List Char) := do
  let name := String.ofList (cs.takeWhile isWord)
  let rest := cs.dropWhile isWord
  unless atGap rest do throw .badDirective
  let rest := rest.dropWhile isSpacing
  let (token, rest) ←
    if name = "YAML" then do
      let (major, rest) ← readVersionNumber rest
      match rest with
      | '.' :: rest => do
          let (minor, rest) ← readVersionNumber rest
          pure (Token.version major minor, rest)
      | _ => throw .badDirective
    else if name = "TAG" then do
      let (handle, rest) ← readHandle rest
      unless handle = ['!'] || isNamedHandle handle do throw .badDirective
      match rest with
      | c :: _ => unless isSpacing c do throw .badDirective
      | [] => throw .badDirective
      let rest := rest.dropWhile isSpacing
      let (expansion, rest) ← readTagText true rest.length rest
      if expansion = [] ∨ !atGap rest then throw .badDirective
      pure (Token.tagHandle (String.ofList handle) (untilZero expansion), rest)
    else throw .badDirective
  return (token, ← readLineEnd .badDirective rest)

end Transclusion.Yaml
