import Transclusion.Yaml.Token

/-!
# Cutting a YAML text into tokens

The lexer walks through a text once. Two things make YAML more than a list of words.

* **Indentation.** `indents` holds the columns of the open block collections, innermost first. A
  token further right than the innermost may open a collection there (`State.roll`), and one
  further left closes all collections that are deeper (`State.unroll`).
* **Keys are known late.** A text is a key if a colon follows it, on the same line and within
  1024 bytes. So the lexer remembers where the last *candidate* started, one for each level
  of flow collections, and when the colon comes it puts the tokens of the key in front of it.

`tokens` is the entry point; it also refuses texts with control characters.
-/

namespace Transclusion.Yaml

/-- A place where a key may have started. -/
structure Candidate where
  /-- How many tokens stand before it. -/
  token : Nat
  /-- How many bytes of the text stand before it. -/
  offset : Nat
  line : Nat
  column : Nat
  /-- Nothing but a key may stand here. -/
  required : Bool
  deriving Repr

/-- What the lexer knows between two tokens. -/
structure State where
  rest : List Char
  /-- How many bytes were passed. -/
  offset : Nat
  line : Nat
  column : Nat
  /-- The tokens so far, latest first. -/
  tokens : List Token
  /-- The columns of the open block collections, innermost first. -/
  indents : List Nat
  /-- The candidate of the innermost flow level. -/
  candidate : Option Candidate
  /-- The candidates of the levels around it; empty outside flow collections. -/
  outer : List (Option Candidate)
  /-- Whether a key may start here. -/
  keyAllowed : Bool

namespace State

/-- Whether the lexer is inside a flow collection. -/
def inFlow (s : State) : Bool :=
  !s.outer.isEmpty

/-- The state before the first token. -/
def initial (cs : List Char) : State :=
  ⟨cs, 0, 0, 0, [], [], none, [], true⟩

/-- Moves to `rest`, a later part of the text. -/
def moveTo (s : State) (rest : List Char) : State :=
  let passed := s.rest.take (s.rest.length - rest.length)
  let (line, column) := passed.foldl
    (fun (line, column) c => if isBreak c then (line + 1, 0) else (line, column + 1))
    (s.line, s.column)
  { s with rest, offset := passed.foldl (fun n c => n + c.utf8Size) s.offset, line, column }

/-- Appends a token. -/
def emit (s : State) (t : Token) : State :=
  { s with tokens := t :: s.tokens }

/-- Appends a token that was read up to `rest`. -/
def emitTo (s : State) (t : Token) (rest : List Char) : State :=
  (s.moveTo rest).emit t

/-! ## Between tokens -/

/-- Where the reader of blanks stands. -/
inductive BlankMode
  /-- At the start of a line, where a byte order mark may stand. -/
  | lineStart
  | line
  | comment
  deriving DecidableEq, Repr

/-- Skips spaces, breaks and comments, one byte order mark at the start of a line, and tabs where
they cannot be mistaken for indentation. Outside flow collections a key may start on every new
line. -/
def skipBlanks (flow : Bool) (mode : BlankMode) (keyAllowed : Bool) :
    List Char → List Char × Bool
  | [] => ([], keyAllowed)
  | c :: rest =>
      if isBreak c then skipBlanks flow .lineStart (keyAllowed || !flow) rest
      else if mode = .comment || c = '#' then skipBlanks flow .comment keyAllowed rest
      else if c = ' ' || (c = '\t' && (flow || !keyAllowed)) || (mode = .lineStart && c = '\ufeff')
      then skipBlanks flow .line keyAllowed rest
      else (c :: rest, keyAllowed)

/-- Moves to the next token. -/
def toToken (s : State) : State :=
  let mode := if s.column = 0 then BlankMode.lineStart else .line
  let (rest, keyAllowed) := skipBlanks s.inFlow mode s.keyAllowed s.rest
  { s.moveTo rest with keyAllowed }

/-- A candidate that no colon can follow any more: it is on an earlier line or too far back. -/
def isStale (s : State) (c : Candidate) : Bool :=
  c.line < s.line || c.offset + 1024 < s.offset

/-- Gives up a candidate if it is stale, which is an error if nothing but a key may stand
there. -/
def dropStale (s : State) : Option Candidate → Except Error (Option Candidate)
  | none => .ok none
  | some c =>
      if s.isStale c then (if c.required then .error .keyWithoutColon else .ok none)
      else .ok (some c)

/-- Gives up all stale candidates. -/
def dropAllStale (s : State) : Except Error State := do
  let candidate ← s.dropStale s.candidate
  let outer ← s.outer.mapM s.dropStale
  return { s with candidate, outer }

/-- Gives up the candidate of the innermost level. -/
def forgetKey (s : State) : Except Error State :=
  match s.candidate with
  | some c => if c.required then .error .keyWithoutColon else .ok { s with candidate := none }
  | none => .ok s

/-- Notes that a key may start here, if it may. -/
def noteKey (s : State) : Except Error State :=
  if s.keyAllowed then do
    let required := !s.inFlow && s.indents.head? = some s.column
    let s ← s.forgetKey
    return { s with candidate := some ⟨s.tokens.length, s.offset, s.line, s.column, required⟩ }
  else .ok s

/-! ## Indentation -/

/-- The block collections that a token at `column` closes, and those that stay open. -/
def closeDeeper (column : Nat) : List Nat → List Token → List Nat × List Token
  | [], tokens => ([], tokens)
  | indent :: indents, tokens =>
      if column < indent then closeDeeper column indents (.blockEnd :: tokens)
      else (indent :: indents, tokens)

/-- Closes the block collections deeper than the current column. Indentation means nothing inside
a flow collection. -/
def unroll (s : State) : State :=
  if s.inFlow then s
  else
    let (indents, tokens) := closeDeeper s.column s.indents s.tokens
    { s with indents, tokens }

/-- Closes all block collections. -/
def unrollAll (s : State) : State :=
  if s.inFlow then s
  else { s with indents := [], tokens := s.indents.map (fun _ => Token.blockEnd) ++ s.tokens }

/-- Whether a block collection at `column` is deeper than those that are open. -/
def opensAt (s : State) (column : Nat) : Bool :=
  !s.inFlow && s.indents.all (· < column)

/-- Opens a block collection at the current column, if it is deeper than the innermost one. -/
def roll (s : State) (t : Token) : State :=
  if s.opensAt s.column then
    { s with indents := s.column :: s.indents, tokens := t :: s.tokens }
  else s

/-- Makes the candidate a key: its tokens go in front of it, and if it stands deeper than the
innermost block collection it opens a mapping. -/
def openKey (s : State) (c : Candidate) : State :=
  let later := s.tokens.length - c.token
  let opens := s.opensAt c.column
  let marks := if opens then [Token.key, Token.blockMappingStart] else [Token.key]
  { s with
    tokens := s.tokens.take later ++ marks ++ s.tokens.drop later
    indents := if opens then c.column :: s.indents else s.indents
    candidate := none
    keyAllowed := false }

/-! ## One token -/

/-- Whether the character may start a plain text. -/
def startsPlain (flow : Bool) (c : Char) (next : List Char) : Bool :=
  !(isSpacing c || isBreak c || "-?:,[]\x7b\x7d#&*!|>'\"%@\x60".toList.contains c) ||
    (c = '-' && !(next.head?.any isSpacing)) ||
    (!flow && (c = '?' || c = ':') && !atGap next)

/-- Reads a `---` or `...`. -/
def readMarker (s : State) : Except Error State := do
  let s ← s.unrollAll.forgetKey
  let t := if s.rest.head? = some '-' then Token.documentStart else Token.documentEnd
  return { s.emitTo t (s.rest.drop 3) with keyAllowed := false }

/-- Reads the opening of a flow collection, which may itself be a key. -/
def openFlow (s : State) (t : Token) : Except Error State := do
  let s ← s.noteKey
  return { s.emitTo t (s.rest.drop 1) with
    outer := s.candidate :: s.outer, candidate := none, keyAllowed := true }

/-- Reads the end of a flow collection. -/
def closeFlow (s : State) (t : Token) : Except Error State := do
  let s ← s.forgetKey
  let (candidate, outer) := match s.outer with
    | [] => (s.candidate, [])
    | c :: outer => (c, outer)
  return { s.emitTo t (s.rest.drop 1) with candidate, outer, keyAllowed := false }

/-- Reads a comma of a flow collection. -/
def readFlowEntry (s : State) : Except Error State := do
  let s ← s.forgetKey
  return { s.emitTo .flowEntry (s.rest.drop 1) with keyAllowed := true }

/-- Reads the `-` before an item. -/
def readBlockEntry (s : State) : Except Error State := do
  if !s.inFlow && !s.keyAllowed then throw .misplacedEntry
  let s ← (s.roll .blockSequenceStart).forgetKey
  return { s.emitTo .blockEntry (s.rest.drop 1) with keyAllowed := true }

/-- Reads the `?` before a key. -/
def readKey (s : State) : Except Error State := do
  if !s.inFlow && !s.keyAllowed then throw .misplacedKey
  let s ← (s.roll .blockMappingStart).forgetKey
  return { s.emitTo .key (s.rest.drop 1) with keyAllowed := !s.inFlow }

/-- Reads the `:` before a value. If a key may have started, it did. -/
def readValue (s : State) : Except Error State := do
  match s.candidate with
  | some c =>
      let s := s.openKey c
      return s.emitTo .value (s.rest.drop 1)
  | none =>
      if !s.inFlow && !s.keyAllowed then throw .misplacedValue
      let s := s.roll .blockMappingStart
      return { s.emitTo .value (s.rest.drop 1) with keyAllowed := !s.inFlow }

/-- Reads a `|` or `>` with its lines. -/
def readBlock (s : State) (literal : Bool) : Except Error State := do
  let s ← s.forgetKey
  let (text, rest) ← readBlockScalar literal s.indents.head? (s.rest.drop 1)
  return { s.emitTo (.scalar false (String.ofList text)) rest with keyAllowed := true }

def readQuoted (s : State)
    (reader : List Char → Except Error (List Char × List Char)) : Except Error State := do
  let s ← s.noteKey
  let (text, rest) ← reader (s.rest.drop 1)
  return { s.emitTo (.scalar false (String.ofList text)) rest with keyAllowed := false }

/-- Reads a plain text. -/
def readWords (s : State) : Except Error State := do
  let s ← s.noteKey
  let indent := match s.indents.head? with
    | some n => n + 1
    | none => 0
  let (text, broken, rest) ← readPlain s.inFlow indent [] [] s.rest
  return { s.emitTo (.scalar true (String.ofList text)) rest with keyAllowed := broken }

/-- Reads an anchor or an alias. -/
def readReference (s : State) (t : String → Token) : Except Error State := do
  let s ← s.noteKey
  let (name, rest) ← readName (s.rest.drop 1)
  return { s.emitTo (t name) rest with keyAllowed := false }

def readTagToken (s : State) : Except Error State := do
  let s ← s.noteKey
  let (t, rest) ← readTag s.inFlow s.rest
  return { s.emitTo t rest with keyAllowed := false }

/-- Reads a directive with its line. -/
def readDirectiveLine (s : State) : Except Error State := do
  let s ← s.unrollAll.forgetKey
  let (t, rest) ← readDirective (s.rest.drop 1)
  return { s.emitTo t rest with keyAllowed := false }

/-- Reads the token that starts with `c`, the first character of the rest. -/
def readToken (s : State) (c : Char) : Except Error State :=
  let next := s.rest.drop 1
  if s.column = 0 ∧ c = '%' then s.readDirectiveLine
  else if s.column = 0 ∧ atMarker s.rest then s.readMarker
  else if c = '[' then s.openFlow .flowSequenceStart
  else if c = '{' then s.openFlow .flowMappingStart
  else if c = ']' then s.closeFlow .flowSequenceEnd
  else if c = '}' then s.closeFlow .flowMappingEnd
  else if c = ',' then s.readFlowEntry
  else if c = '-' ∧ atGap next then s.readBlockEntry
  else if c = '?' ∧ (s.inFlow || atGap next) then s.readKey
  else if c = ':' ∧ (s.inFlow || atGap next) then s.readValue
  else if c = '*' then s.readReference .alias
  else if c = '&' then s.readReference .anchor
  else if c = '!' then s.readTagToken
  else if c = '|' ∧ !s.inFlow then s.readBlock true
  else if c = '>' ∧ !s.inFlow then s.readBlock false
  else if c = '\'' then s.readQuoted (readSingle [] [])
  else if c = '"' then s.readQuoted (readDouble (.gap false []) [])
  else if startsPlain s.inFlow c next then s.readWords
  else .error (.strayCharacter c)

/-- Reads all tokens. Every token takes one of `steps`. -/
def readAll : Nat → State → Except Error (List Token)
  | 0, s => .ok s.tokens.reverse
  | steps + 1, s => do
      let s ← s.toToken.dropAllStale
      let s := s.unroll
      match s.rest with
      | [] => return (← s.unrollAll.forgetKey).tokens.reverse
      | c :: _ => readAll steps (← s.readToken c)

end State

/-- The tokens of a YAML text. Every token has a character of its own, so there are fewer tokens
to read than characters and one. -/
def tokens (text : String) : Except Error (List Token) :=
  match text.toList.find? (!isPermitted ·) with
  | some c => .error (.forbiddenCharacter c)
  | none =>
      let cs := unifyBreaks text.toList
      State.readAll (cs.length + 1) (State.initial cs)

end Transclusion.Yaml
